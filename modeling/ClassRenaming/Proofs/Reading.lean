import ClassRenaming.Bytes
import Mathlib.Data.List.Forall2

/-!
What it means that a reader succeeds: the parts of a reader put together from others succeed one
after another.
-/

namespace ClassRenaming

theorem forall_byte {holds : UInt8 → Prop} (all : ∀ n < 256, holds (UInt8.ofNat n)) (b : UInt8) :
    holds b := by
  have here := all b.toNat b.toNat_lt
  rwa [UInt8.ofNat_toNat] at here

theorem Except.bind_eq_ok {ε α β : Type} {first : Except ε α} {next : α → Except ε β} {value : β} :
    (first >>= next) = .ok value ↔ ∃ found, first = .ok found ∧ next found = .ok value := by
  cases first with
  | error cause =>
    constructor
    · rintro ⟨⟩
    · rintro ⟨found, ⟨⟩, -⟩
  | ok found =>
    constructor
    · intro done
      exact ⟨found, rfl, done⟩
    · rintro ⟨found, ⟨⟩, done⟩
      exact done

theorem Except.bind_congr_ok {ε α β : Type} {first : Except ε α} {next others : α → Except ε β}
    (same : ∀ value, first = .ok value → next value = others value) :
    first >>= next = first >>= others := by
  cases first with
  | error fault => rfl
  | ok value => exact same value rfl

theorem Except.map_eq_ok {ε α β : Type} {first : Except ε α} {f : α → β} {value : β} :
    (f <$> first) = .ok value ↔ ∃ found, first = .ok found ∧ f found = value := by
  cases first <;> simp [Functor.map, Except.map]

theorem Except.forall₂_of_mapM {ε α β : Type} {step : α → Except ε β} {good : β → α → Prop}
    {items : List α} (each : ∀ item ∈ items, ∀ value, step item = .ok value → good value item)
    {values : List β} (done : items.mapM step = .ok values) : List.Forall₂ good values items := by
  induction items generalizing values with
  | nil =>
    cases done
    exact .nil
  | cons item items ih =>
    rw [List.mapM_cons] at done
    obtain ⟨first, here, done⟩ := Except.bind_eq_ok.1 done
    obtain ⟨later, there, done⟩ := Except.bind_eq_ok.1 done
    cases done
    exact .cons (each item (by simp) first here)
      (ih (fun other member => each other (by simp [member])) there)

theorem Except.mapM_of_each {ε ι α β : Type} {first : ι → Except ε α} {second : ι → Except ε β}
    {g : α → β} {items : List ι}
    (each : ∀ item ∈ items, ∀ value, first item = .ok value → second item = .ok (g value))
    {values : List α} (done : items.mapM first = .ok values) :
    items.mapM second = .ok (values.map g) := by
  induction items generalizing values with
  | nil =>
    cases done
    rfl
  | cons item items ih =>
    rw [List.mapM_cons] at done ⊢
    obtain ⟨value, here, done⟩ := Except.bind_eq_ok.1 done
    obtain ⟨rest, there, done⟩ := Except.bind_eq_ok.1 done
    cases done
    rw [each item (by simp) value here, ih (fun other member => each other (by simp [member])) there]
    rfl

theorem Except.exists_of_mem_mapM {ε α β : Type} {step : α → Except ε β} {items : List α}
    {values : List β} (done : items.mapM step = .ok values) {value : β} (member : value ∈ values) :
    ∃ item ∈ items, step item = .ok value := by
  have each : List.Forall₂ (fun value item => step item = .ok value) values items :=
    Except.forall₂_of_mapM (fun _ _ _ here => here) done
  clear done
  induction each with
  | nil => cases member
  | cons first _ ih =>
    rcases List.mem_cons.1 member with rfl | member
    · exact ⟨_, List.mem_cons_self, first⟩
    · obtain ⟨item, inside, here⟩ := ih member
      exact ⟨item, List.mem_cons_of_mem _ inside, here⟩

theorem Except.mem_of_mapM {ε α β : Type} {step : α → Except ε β} {items : List α} {values : List β}
    (done : items.mapM step = .ok values) {item : α} (member : item ∈ items) {value : β}
    (here : step item = .ok value) : value ∈ values := by
  have each : List.Forall₂ (fun value item => step item = .ok value) values items :=
    Except.forall₂_of_mapM (fun _ _ _ here => here) done
  clear done
  induction each with
  | nil => cases member
  | cons first _ ih =>
    rcases List.mem_cons.1 member with rfl | member
    · obtain rfl := Except.ok.inj (first.symm.trans here)
      exact List.mem_cons_self
    · exact List.mem_cons_of_mem _ (ih member)

section Stopping

/-! A computation on a state that may stop with an error: what it did to the state before it stopped
stays done. -/

variable {ε σ α β : Type} {first : ExceptT ε (StateM σ) α} {next : α → ExceptT ε (StateM σ) β}
  {before after : σ}

theorem ExceptT.run_bind_ok {value : α} (done : first.run before = (.ok value, after)) :
    (first >>= next).run before = (next value).run after := by
  change ExceptT.bindCont next (first.run before).1 (first.run before).2 = _
  rw [done]
  rfl

theorem ExceptT.run_bind_error {cause : ε} (failed : first.run before = (.error cause, after)) :
    (first >>= next).run before = (.error cause, after) := by
  change ExceptT.bindCont next (first.run before).1 (first.run before).2 = _
  rw [failed]
  rfl

theorem ExceptT.fst_run_bind_error {cause : ε} (failed : (first.run before).1 = .error cause) :
    ((first >>= next).run before).1 = .error cause := by
  rw [ExceptT.run_bind_error (Prod.ext failed rfl)]

theorem ExceptT.run_bind_eq_ok {value : β} :
    (first >>= next).run before = (.ok value, after) ↔
      ∃ found middle, first.run before = (.ok found, middle) ∧
        (next found).run middle = (.ok value, after) := by
  cases ran : first.run before with
  | mk outcome middle =>
    cases outcome with
    | error cause =>
      rw [ExceptT.run_bind_error ran]
      constructor
      · rintro ⟨⟩
      · rintro ⟨_, _, ⟨⟩, _⟩
    | ok found =>
      rw [ExceptT.run_bind_ok ran]
      constructor
      · intro done
        exact ⟨found, middle, rfl, done⟩
      · rintro ⟨_, _, ⟨⟩, done⟩
        exact done

end Stopping

namespace Reader

variable {α β : Type}

/-! The first laws are the same for readers and for what grows a constant pool. -/

section Stateful

variable {σ : Type} {before after : σ}

theorem bind_eq_ok {first : StateT σ (Except FormatError) α}
    {next : α → StateT σ (Except FormatError) β} {value : β} :
    (first >>= next) before = .ok (value, after) ↔
      ∃ found middle, first before = .ok (found, middle) ∧
        next found middle = .ok (value, after) := by
  change (first before >>= fun pair => next pair.1 pair.2) = _ ↔ _
  constructor
  · intro done
    cases here : first before with
    | error cause =>
      rw [here] at done
      cases done
    | ok pair =>
      rw [here] at done
      exact ⟨pair.1, pair.2, rfl, done⟩
  · rintro ⟨found, middle, here, there⟩
    rw [here]
    exact there

theorem pure_eq_ok {value found : α} :
    (pure value : StateT σ (Except FormatError) α) before = .ok (found, after) ↔
      value = found ∧ before = after := by
  constructor
  · rintro ⟨⟩
    exact ⟨rfl, rfl⟩
  · rintro ⟨rfl, rfl⟩
    rfl

theorem lift_eq_ok {action : Except FormatError α} {value : α} :
    (liftM action : StateT σ (Except FormatError) α) before = .ok (value, after) ↔
      action = .ok value ∧ before = after := by
  cases action with
  | error cause =>
    constructor
    · rintro ⟨⟩
    · rintro ⟨⟨⟩, -⟩
  | ok found =>
    constructor
    · rintro ⟨⟩
      exact ⟨rfl, rfl⟩
    · rintro ⟨⟨⟩, rfl⟩
      rfl

theorem mapM_lift_eq_ok (step : α → Except FormatError β) {items : List α} {values : List β}
    (done : (items.mapM fun item => (liftM (step item) : StateT σ (Except FormatError) β)) before =
      .ok (values, after)) : items.mapM step = .ok values ∧ before = after := by
  induction items generalizing before values with
  | nil =>
    rw [List.mapM_nil] at done
    obtain ⟨rfl, rfl⟩ := pure_eq_ok.1 done
    exact ⟨rfl, rfl⟩
  | cons item items ih =>
    rw [List.mapM_cons] at done
    obtain ⟨first, middle, here, done⟩ := bind_eq_ok.1 done
    obtain ⟨later, last, there, done⟩ := bind_eq_ok.1 done
    obtain ⟨rfl, rfl⟩ := pure_eq_ok.1 done
    obtain ⟨now, rfl⟩ := lift_eq_ok.1 here
    obtain ⟨rest, rfl⟩ := ih there
    rw [List.mapM_cons, now, rest]
    exact ⟨rfl, rfl⟩

end Stateful

theorem all_eq_ok {reader : Reader α} {bytes : Bytes} {leftover : Nat → FormatError} {value : α} :
    reader.all bytes leftover = .ok value ↔ reader bytes = .ok (value, []) := by
  unfold all
  split
  case h_1 cause failed => simp [failed]
  case h_2 found whole => simp [whole]
  case h_3 found rest left read =>
    simp only [read, Except.ok.injEq, Prod.mk.injEq, reduceCtorEq, false_iff, not_and]
    exact fun _ => left

theorem append_of_splitExact {count : Nat} {bytes taken rest : Bytes}
    (done : Bytes.splitExact count bytes = some (taken, rest)) :
    bytes = taken ++ rest ∧ taken.length = count := by
  induction count generalizing bytes taken rest with
  | zero =>
    obtain ⟨rfl, rfl⟩ : [] = taken ∧ bytes = rest := by simpa [Bytes.splitExact] using done
    exact ⟨rfl, rfl⟩
  | succ count ih =>
    cases bytes with
    | nil => cases done
    | cons b bytes =>
      cases here : Bytes.splitExact count bytes with
      | none => simp [Bytes.splitExact, here] at done
      | some pair =>
        obtain ⟨same, length⟩ := ih here
        obtain ⟨rfl, rfl⟩ : b :: pair.1 = taken ∧ pair.2 = rest := by
          simpa [Bytes.splitExact, here] using done
        exact ⟨by rw [same, List.cons_append], by rw [List.length_cons, length]⟩

theorem length_take {count : Nat} {bytes taken rest : Bytes}
    (done : take count bytes = .ok (taken, rest)) : taken.length = count := by
  unfold take at done
  split at done
  case h_1 pair here =>
    cases done
    exact (append_of_splitExact here).2
  case h_2 => cases done

theorem length_many {count : Nat} {item : Reader α} {bytes rest : Bytes} {items : List α}
    (done : many count item bytes = .ok (items, rest)) : items.length = count := by
  induction count generalizing bytes rest items with
  | zero =>
    obtain ⟨rfl, -⟩ := pure_eq_ok.1 done
    rfl
  | succ count ih =>
    obtain ⟨first, middle, -, done⟩ := bind_eq_ok.1 done
    obtain ⟨others, last, later, done⟩ := bind_eq_ok.1 done
    obtain ⟨rfl, -⟩ := pure_eq_ok.1 done
    rw [List.length_cons, ih later]

theorem length_table_lt {item : Reader α} {bytes rest : Bytes} {items : List α}
    (done : table item bytes = .ok (items, rest)) : items.length < 65536 := by
  obtain ⟨count, middle, -, done⟩ := bind_eq_ok.1 done
  rw [length_many done]
  exact count.toNat_lt

end Reader

end ClassRenaming
