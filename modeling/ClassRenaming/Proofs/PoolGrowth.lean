import ClassRenaming.Proofs.StoredPool
import Mathlib.Data.List.Forall2

/-!
What is written while the pool grows. An index that was handed out stays good in every pool that the
pool at hand may still grow to, so what is said of an index is said of all of these pools at once.
-/

namespace ClassRenaming

theorem getElem?_of_front {α : Type} {before after : List α} (front : before <+: after) {index : Nat}
    {item : α} (found : before[index]? = some item) : after[index]? = some item := by
  obtain ⟨more, rfl⟩ := front
  rwa [List.getElem?_append_left (List.getElem?_eq_some_iff.1 found).1]

namespace ConstantPool

/-- Entries and rows are added at the end, and rows only where dynamic constants may nest. -/
structure Grows (depth : Nat) (before after : ConstantPool) : Prop where
  entries : before.entries.toList <+: after.entries.toList
  rows : before.bootstrap.toList <+: after.bootstrap.toList
  still : depth = 0 → after.bootstrap = before.bootstrap

theorem entry_eq_ok {pool : ConstantPool} {index : UInt16} {entry : PoolEntry} :
    pool.entry index = .ok entry ↔
      pool.entries.toList[index.toNat]? = some entry ∧ entry ≠ .unusable := by
  rw [Array.getElem?_toList]
  unfold ConstantPool.entry
  split
  case h_1 absent => simp [absent]
  case h_2 unusable => simp [unusable, eq_comm]
  case h_3 found usable here =>
    rw [here]
    constructor
    · rintro ⟨⟩
      exact ⟨rfl, usable⟩
    · rintro ⟨⟨⟩, -⟩
      rfl

section Grows

variable {depth : Nat} {before after : ConstantPool}

theorem Grows.refl (pool : ConstantPool) : Grows depth pool pool :=
  ⟨List.prefix_rfl, List.prefix_rfl, fun _ => rfl⟩

theorem Grows.trans {last : ConstantPool} (first : Grows depth before after)
    (second : Grows depth after last) : Grows depth before last :=
  ⟨first.entries.trans second.entries, first.rows.trans second.rows,
    fun zero => (second.still zero).trans (first.still zero)⟩

theorem Grows.anyDepth (grows : Grows 0 before after) : Grows depth before after :=
  ⟨grows.entries, grows.rows, fun _ => grows.still rfl⟩

theorem Grows.entry {index : UInt16} {entry : PoolEntry} (grows : Grows depth before after)
    (found : before.entry index = .ok entry) : after.entry index = .ok entry := by
  rw [entry_eq_ok] at found ⊢
  exact ⟨getElem?_of_front grows.entries found.1, found.2⟩

theorem Grows.row {index : Nat} {row : BootstrapEntry} (grows : Grows depth before after)
    (found : before.bootstrap.toList[index]? = some row) :
    after.bootstrap.toList[index]? = some row :=
  getElem?_of_front grows.rows found

end Grows

/-! No index into a pool is zero. -/

theorem Sound.entry_zero {pool : ConstantPool} (sound : pool.Sound) :
    pool.entry 0 = .error (.invalidPoolIndex 0) := by
  obtain ⟨entries, same, -⟩ := sound.slots
  have first : pool.entries[0]? = some .unusable := by
    rw [← Array.getElem?_toList, same]
    rfl
  simp [ConstantPool.entry, first]

theorem Sound.utf8_ne_zero {pool : ConstantPool} (sound : pool.Sound) {index : UInt16} {text : String}
    (found : pool.utf8 index = .ok text) : index ≠ 0 := by
  rintro rfl
  rw [ConstantPool.utf8, sound.entry_zero] at found
  cases found

theorem Sound.className_ne_zero {pool : ConstantPool} (sound : pool.Sound) {index : UInt16}
    {name : String} (found : pool.className index = .ok name) : index ≠ 0 := by
  rintro rfl
  rw [ConstantPool.className, sound.entry_zero] at found
  cases found

theorem Sound.nameAndType_ne_zero {pool : ConstantPool} (sound : pool.Sound) {index : UInt16}
    {pair : String × String} (found : pool.nameAndType index = .ok pair) : index ≠ 0 := by
  rintro rfl
  rw [ConstantPool.nameAndType, sound.entry_zero] at found
  cases found

end ConstantPool

/-- An action that keeps a sound pool sound, only adds to it, and gives a value of which something
holds in every pool that comes of it. -/
def Interns {α : Type} (depth : Nat) (action : Interning α) (means : ConstantPool → α → Prop) : Prop :=
  ∀ ⦃pool : ConstantPool⦄, pool.Sound → ∀ ⦃value : α⦄ ⦃next : ConstantPool⦄,
    action pool = .ok (value, next) → next.Sound ∧ pool.Grows depth next ∧
      ∀ ⦃final : ConstantPool⦄, final.Sound → next.Grows depth final → means final value

namespace Interns

variable {depth : Nat} {α β : Type} {action : Interning α} {means : ConstantPool → α → Prop}

theorem pure {value : α} (now : ∀ ⦃pool : ConstantPool⦄, pool.Sound → means pool value) :
    Interns depth (pure value) means := by
  intro pool sound found next done
  obtain ⟨rfl, rfl⟩ := Reader.pure_eq_ok.1 done
  exact ⟨sound, .refl pool, fun final good _ => now good⟩

theorem lift {action : Except FormatError α}
    (now : ∀ value, action = .ok value → ∀ ⦃pool : ConstantPool⦄, pool.Sound → means pool value) :
    Interns depth (liftM action) means := by
  intro pool sound found next done
  obtain ⟨here, rfl⟩ := Reader.lift_eq_ok.1 done
  exact ⟨sound, .refl pool, fun final good _ => now found here good⟩

theorem throw {cause : FormatError} : Interns depth (throw cause) means := by
  intro pool sound found next done
  cases done

theorem after {next : α → Interning β} {result : ConstantPool → β → Prop}
    (first : Interns depth action means)
    (later : ∀ value here, means here value →
      Interns depth (next value) fun pool found => means pool value → result pool found) :
    Interns depth (action >>= next) result := by
  intro pool sound found last done
  obtain ⟨value, middle, here, there⟩ := Reader.bind_eq_ok.1 done
  obtain ⟨sound, grows, good⟩ := first sound here
  obtain ⟨sound, more, better⟩ := later value middle (good sound (.refl middle)) sound there
  exact ⟨sound, grows.trans more, fun final fine far => better fine far (good fine (more.trans far))⟩

theorem bind {next : α → Interning β} {result : ConstantPool → β → Prop}
    (first : Interns depth action means)
    (later : ∀ value, Interns depth (next value) fun pool found => means pool value → result pool found) :
    Interns depth (action >>= next) result :=
  first.after fun value _ _ => later value

theorem mono {weaker : ConstantPool → α → Prop} (first : Interns depth action means)
    (enough : ∀ ⦃pool : ConstantPool⦄, pool.Sound → ∀ value, means pool value → weaker pool value) :
    Interns depth action weaker := by
  intro pool sound value next done
  obtain ⟨sound, grows, good⟩ := first sound done
  exact ⟨sound, grows, fun final fine far => enough fine value (good fine far)⟩

theorem map {f : α → β} {result : ConstantPool → β → Prop} (first : Interns depth action means)
    (enough : ∀ ⦃pool : ConstantPool⦄, pool.Sound → ∀ value, means pool value → result pool (f value)) :
    Interns depth (f <$> action) result := by
  rw [← bind_pure_comp]
  exact first.bind fun value => .pure fun pool sound good => enough sound value good

theorem mapM {ι : Type} {step : ι → Interning α} {means : ι → ConstantPool → α → Prop}
    {items : List ι} (each : ∀ item ∈ items, Interns depth (step item) (means item)) :
    Interns depth (items.mapM step) fun pool values =>
      List.Forall₂ (fun item value => means item pool value) items values := by
  induction items with
  | nil =>
    rw [List.mapM_nil]
    exact .pure fun pool _ => .nil
  | cons item items ih =>
    rw [List.mapM_cons]
    refine (each item (by simp)).bind fun value => ?_
    refine (ih fun item member => each item (by simp [member])).bind fun values => ?_
    exact .pure fun pool _ rest first => .cons first rest

end Interns

namespace ConstantPool

theorem toNat_of_findIdx? {α : Type} {items : List α} {p : α → Bool} {index : UInt16}
    (short : items.length ≤ 65536)
    (found : (items.findIdx? p).map Nat.toUInt16 = some index) :
    ∃ item, items[index.toNat]? = some item ∧ p item = true := by
  obtain ⟨position, here, rfl⟩ := Option.map_eq_some_iff.1 found
  obtain ⟨inside, good, -⟩ := List.findIdx?_eq_some_iff_getElem.1 here
  rw [Bytes.toNat_toUInt16 (by omega), List.getElem?_eq_getElem inside]
  exact ⟨_, rfl, good⟩

theorem grows_append {depth : Nat} {pool next : ConstantPool} {entry : PoolEntry} {index : UInt16}
    {back : String → String} (sound : pool.Sound) (stored : entry.Stored) (told : pool.ReadsAs back)
    (fits : ∀ text bytes exact, entry = .utf8 text bytes exact →
      ∃ again, ModifiedUtf8.decode bytes = .ok ⟨back text, again⟩)
    (done : pool.append entry = .ok (index, next)) :
    next.Sound ∧ pool.Grows depth next ∧ next.entry index = .ok entry := by
  obtain ⟨entries, same, slots⟩ := sound.slots
  have usable : entry ≠ .unusable := by
    rintro rfl
    exact stored
  have room : pool.entries.toList.length < 65536 := by simpa using sound.size
  obtain ⟨added, front, plain, behind⟩ : ∃ added, PoolEntry.Slots (entry :: added) ∧
      (∀ item ∈ added, item = .unusable) ∧
      (if entry.isWide then (pool.entries.push entry).push .unusable else pool.entries.push entry) =
        (pool.entries.toList ++ entry :: added).toArray := by
    cases width : entry.isWide with
    | false => exact ⟨[], .narrow stored width .nil, by simp, by simp [← Array.toList_inj]⟩
    | true => exact ⟨[.unusable], .wide stored width .nil, by simp, by simp [← Array.toList_inj]⟩
  simp only [append, behind] at done
  split at done
  · cases done
  case isFalse small =>
    cases done
    refine ⟨⟨⟨entries ++ entry :: added, ?_, slots.append front⟩, Nat.lt_succ_of_le (Nat.not_lt.1 small),
      sound.rows, back, ?_, told.near⟩, ⟨List.prefix_append _ _, List.prefix_rfl, fun _ => rfl⟩, ?_⟩
    · simp [same]
    · intro text bytes exact member
      rcases List.mem_append.1 member with old | new
      · exact told.text text bytes exact old
      · rcases List.mem_cons.1 new with rfl | unused
        · exact fits text bytes exact rfl
        · cases plain _ unused
    · rw [entry_eq_ok, Bytes.toNat_toUInt16 (by simpa using room)]
      refine ⟨?_, usable⟩
      simp

end ConstantPool

section Interning

variable {depth : Nat}

theorem interns_entry {entry : PoolEntry} (plain : entry.Plain) :
    Interns depth (Interning.entry entry) fun pool index => pool.entry index = .ok entry := by
  intro pool sound index next done
  have room : pool.entries.toList.length ≤ 65536 := by simpa using sound.size.le
  unfold Interning.entry at done
  split at done
  case h_1 found here =>
    cases done
    obtain ⟨item, there, good⟩ := ConstantPool.toNat_of_findIdx? room here
    obtain rfl : item = entry := by simpa using good
    have usable : item ≠ .unusable := by
      rintro rfl
      exact plain
    exact ⟨sound, .refl pool, fun final _ grows =>
      grows.entry (ConstantPool.entry_eq_ok.2 ⟨there, usable⟩)⟩
  case h_2 =>
    obtain ⟨back, told⟩ := sound.texts
    have noText : ∀ text bytes exact, entry = .utf8 text bytes exact →
        ∃ again, ModifiedUtf8.decode bytes = .ok ⟨back text, again⟩ := by
      rintro text bytes exact rfl
      exact plain.elim
    obtain ⟨sound, grows, good⟩ := ConstantPool.grows_append sound plain.stored told noText done
    exact ⟨sound, grows, fun final _ far => far.entry good⟩

end Interning

end ClassRenaming
