import ClassRenaming.Proofs.Reading

/-!
What can be said of a value because it was read, whatever it was read from.
-/

namespace ClassRenaming

/-- Whatever the reader makes is good, for the number of bytes that it took. -/
def Gives {α : Type} (reader : Reader α) (good : Int → α → Prop) : Prop :=
  ∀ ⦃bytes : Bytes⦄ ⦃value : α⦄ ⦃rest : Bytes⦄, reader bytes = .ok (value, rest) →
    good (bytes.length - rest.length) value

namespace Gives

variable {α β : Type} {reader : Reader α} {good : Int → α → Prop} {result : Int → β → Prop}

theorem any : Gives reader fun _ _ => True := fun _ _ _ _ => trivial

theorem pure {value : α} (now : good 0 value) : Gives (pure value) good := by
  intro bytes found rest done
  obtain ⟨rfl, rfl⟩ := Reader.pure_eq_ok.1 done
  rwa [Int.sub_self]

theorem lift {action : Except FormatError α} :
    Gives (liftM action) fun count value => count = 0 ∧ action = .ok value := by
  intro bytes found rest done
  obtain ⟨here, rfl⟩ := Reader.lift_eq_ok.1 done
  exact ⟨Int.sub_self _, here⟩

theorem throw {cause : FormatError} : Gives (throw cause) good := by
  intro bytes found rest done
  cases done

theorem bind {next : α → Reader β} (first : Gives reader good)
    (later : ∀ count value, good count value →
      Gives (next value) fun more found => result (count + more) found) :
    Gives (reader >>= next) result := by
  intro bytes found rest done
  obtain ⟨value, middle, here, there⟩ := Reader.bind_eq_ok.1 done
  have both := later _ value (first here) there
  have sum : (bytes.length - middle.length + (middle.length - rest.length) : Int) =
      bytes.length - rest.length := by omega
  rwa [← sum]

theorem ite {condition : Prop} [Decidable condition] {other : Reader α}
    (yes : condition → Gives reader good) (no : ¬condition → Gives other good) :
    Gives (if condition then reader else other) good := by
  split
  case isTrue here => exact yes here
  case isFalse here => exact no here

theorem mono {weaker : Int → α → Prop} (first : Gives reader good)
    (enough : ∀ count value, good count value → weaker count value) : Gives reader weaker :=
  fun _ _ _ done => enough _ _ (first done)

theorem map {f : α → β} (first : Gives reader good)
    (enough : ∀ count value, good count value → result count (f value)) :
    Gives (f <$> reader) result := by
  rw [← bind_pure_comp]
  refine first.bind fun count value now => .pure ?_
  rw [Int.add_zero]
  exact enough count value now

theorem discard (first : Gives reader good) :
    Gives (discard reader) fun count _ => ∃ value, good count value :=
  map (f := Function.const α ()) first fun _ value now => ⟨value, now⟩

theorem all {leftover : Nat → FormatError} {bytes : Bytes} {value : α} (first : Gives reader good)
    (done : reader.all bytes leftover = .ok value) : good bytes.length value := by
  have now := first (Reader.all_eq_ok.1 done)
  rwa [List.length_nil, Int.natCast_zero, Int.sub_zero] at now

theorem u1 : Gives Reader.u1 fun count _ => count = 1 := by
  intro bytes value rest done
  cases bytes with
  | nil => cases done
  | cons a bytes =>
    cases done
    rw [List.length_cons]
    omega

theorem u2 : Gives Reader.u2 fun count _ => count = 2 := by
  intro bytes value rest done
  unfold Reader.u2 at done
  split at done
  · cases done
    simp only [List.length_cons]
    omega
  · cases done

theorem u4 : Gives Reader.u4 fun count _ => count = 4 := by
  intro bytes value rest done
  unfold Reader.u4 at done
  split at done
  · cases done
    simp only [List.length_cons]
    omega
  · cases done

theorem take {length : Nat} : Gives (Reader.take length) fun count taken =>
    count = length ∧ taken.length = length := by
  intro bytes taken rest done
  unfold Reader.take at done
  split at done
  case h_1 pair here =>
    cases done
    obtain ⟨same, exact⟩ := Reader.append_of_splitExact here
    rw [same, List.length_append]
    omega
  case h_2 => cases done

theorem many {fine : α → Prop} {size : Int} (each : Gives reader fun count value => count = size ∧ fine value)
    (length : Nat) : Gives (Reader.many length reader) fun count values =>
      count = size * length ∧ values.length = length ∧ ∀ value ∈ values, fine value := by
  induction length with
  | zero => exact .pure ⟨by simp, rfl, by simp⟩
  | succ length ih =>
    refine each.bind fun count value now => ih.bind fun more values later => .pure ?_
    obtain ⟨rfl, now⟩ := now
    obtain ⟨rfl, rfl, later⟩ := later
    refine ⟨?_, rfl, ?_⟩
    · rw [Int.natCast_add, Int.mul_add]
      omega
    · intro other member
      rcases List.mem_cons.1 member with rfl | member
      · exact now
      · exact later other member

theorem table {fine : α → Prop} (each : Gives reader fun _ value => fine value) :
    Gives (Reader.table reader) fun _ values => ∀ value ∈ values, fine value := by
  have several : ∀ length, Gives (Reader.many length reader) fun _ values =>
      ∀ value ∈ values, fine value := by
    intro length
    induction length with
    | zero => exact .pure (by simp)
    | succ length ih =>
      refine each.bind fun _ value now => ih.bind fun _ values later => .pure ?_
      intro other member
      rcases List.mem_cons.1 member with rfl | member
      · exact now
      · exact later other member
  exact any.bind fun _ count _ => several _

end Gives

end ClassRenaming
