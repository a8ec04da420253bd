import ClassRenaming.ConstantPool.Interning
import ClassRenaming.Proofs.Reads
import ClassRenaming.Proofs.StoredText

/-!
A constant pool is read back from its bytes when the unused slots are the ones behind longs and
doubles, each text as what its bytes decode to. For the texts that were read that is the text; for
those that were added since, it is what encoding makes of them. A pool that was read is of this kind,
and so is every pool that it grows to.
-/

namespace ClassRenaming

namespace PoolEntry

def Plain : PoolEntry → Prop
  | unusable | utf8 .. => False
  | _ => True

/-- An entry of its own; a text is what its bytes decode to, or its bytes are what it encodes to. -/
def Stored : PoolEntry → Prop
  | unusable => False
  | utf8 text stored exact =>
    stored.length < 65536 ∧ (ModifiedUtf8.decode stored = .ok ⟨text, exact⟩ ∨
      stored = ModifiedUtf8.encode text ∧ exact = true)
  | _ => True

theorem Plain.stored {entry : PoolEntry} (plain : entry.Plain) : entry.Stored := by
  cases entry with
  | unusable => exact plain
  | utf8 text bytes exact => exact plain.elim
  | _ => trivial

def reread : PoolEntry → PoolEntry
  | utf8 text stored exact =>
    match ModifiedUtf8.decode stored with
    | .ok decoded => utf8 decoded.text stored decoded.exact
    | .error _ => utf8 text stored exact
  | other => other

theorem isWide_reread (entry : PoolEntry) : entry.reread.isWide = entry.isWide := by
  cases entry with
  | utf8 text bytes exact =>
    rw [reread]
    split <;> rfl
  | _ => rfl

theorem decode_of_stored {text : String} {bytes : Bytes} {exact : Bool}
    (stored : (utf8 text bytes exact).Stored) : ∃ decoded, ModifiedUtf8.decode bytes = .ok decoded ∧
      (decoded.text = text ∨ decoded.text = ModifiedUtf8.recoded text) := by
  obtain ⟨-, decoded | ⟨rfl, -⟩⟩ := stored
  · exact ⟨_, decoded, .inl rfl⟩
  · exact ⟨_, ModifiedUtf8.decode_encode text, .inr rfl⟩

theorem reads_encode {entry : PoolEntry} (stored : entry.Stored) :
    Reads read entry.encode entry.reread := by
  cases entry with
  | unusable => exact stored.elim
  | utf8 text bytes exact =>
    obtain ⟨decoded, done, -⟩ := decode_of_stored stored
    have same : (utf8 text bytes exact).reread = utf8 decoded.text bytes decoded.exact := by
      rw [reread, done]
    rw [same]
    refine .tagged ((Reads.u2 _).bind ?_)
    refine (Reads.take (Bytes.toNat_toUInt16 stored.1).symm).last ?_
    exact (Reads.lift done).skip (.pure _)
  | integer value => exact .tagged ((Reads.u4 _).last (.pure _))
  | float bits => exact .tagged ((Reads.u4 _).last (.pure _))
  | long value => exact .tagged ((Reads.u8 _).last (.pure _))
  | double bits => exact .tagged ((Reads.u8 _).last (.pure _))
  | classRef name => exact .tagged ((Reads.u2 _).last (.pure _))
  | string text => exact .tagged ((Reads.u2 _).last (.pure _))
  | fieldRef owner nameType => exact .tagged ((Reads.u2 _).bind ((Reads.u2 _).last (.pure _)))
  | methodRef owner nameType => exact .tagged ((Reads.u2 _).bind ((Reads.u2 _).last (.pure _)))
  | interfaceMethodRef owner nameType =>
    exact .tagged ((Reads.u2 _).bind ((Reads.u2 _).last (.pure _)))
  | nameAndType name descriptor =>
    exact .tagged ((Reads.u2 _).bind ((Reads.u2 _).last (.pure _)))
  | methodHandle kind reference =>
    exact .tagged ((Reads.u1 _).bind ((Reads.u2 _).last (.pure _)))
  | methodType descriptor => exact .tagged ((Reads.u2 _).last (.pure _))
  | dynamic row nameType => exact .tagged ((Reads.u2 _).bind ((Reads.u2 _).last (.pure _)))
  | invokeDynamic row nameType => exact .tagged ((Reads.u2 _).bind ((Reads.u2 _).last (.pure _)))
  | moduleRef name => exact .tagged ((Reads.u2 _).last (.pure _))
  | packageRef name => exact .tagged ((Reads.u2 _).last (.pure _))

def IsOwn : PoolEntry → Prop
  | utf8 text stored exact => ModifiedUtf8.decode stored = .ok ⟨text, exact⟩
  | _ => True

theorem IsOwn.reread_eq_self {entry : PoolEntry} (own : entry.IsOwn) :
    entry.reread = entry := by
  cases entry with
  | utf8 text stored exact =>
    have decoded : ModifiedUtf8.decode stored = .ok ⟨text, exact⟩ := own
    rw [reread, decoded]
  | _ => rfl

theorem stored_read {bytes rest : Bytes} {entry : PoolEntry}
    (done : read bytes = .ok (entry, rest)) : entry.Stored ∧ entry.IsOwn := by
  obtain ⟨tag, middle, -, done⟩ := Reader.bind_eq_ok.1 done
  split at done
  case h_1 =>
    obtain ⟨count, middle, -, done⟩ := Reader.bind_eq_ok.1 done
    obtain ⟨stored, middle, taken, done⟩ := Reader.bind_eq_ok.1 done
    obtain ⟨decoded, middle, there, done⟩ := Reader.bind_eq_ok.1 done
    obtain ⟨rfl, -⟩ := Reader.pure_eq_ok.1 done
    have length := Reader.length_take taken
    have bound := count.toNat_lt
    have own := (Reader.lift_eq_ok.1 there).1
    exact ⟨⟨by omega, .inl own⟩, own⟩
  case h_18 => cases done
  all_goals
    obtain ⟨first, middle, -, done⟩ := Reader.bind_eq_ok.1 done
    first
    | obtain ⟨rfl, -⟩ := Reader.pure_eq_ok.1 done
      exact ⟨trivial, trivial⟩
    | obtain ⟨second, middle, -, done⟩ := Reader.bind_eq_ok.1 done
      obtain ⟨rfl, -⟩ := Reader.pure_eq_ok.1 done
      exact ⟨trivial, trivial⟩

/-- Entries in their slots: the slot behind a long or double is unusable, and no other is. -/
inductive Slots : List PoolEntry → Prop
  | nil : Slots []
  | narrow {entry : PoolEntry} {rest : List PoolEntry} (stored : entry.Stored)
      (isNarrow : entry.isWide = false) (slots : Slots rest) : Slots (entry :: rest)
  | wide {entry : PoolEntry} {rest : List PoolEntry} (stored : entry.Stored)
      (isWide : entry.isWide = true) (slots : Slots rest) : Slots (entry :: unusable :: rest)

theorem Slots.append {front back : List PoolEntry} (first : Slots front) (second : Slots back) :
    Slots (front ++ back) := by
  induction first with
  | nil => exact second
  | narrow stored isNarrow _ ih => exact .narrow stored isNarrow ih
  | wide stored isWide _ ih => exact .wide stored isWide ih

theorem reads_readMany {entries : List PoolEntry} (slots : Slots entries) :
    Reads (readMany entries.length) (entries.flatMap encode) (entries.map reread) := by
  induction slots with
  | nil => exact .pure _
  | @narrow entry rest stored isNarrow _ ih =>
    rw [List.length_cons, readMany, List.flatMap_cons]
    refine (reads_encode stored).bind ?_
    rw [isWide_reread, isNarrow]
    exact ih.last (.pure _)
  | @wide entry rest stored isWide _ ih =>
    rw [List.length_cons, List.length_cons, readMany, List.flatMap_cons, List.flatMap_cons]
    refine (reads_encode stored).bind ?_
    rw [isWide_reread, isWide]
    exact ih.last (.pure _)

theorem slots_readMany {count : Nat} {bytes rest : Bytes} {entries : List PoolEntry}
    (done : readMany count bytes = .ok (entries, rest)) :
    Slots entries ∧ entries.length = count ∧ ∀ entry ∈ entries, entry.IsOwn := by
  induction count using Nat.strong_induction_on generalizing bytes rest entries with
  | _ count ih =>
    cases count with
    | zero =>
      obtain ⟨rfl, -⟩ := Reader.pure_eq_ok.1 done
      exact ⟨.nil, rfl, by simp⟩
    | succ count =>
      rw [readMany] at done
      obtain ⟨entry, middle, here, done⟩ := Reader.bind_eq_ok.1 done
      obtain ⟨stored, own⟩ := stored_read here
      split at done
      case isTrue isWide =>
        cases count with
        | zero => cases done
        | succ count =>
          obtain ⟨others, last, there, done⟩ := Reader.bind_eq_ok.1 done
          obtain ⟨rfl, -⟩ := Reader.pure_eq_ok.1 done
          obtain ⟨slots, length, owns⟩ := ih count (by omega) there
          have unused : unusable.IsOwn := trivial
          exact ⟨.wide stored isWide slots, by simp [length], by simpa [own, unused] using owns⟩
      case isFalse isNarrow =>
        obtain ⟨others, last, there, done⟩ := Reader.bind_eq_ok.1 done
        obtain ⟨rfl, -⟩ := Reader.pure_eq_ok.1 done
        obtain ⟨slots, length, owns⟩ := ih count (by omega) there
        exact ⟨.narrow stored (by simpa using isNarrow) slots, by simp [length],
          by simpa [own] using owns⟩

end PoolEntry

namespace ConstantPool

def reread (pool : ConstantPool) : ConstantPool :=
  { pool with entries := pool.entries.map PoolEntry.reread }

/-- What each text of the pool is read as: the text, or what encoding makes of it. -/
structure ReadsAs (pool : ConstantPool) (back : String → String) : Prop where
  text : ∀ text stored exact, .utf8 text stored exact ∈ pool.entries.toList →
    ∃ again, ModifiedUtf8.decode stored = .ok ⟨back text, again⟩
  near : ∀ text, back text = text ∨ back text = ModifiedUtf8.recoded text

/-- What every pool is that was read, and stays as it grows. -/
structure Sound (pool : ConstantPool) : Prop where
  slots : ∃ entries, pool.entries.toList = .unusable :: entries ∧ PoolEntry.Slots entries
  size : pool.entries.size < 65536
  rows : pool.bootstrap.size ≤ 65536
  texts : ∃ back, pool.ReadsAs back

theorem reads_encode {pool : ConstantPool} (sound : pool.Sound) :
    Reads read pool.encode { pool.reread with bootstrap := #[] } := by
  obtain ⟨entries, same, slots⟩ := sound.slots
  have size : pool.entries.size = entries.length + 1 := by
    rw [← Array.length_toList, same, List.length_cons]
  have count : pool.entries.size.toUInt16.toNat - 1 = entries.length := by
    rw [Bytes.toNat_toUInt16 sound.size, size]
    rfl
  have whole : (PoolEntry.unusable :: entries.map PoolEntry.reread).toArray =
      pool.entries.map PoolEntry.reread := by
    rw [← Array.toList_inj, Array.toList_map, same]
    rfl
  refine (Reads.u2 _).bind ?_
  rw [count, same, List.flatMap_cons]
  refine (PoolEntry.reads_readMany slots).last ?_
  rw [whole]
  exact .pure _

theorem sound_read {bytes rest : Bytes} {pool : ConstantPool}
    (done : read bytes = .ok (pool, rest)) : pool.Sound := by
  obtain ⟨count, middle, -, done⟩ := Reader.bind_eq_ok.1 done
  obtain ⟨entries, last, there, done⟩ := Reader.bind_eq_ok.1 done
  obtain ⟨rfl, -⟩ := Reader.pure_eq_ok.1 done
  obtain ⟨slots, length, owns⟩ := PoolEntry.slots_readMany there
  have bound := count.toNat_lt
  refine ⟨⟨entries, rfl, slots⟩, ?_, Nat.zero_le _, id, ?_, fun text => .inl rfl⟩
  · simp only [List.size_toArray, List.length_cons, length]
    omega
  · intro text stored exact member
    have inside : .utf8 text stored exact ∈ entries := by simpa using member
    exact ⟨exact, owns _ inside⟩

theorem own_read {bytes rest : Bytes} {pool : ConstantPool}
    (done : read bytes = .ok (pool, rest)) :
    ∀ entry ∈ pool.entries.toList, entry.IsOwn := by
  obtain ⟨count, middle, -, done⟩ := Reader.bind_eq_ok.1 done
  obtain ⟨entries, last, there, done⟩ := Reader.bind_eq_ok.1 done
  obtain ⟨rfl, -⟩ := Reader.pure_eq_ok.1 done
  obtain ⟨-, -, owns⟩ := PoolEntry.slots_readMany there
  exact List.forall_mem_cons.2 ⟨trivial, owns⟩

theorem Sound.withBootstrap {pool : ConstantPool} (sound : pool.Sound)
    {rows : Array BootstrapEntry} (short : rows.size ≤ 65536) :
    { pool with bootstrap := rows }.Sound := by
  obtain ⟨back, text, near⟩ := sound.texts
  exact ⟨sound.slots, sound.size, short, back, text, near⟩

end ConstantPool

end ClassRenaming
