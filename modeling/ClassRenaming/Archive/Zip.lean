import ClassRenaming.Archive.Inflate
import ClassRenaming.Archive.Entry
import Std.Data.HashSet

/-!
Plain zip archives, one of the formats that a run can be given (`ArchiveFormat`). They are without the
extension for numbers that do not fit the words of the format, so members that do not fit are refused.
Every entry has a header in front of its data and a record in the directory behind all data, and the
directory is found from the end. Words are little-endian. Entries are written uncompressed. Header,
record and directory lie where the words that point to them say, so what fits its words is read back.
-/

namespace ClassRenaming.Zip

/-! The checksum of an entry. -/

def crcBits : Nat → UInt32 → UInt32
  | 0, crc => crc
  | count + 1, crc =>
    crcBits count (if crc &&& 1 = 1 then (crc >>> 1) ^^^ 0xEDB88320 else crc >>> 1)

def crc (bytes : Bytes) : UInt32 :=
  bytes.foldl (fun crc byte => crcBits 8 (crc ^^^ byte.toUInt32)) 0xFFFFFFFF ^^^ 0xFFFFFFFF

def word2 (value : Nat) : Bytes := [value.toUInt8, (value / 256).toUInt8]

def word4 (value : Nat) : Bytes := word2 value ++ word2 (value / 65536)

structure Packed where
  name : Bytes
  bytes : Bytes

def Packed.ofEntry (entry : ArchiveEntry) : Packed := ⟨entry.name.toUTF8.toList, entry.bytes⟩

def headerMark : Nat := 0x04034B50
def recordMark : Nat := 0x02014B50
def endMark : Nat := 0x06054B50

/-- What header and record have in common: the version of the format, names in UTF-8, no
compression, the first day that can be written, checksum and sizes. -/
def description (packed : Packed) : Bytes :=
  word2 20 ++ word2 0x0800 ++ word2 0 ++ word2 0 ++ word2 0x21 ++ word4 (crc packed.bytes).toNat ++
    word4 packed.bytes.length ++ word4 packed.bytes.length ++ word2 packed.name.length ++ word2 0

def header (packed : Packed) : Bytes :=
  word4 headerMark ++ description packed ++ packed.name ++ packed.bytes

def record (offset : Nat) (packed : Packed) : Bytes :=
  word4 recordMark ++ word2 20 ++ description packed ++ word2 0 ++ word2 0 ++ word2 0 ++ word4 0 ++
    word4 offset ++ packed.name

def records : Nat → List Packed → List Bytes
  | _, [] => []
  | offset, packed :: rest =>
    record offset packed :: records (offset + (header packed).length) rest

def encode (entries : List ArchiveEntry) : Bytes :=
  let packed := entries.map Packed.ofEntry
  let data := (packed.map header).flatten
  let directory := (records 0 packed).flatten
  data ++ directory ++ word4 endMark ++ word2 0 ++ word2 0 ++ word2 entries.length ++
    word2 entries.length ++ word4 directory.length ++ word4 data.length ++ word2 0

def number2 (data : Array UInt8) (offset : Nat) : Option Nat := do
  return (← data[offset]?).toNat + 256 * (← data[offset + 1]?).toNat

def number4 (data : Array UInt8) (offset : Nat) : Option Nat := do
  return (← number2 data offset) + 65536 * (← number2 data (offset + 2))

def slice (data : Array UInt8) (offset length : Nat) : Option (Array UInt8) :=
  if offset + length ≤ data.size then some (data.extract offset (offset + length)) else none

def nameOf (bytes : Array UInt8) : String :=
  match String.fromUTF8? ⟨bytes⟩ with
  | some name => name
  | none => String.ofList (bytes.toList.map fun byte => Char.ofNat byte.toNat)

def readRecord (data : Array UInt8) (offset : Nat) : Option (ArchiveEntry × Nat) := do
  if (← number4 data offset) ≠ recordMark then none
  let method ← number2 data (offset + 10)
  let checksum ← number4 data (offset + 16)
  let size ← number4 data (offset + 20)
  let nameLength ← number2 data (offset + 28)
  let extraLength ← number2 data (offset + 30)
  let commentLength ← number2 data (offset + 32)
  let start ← number4 data (offset + 42)
  let name ← slice data (offset + 46) nameLength
  if (← number4 data start) ≠ headerMark then none
  let dataStart := start + 30 + (← number2 data (start + 26)) + (← number2 data (start + 28))
  let stored ← slice data dataStart size
  let bytes ←
    match method with
    | 0 => some stored
    | 8 => Inflate.inflate stored
    | _ => none
  let bytes := bytes.toList
  if (crc bytes).toNat ≠ checksum then none
  return (⟨nameOf name, bytes⟩, offset + 46 + nameLength + extraLength + commentLength)

def readRecords (data : Array UInt8) : Nat → Nat → Option (List ArchiveEntry)
  | 0, _ => some []
  | count + 1, offset => do
    let (entry, offset) ← readRecord data offset
    return entry :: (← readRecords data count offset)

def findEnd (data : Array UInt8) : Nat → Option Nat
  | 0 => if number4 data 0 = some endMark then some 0 else none
  | offset + 1 =>
    if number4 data (offset + 1) = some endMark then some (offset + 1) else findEnd data offset

def insertEntry (entries : List ArchiveEntry) (entry : ArchiveEntry) : List ArchiveEntry :=
  if entries.any (·.name == entry.name) then
    entries.map fun other => if other.name = entry.name then entry else other
  else entries ++ [entry]

def hasRepeatedName (entries : List ArchiveEntry) : Bool :=
  (Std.HashSet.ofList (entries.map (·.name))).size < entries.length

/-- Of entries with one name the last is left, in the place of the first. -/
def lastOfNames (entries : List ArchiveEntry) : List ArchiveEntry :=
  if hasRepeatedName entries then entries.foldl insertEntry [] else entries

/-- The entries of an archive, in the order of its directory. -/
def decode? (bytes : Bytes) : Option (List ArchiveEntry) := do
  let data := bytes.toArray
  let stop ← findEnd data (data.size - 22)
  let count ← number2 data (stop + 10)
  let directory ← number4 data (stop + 16)
  return lastOfNames (← readRecords data count directory)

variable {data : Array UInt8} {offset : Nat}

@[simp]
theorem length_word2 (value : Nat) : (word2 value).length = 2 := rfl

@[simp]
theorem length_word4 (value : Nat) : (word4 value).length = 4 := rfl

theorem length_description (packed : Packed) : (description packed).length = 26 := rfl

theorem length_header (packed : Packed) :
    (header packed).length = 30 + packed.name.length + packed.bytes.length := by
  simp only [header, List.length_append, length_word4, length_description]

theorem length_record (start : Nat) (packed : Packed) :
    (record start packed).length = 46 + packed.name.length := by
  simp only [record, List.length_append, length_word2, length_word4, length_description]

structure Lie (data : Array UInt8) (offset : Nat) (bytes : Bytes) : Prop where
  inside : offset + bytes.length ≤ data.size
  found : bytes <+: data.toList.drop offset

theorem lie_append {first second : Bytes} :
    Lie data offset (first ++ second) ↔
      Lie data offset first ∧ Lie data (offset + first.length) second := by
  constructor
  · rintro ⟨inside, behind, whole⟩
    rw [List.length_append] at inside
    refine ⟨⟨by omega, ?_⟩, by omega, ?_⟩
    · exact ⟨second ++ behind, by rw [← whole, List.append_assoc]⟩
    · rw [← List.drop_drop, ← whole, List.append_assoc, List.drop_left]
      exact List.prefix_append _ _
  · rintro ⟨⟨_, behind, front⟩, inside, back⟩
    rw [← List.drop_drop, ← front, List.drop_left] at back
    refine ⟨by rw [List.length_append]; omega, ?_⟩
    rw [← front]
    exact (List.prefix_append_right_inj first).2 back

theorem lie_cons {byte : UInt8} {rest : Bytes} (lies : Lie data offset (byte :: rest)) :
    data[offset]? = some byte ∧ Lie data (offset + 1) rest := by
  rw [← List.singleton_append, lie_append] at lies
  refine ⟨?_, lies.2⟩
  obtain ⟨behind, front⟩ := lies.1.found
  rw [← Array.getElem?_toList, ← List.head?_drop, ← front]
  rfl

theorem number2_of_lie {value : Nat} (lies : Lie data offset (word2 value)) :
    number2 data offset = some (value % 65536) := by
  obtain ⟨low, lies⟩ := lie_cons lies
  obtain ⟨high, -⟩ := lie_cons lies
  simp only [number2, low, high, Option.bind_eq_bind, Option.bind_some, pure, Option.some.injEq,
    UInt8.toNat_ofNat', Nat.toUInt8_eq]
  omega

theorem number4_of_lie {value : Nat} (lies : Lie data offset (word4 value))
    (small : value < 4294967296) : number4 data offset = some value := by
  rw [word4, lie_append, length_word2] at lies
  obtain ⟨low, high⟩ := lies
  simp only [number4, number2_of_lie low, number2_of_lie high, Option.bind_eq_bind,
    Option.bind_some, pure, Option.some.injEq]
  omega

theorem slice_of_lie {bytes : Bytes} (lies : Lie data offset bytes) :
    slice data offset bytes.length = some bytes.toArray := by
  obtain ⟨behind, whole⟩ := lies.found
  rw [slice, if_pos lies.inside]
  congr 1
  apply Array.toList_inj.1
  rw [Array.toList_extract]
  simp [List.extract, ← whole]

theorem toList_byteArray (bytes : ByteArray) : bytes.toList = bytes.data.toList := by
  have loop (left place : Nat) (done : Bytes) (rest : bytes.size - place = left) :
      ByteArray.toList.loop bytes place done = done.reverse ++ bytes.data.toList.drop place := by
    induction left generalizing place done with
    | zero =>
      have behind : bytes.data.toList.length ≤ place := by
        rw [Array.length_toList, ByteArray.size_data]
        omega
      rw [ByteArray.toList.loop, if_neg (by omega), List.drop_of_length_le behind, List.append_nil]
    | succ left ih =>
      have here : place < bytes.data.toList.length := by
        rw [Array.length_toList, ByteArray.size_data]
        omega
      have byte : bytes.get! place = bytes.data.toList[place] := by
        rw [ByteArray.get!, getElem!_pos _ _ (by simpa using here), Array.getElem_toList]
      rw [ByteArray.toList.loop, if_pos (by omega), ih (place + 1) _ (by omega), byte,
        List.drop_eq_getElem_cons here]
      simp
  exact loop bytes.size 0 [] rfl

theorem nameOf_ofEntry (entry : ArchiveEntry) :
    nameOf (Packed.ofEntry entry).name.toArray = entry.name := by
  have text : String.fromUTF8? entry.name.toByteArray = some entry.name := by
    rw [String.fromUTF8?, dif_pos entry.name.isValidUTF8]
    rfl
  rw [nameOf, Packed.ofEntry, toList_byteArray, Array.toArray_toList, String.toUTF8_eq_toByteArray,
    text]

theorem length_name (entry : ArchiveEntry) :
    (Packed.ofEntry entry).name.length = entry.name.utf8ByteSize := by
  rw [Packed.ofEntry, toList_byteArray, Array.length_toList]
  rfl

theorem readRecord_of_lie {entry : ArchiveEntry} {start : Nat}
    (recorded : Lie data offset (record start (.ofEntry entry)))
    (headed : Lie data start (header (.ofEntry entry)))
    (named : entry.name.utf8ByteSize < 65536)
    (small : start + (header (.ofEntry entry)).length < 4294967296) :
    readRecord data offset = some (entry, offset + (record start (.ofEntry entry)).length) := by
  rw [length_header, length_name] at small
  rw [length_record, length_name]
  simp only [record, header, description, List.append_assoc, lie_append, length_word2, length_word4,
    length_name, Nat.add_assoc, Nat.reduceAdd] at recorded headed
  -- Each field lies at its own offset; those that are not read go.
  obtain ⟨mark, -, -, -, method, -, -, checksum, size, -, nameLength, extraLength, commentLength, -, -,
    -, pointer, name⟩ := recorded
  obtain ⟨headMark, -, -, -, -, -, -, -, -, headName, headExtra, -, bytes⟩ := headed
  have stored := slice_of_lie bytes
  have spelled := slice_of_lie name
  rw [length_name] at spelled
  unfold readRecord
  simp only [number4_of_lie mark (by decide), number2_of_lie method,
    number4_of_lie checksum (UInt32.toNat_lt _), number4_of_lie size (by omega),
    number2_of_lie nameLength, number2_of_lie extraLength, number2_of_lie commentLength,
    number4_of_lie pointer (by omega), spelled, number4_of_lie headMark (by decide),
    number2_of_lie headName, number2_of_lie headExtra, stored, Nat.mod_eq_of_lt named, Nat.zero_mod,
    Nat.add_zero, Nat.add_assoc, nameOf_ofEntry, Option.bind_eq_bind, Option.bind_some, ne_eq,
    not_true, if_false]
  rfl

theorem readRecords_of_lie {entries : List ArchiveEntry} {start : Nat}
    (recorded : Lie data offset (records start (entries.map .ofEntry)).flatten)
    (headed : Lie data start ((entries.map Packed.ofEntry).map header).flatten)
    (named : ∀ entry ∈ entries, entry.name.utf8ByteSize < 65536)
    (small : start + ((entries.map Packed.ofEntry).map header).flatten.length < 4294967296) :
    readRecords data entries.length offset = some entries := by
  induction entries generalizing offset start with
  | nil => rfl
  | cons entry rest ih =>
    simp only [List.map_cons, records, List.flatten_cons, lie_append, List.length_append]
      at recorded headed small
    have first := readRecord_of_lie recorded.1 headed.1 (named entry (by simp)) (by omega)
    have others := ih recorded.2 headed.2 (fun other member => named other (by simp [member]))
      (by omega)
    simp only [List.length_cons, readRecords, first, others, Option.bind_eq_bind, Option.bind_some]
    rfl

theorem findEnd_of_mark (marked : number4 data offset = some endMark) :
    findEnd data offset = some offset := by
  cases offset <;> rw [findEnd, if_pos marked]

def encodedSize : List ArchiveEntry → Nat
  | [] => 22
  | entry :: rest => 76 + 2 * entry.name.utf8ByteSize + entry.bytes.length + encodedSize rest

/-- Entries whose names can be told apart and whose sizes fit the words that they are written in. -/
structure Fits (entries : List ArchiveEntry) : Prop where
  distinct : (entries.map ArchiveEntry.name).Nodup
  count : entries.length < 65536
  names : ∀ entry ∈ entries, entry.name.utf8ByteSize < 65536
  size : encodedSize entries < 4294967296

instance (entries : List ArchiveEntry) : Decidable (Fits entries) :=
  decidable_of_iff ((entries.map ArchiveEntry.name).Nodup ∧ entries.length < 65536 ∧
      (∀ entry ∈ entries, entry.name.utf8ByteSize < 65536) ∧ encodedSize entries < 4294967296)
    ⟨fun ⟨distinct, count, names, size⟩ => ⟨distinct, count, names, size⟩,
      fun fits => ⟨fits.distinct, fits.count, fits.names, fits.size⟩⟩

theorem length_encode (entries : List ArchiveEntry) :
    (encode entries).length = ((entries.map Packed.ofEntry).map header).flatten.length +
      (records 0 (entries.map .ofEntry)).flatten.length + 22 := by
  simp only [encode, List.length_append, length_word2, length_word4]

theorem length_parts (start : Nat) (entries : List ArchiveEntry) :
    ((entries.map Packed.ofEntry).map header).flatten.length +
      (records start (entries.map .ofEntry)).flatten.length + 22 = encodedSize entries := by
  induction entries generalizing start with
  | nil => rfl
  | cons entry rest ih =>
    have more := ih (start + (header (.ofEntry entry)).length)
    simp only [encodedSize, List.map_cons, List.flatten_cons, List.length_append,
      records, length_header, length_record, length_name] at more ⊢
    have data : (Packed.ofEntry entry).bytes = entry.bytes := rfl
    rw [data] at more ⊢
    omega

/-! Names that are there once. -/

theorem foldl_insertEntry {found entries : List ArchiveEntry}
    (distinct : ((found ++ entries).map ArchiveEntry.name).Nodup) :
    entries.foldl insertEntry found = found ++ entries := by
  induction entries generalizing found with
  | nil => rw [List.foldl_nil, List.append_nil]
  | cons entry rest ih =>
    have fresh : found.any (·.name == entry.name) = false := by
      rw [List.any_eq_false]
      intro other member same
      rw [List.map_append, List.nodup_append] at distinct
      exact distinct.2.2 other.name (List.mem_map_of_mem member) entry.name (by simp)
        (beq_iff_eq.1 same)
    rw [List.foldl_cons, insertEntry, fresh, if_neg (by simp), ih (by simpa using distinct),
      List.append_assoc, List.singleton_append]

theorem lastOfNames_of_nodup {entries : List ArchiveEntry}
    (distinct : (entries.map ArchiveEntry.name).Nodup) : lastOfNames entries = entries := by
  rw [lastOfNames]
  split
  · exact foldl_insertEntry distinct
  · rfl

theorem decode?_encode {entries : List ArchiveEntry} (fits : Fits entries) :
    decode? (encode entries) = some entries := by
  have size := fits.size
  rw [← length_parts 0, ← length_encode] at size
  obtain ⟨data, here⟩ : ∃ data, (encode entries).toArray = data := ⟨_, rfl⟩
  have whole : Lie data 0 (encode entries) := by
    rw [← here]
    exact ⟨by simp, by simp⟩
  have long : data.size = (encode entries).length := by
    rw [← here, List.size_toArray]
  rw [length_encode] at size long
  simp only [encode, List.append_assoc, lie_append, length_word2, length_word4, Nat.zero_add]
    at whole
  obtain ⟨headed, recorded, mark, -, -, -, count, -, pointer, -⟩ := whole
  have stop : data.size - 22 = ((entries.map Packed.ofEntry).map header).flatten.length +
      (records 0 (entries.map .ofEntry)).flatten.length := by
    omega
  have found := findEnd_of_mark (number4_of_lie mark (by decide))
  have read := readRecords_of_lie recorded headed fits.names (by omega)
  simp only [decode?, here, stop, found, number2_of_lie count, number4_of_lie pointer (by omega),
    Nat.mod_eq_of_lt fits.count, read, lastOfNames_of_nodup fits.distinct, Option.bind_eq_bind,
    Option.bind_some, pure]

/-- Members are written if they fit, and else none is. -/
def format : ArchiveFormat where
  read? := decode?
  write members :=
    if Fits members then { bytes := encode members, refusal? := none }
    else { bytes := [], refusal? := some "members that do not fit an archive" }
  read?_write members taken := by
    split at taken
    · next fits => rw [if_pos fits, decode?_encode fits]
    · cases taken

end ClassRenaming.Zip
