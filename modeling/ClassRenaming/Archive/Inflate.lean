/-!
Compressed data in the deflate format. Bits are taken from the low end of each byte; a code word is
compared bit by bit with the first word of its length, so a table of codes is the number of words of
each length and the symbols in the order of their words.
-/

namespace ClassRenaming.Inflate

abbrev Data := Array UInt8

abbrev BitReader := StateT Nat Option

def takeBit (data : Data) : BitReader Nat := fun position =>
  match data[position / 8]? with
  | some byte => some ((byte.toNat >>> (position % 8)) % 2, position + 1)
  | none => none

def takeNumber (data : Data) : Nat → BitReader Nat
  | 0 => return 0
  | count + 1 => do
    let low ← takeBit data
    return 2 * (← takeNumber data count) + low

def longestWord : Nat := 15

structure Codes where
  /-- The number of words of one bit, of two bits, and so on. -/
  counts : List Nat
  /-- The symbols, those with shorter words first. -/
  symbols : Array Nat

namespace Codes

/-- The codes in which every symbol has a word of the given length; of length zero are symbols that
do not occur. -/
def ofLengths (lengths : List Nat) : Codes :=
  let sizes := List.range' 1 longestWord
  { counts := sizes.map lengths.count
    symbols := (sizes.flatMap fun size =>
      lengths.zipIdx.filterMap fun (length, symbol) =>
        if length = size then some symbol else none).toArray }

/-- Takes bits until they are a word; `first` is the first word of the length, `index` its place
among all symbols. -/
def takeSymbolFrom (data : Data) (symbols : Array Nat) :
    List Nat → Nat → Nat → Nat → BitReader Nat
  | [], _, _, _ => failure
  | count :: longer, word, first, index => do
    let word := 2 * word + (← takeBit data)
    if word < first + count then symbols[index + (word - first)]?
    else takeSymbolFrom data symbols longer word (2 * (first + count)) (index + count)

def takeSymbol (codes : Codes) (data : Data) : BitReader Nat :=
  takeSymbolFrom data codes.symbols codes.counts 0 0 0

end Codes

def copyBack (distance : Nat) : Nat → Data → Option Data
  | 0, output => some output
  | count + 1, output =>
    if distance ≤ output.size then do
      copyBack distance count (output.push (← output[output.size - distance]?))
    else none

def lengthTable : Array (Nat × Nat) :=
  #[(3, 0), (4, 0), (5, 0), (6, 0), (7, 0), (8, 0), (9, 0), (10, 0), (11, 1), (13, 1), (15, 1),
    (17, 1), (19, 2), (23, 2), (27, 2), (31, 2), (35, 3), (43, 3), (51, 3), (59, 3), (67, 4),
    (83, 4), (99, 4), (115, 4), (131, 5), (163, 5), (195, 5), (227, 5), (258, 0)]

def distanceTable : Array (Nat × Nat) :=
  #[(1, 0), (2, 0), (3, 0), (4, 0), (5, 1), (7, 1), (9, 2), (13, 2), (17, 3), (25, 3), (33, 4),
    (49, 4), (65, 5), (97, 5), (129, 6), (193, 6), (257, 7), (385, 7), (513, 8), (769, 8),
    (1025, 9), (1537, 9), (2049, 10), (3073, 10), (4097, 11), (6145, 11), (8193, 12),
    (12289, 12), (16385, 13), (24577, 13)]

def takeFrom (data : Data) (table : Array (Nat × Nat)) (symbol : Nat) : BitReader Nat := do
  let entry : Nat × Nat ← table[symbol]?
  return entry.1 + (← takeNumber data entry.2)

/-- The symbols of a block up to its end mark; each takes a bit at least. -/
def takeSymbols (data : Data) (literals distances : Codes) : Nat → Data → BitReader Data
  | 0, _ => failure
  | steps + 1, output => do
    let symbol ← literals.takeSymbol data
    if symbol < 256 then
      takeSymbols data literals distances steps (output.push symbol.toUInt8)
    else if symbol = 256 then return output
    else
      let length ← takeFrom data lengthTable (symbol - 257)
      let distance ← takeFrom data distanceTable (← distances.takeSymbol data)
      takeSymbols data literals distances steps (← copyBack distance length output)

def lengthOrder : List Nat := [16, 17, 18, 0, 8, 7, 9, 6, 10, 5, 11, 4, 12, 3, 13, 2, 14, 1, 15]

def takeLengths (data : Data) (codes : Codes) (count : Nat) :
    Nat → List Nat → BitReader (List Nat)
  | 0, _ => failure
  | steps + 1, lengths =>
    if lengths.length = count then return lengths
    else if count < lengths.length then failure
    else do
      let symbol ← codes.takeSymbol data
      let run (value bits least : Nat) : BitReader (List Nat) := do
        let more ← takeNumber data bits
        takeLengths data codes count steps (List.replicate (least + more) value ++ lengths)
      if symbol < 16 then takeLengths data codes count steps (symbol :: lengths)
      else if symbol = 16 then run (← lengths.head?) 2 3
      else if symbol = 17 then run 0 3 3
      else run 0 7 11

def takeNumbers (data : Data) (bits : Nat) : Nat → BitReader (List Nat)
  | 0 => return []
  | count + 1 => do
    let first ← takeNumber data bits
    return first :: (← takeNumbers data bits count)

def takeCodes (data : Data) : BitReader (Codes × Codes) := do
  let literals ← takeNumber data 5
  let distances ← takeNumber data 5
  let given ← takeNumber data 4
  let sizes ← takeNumbers data 3 (given + 4)
  let lengths := (List.range 19).map fun symbol => ((lengthOrder.zip sizes).lookup symbol).getD 0
  let total := literals + 257 + (distances + 1)
  let lengths ← takeLengths data (.ofLengths lengths) total (total + 1) []
  let (first, second) := lengths.reverse.splitAt (literals + 257)
  return (.ofLengths first, .ofLengths second)

def fixedLiterals : Codes := .ofLengths <| List.replicate 144 8 ++ List.replicate 112 9 ++
  List.replicate 24 7 ++ List.replicate 8 8

def fixedDistances : Codes := .ofLengths (List.replicate 30 5)

/-- A block that is not compressed starts at a whole byte with its length, given twice. -/
def takeStored (data : Data) (output : Data) : BitReader Data := do
  modify fun position => (position + 7) / 8 * 8
  let length ← takeNumber data 16
  let complement ← takeNumber data 16
  let start := (← get) / 8
  if length + complement = 65535 ∧ start + length ≤ data.size then
    set (8 * (start + length))
    return output ++ data.extract start (start + length)
  else failure

def takeBlocks (data : Data) : Nat → Data → BitReader Data
  | 0, _ => failure
  | steps + 1, output => do
    let last ← takeBit data
    let symbols := 8 * data.size + 1
    let output ←
      match ← takeNumber data 2 with
      | 0 => takeStored data output
      | 1 => takeSymbols data fixedLiterals fixedDistances symbols output
      | 2 => do
        let (literals, distances) ← takeCodes data
        takeSymbols data literals distances symbols output
      | _ => failure
    if last = 1 then return output else takeBlocks data steps output

def inflate (data : Data) : Option Data :=
  ((takeBlocks data (8 * data.size + 1) #[]).run 0).map (·.1)

end ClassRenaming.Inflate
