import ClassRenaming.Frames.Flow

/-!
Instructions that no path reaches. A verifier still reads them, so each unreachable range becomes
`nop … athrow` with a frame of its own in front, and no handler covers it any more.
-/

namespace ClassRenaming

structure Span where
  placed : Placed
  stop : Nat
  state : Option FrameState
  deriving Inhabited

namespace Span

def ofCode (code : Code) (states : Array (Option FrameState)) : List Span :=
  (code.spans.zip states.toList).map fun ((placed, stop), state) => ⟨placed, stop, state⟩

def isDead (span : Span) : Bool := span.state.isNone

/-- The maximal unreachable ranges, each with its start and the offset just past it; `pending` is
one that may go on. -/
def deadRanges : Option (Nat × Nat) → List Span → List (Nat × Nat)
  | pending, [] => pending.toList
  | pending, span :: rest =>
    if span.isDead then
      deadRanges (some ((pending.map (·.1)).getD span.placed.offset, span.stop)) rest
    else pending.toList ++ deadRanges none rest

def simpleAt (opcode : UInt8) (offset : Nat) : Placed := ⟨offset, .simple opcode⟩

/-- Every byte of an unreachable range becomes a `nop`, but for the last one. -/
def replaceDead : List Span → List Placed
  | [] => []
  | span :: rest =>
    if span.isDead then
      let last := if (rest.head?.map isDead).getD false then Opcode.nop else Opcode.athrow
      let start := span.placed.offset
      (List.range' start (span.stop - 1 - start)).map (simpleAt Opcode.nop) ++
        simpleAt last (span.stop - 1) :: replaceDead rest
    else span.placed :: replaceDead rest

end Span

namespace Handler

def without (range : Nat × Nat) (handler : Handler) : List Handler :=
  [{ handler with stop := min handler.stop range.1 },
    { handler with start := max handler.start range.2 }].filter fun piece =>
    piece.start < piece.stop

def carve (dead : List (Nat × Nat)) (handler : Handler) : List Handler :=
  dead.foldl (fun pieces range => pieces.flatMap (without range)) [handler]

def firstPieces (dead : List (Nat × Nat)) : Nat → List Handler → List (Option Nat)
  | _, [] => []
  | next, handler :: rest =>
    let count := (handler.carve dead).length
    (if count = 0 then none else some next) :: firstPieces dead (next + count) rest

end Handler

/-- A type annotation on a caught type follows its entry of the exception table, and goes away with
it. -/
def TypeAnnotation.moveCatch? (moved : List (Option Nat)) (item : TypeAnnotation) :
    Option TypeAnnotation :=
  match item.target with
  | .catch index =>
    match moved[index.toNat]?.join with
    | some next => if next < 65536 then some { item with target := .catch next.toUInt16 } else none
    | none => none
  | _ => some item

def CodeAttribute.moveCatch (moved : List (Option Nat)) : CodeAttribute → CodeAttribute
  | .typeAnnotations visibility annotations =>
    .typeAnnotations visibility (annotations.filterMap fun item => item.moveCatch? moved)
  | other => other

def Code.carveHandlers (dead : List (Nat × Nat)) (code : Code) : Code :=
  let moved := Handler.firstPieces dead 0 code.handlers
  let handlers := code.handlers.flatMap (Handler.carve dead)
  if moved = (List.range moved.length).map some then { code with handlers }
  else { code with handlers, attributes := code.attributes.map (CodeAttribute.moveCatch moved) }

end ClassRenaming
