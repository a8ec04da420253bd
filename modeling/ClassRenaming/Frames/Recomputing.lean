import ClassRenaming.Frames.DeadCode

/-!
New frames and maxima for a body, from the states that an analysis found. There is a frame wherever
a jump or a handler leads and in front of every unreachable range; it lists one entry for a value,
without the `top` slots at the end of the local variables.
-/

namespace ClassRenaming

namespace FrameState

def entries : List VerificationType → List VerificationType
  | [] => []
  | [type] => [type]
  | type :: next :: rest =>
    if type.isWide then type :: entries rest else type :: entries (next :: rest)

def localEntries (state : FrameState) : List VerificationType :=
  ((entries state.locals).reverse.dropWhile (· == .top)).reverse

def stackEntries (state : FrameState) : List VerificationType := entries state.stack.reverse

def ofParameters (types : List FieldType) : List VerificationType :=
  types.flatMap fun type =>
    let type := VerificationType.ofFieldType type
    if type.isWide then [type, .top] else [type]

def receiver (owner : String) (member : Member) : VerificationType :=
  if member.name = "<init>" ∧ owner ≠ objectName then .uninitializedThis else .object owner

def onEntry (owner : String) (member : Member) : Outcome FrameState := do
  let type ← liftDescriptor (Descriptor.methodType member.descriptor)
  let first := if member.isStatic then [] else [receiver owner member]
  return { locals := first ++ ofParameters type.parameters, stack := [] }

end FrameState

namespace Span

def deadState : FrameState := { locals := [], stack := [.object throwableName] }

def frame (previous : List VerificationType) (offset : Nat) (state : FrameState) : Frame :=
  ⟨offset, .compress previous state.localEntries state.stackEntries⟩

def frames (marked : Nat → Bool) : Bool → List VerificationType → List Span → List Frame
  | _, _, [] => []
  | inDead, previous, span :: rest =>
    match span.state with
    | some state =>
      if marked span.placed.offset then
        frame previous span.placed.offset state :: frames marked false state.localEntries rest
      else frames marked false previous rest
    | none =>
      if inDead then frames marked true previous rest
      else frame previous span.placed.offset deadState :: frames marked true [] rest

def branchTargets (spans : List Span) : List Nat :=
  spans.flatMap fun span => if span.isDead then [] else span.placed.instruction.branchTargets

end Span

def markOffsets (length : Nat) (offsets : List Nat) : Array Bool :=
  offsets.foldl (fun marks offset => marks.setIfInBounds offset true) (Array.replicate length false)

namespace Code

/-- Class files of this major version are the first with stack map tables. -/
def stackMapVersion : UInt16 := 50

def withFlow (major : UInt16) (entry : FrameState) (flow : Flow) (code : Code) :
    Except FrameFault Code := do
  let spans := Span.ofCode code flow.states
  let dead := Span.deadRanges none spans
  let carved := code.carveHandlers dead
  let marks := markOffsets code.length
    (Span.branchTargets spans ++ carved.handlers.map Handler.target)
  let frames := Span.frames (marks[·]?.getD false) false entry.localEntries spans
  let maxStack := if dead.isEmpty then flow.maxStack else max flow.maxStack 1
  if 65535 < maxStack then throw .stackTooLarge
  if 65535 < flow.maxLocals then throw .localsTooLarge
  return { carved with
    instructions := Span.replaceDead spans
    maxStack := maxStack.toUInt16
    maxLocals := flow.maxLocals.toUInt16 }.setStackMap
      (if stackMapVersion ≤ major then frames else [])

def analyze (context : FrameContext) (member : Member) (code : Code) (steps : Nat) :
    Analysis (FrameState × Flow) := do
  let body := Body.ofCode code
  match FrameState.onEntry context.owner member with
  | .error fault => Flow.fail 0 fault
  | .ok entry => return (entry, ← (Flow.start body entry).run context body steps)

def recomputeWithin (context : FrameContext) (major : UInt16) (member : Member) (code : Code)
    (steps : Nat) : Analysis Code := do
  let (entry, flow) ← analyze context member code steps
  match code.withFlow major entry flow with
  | .error fault => Flow.fail 0 fault
  | .ok code => return code

/-- More steps than any machine takes. An analysis that is cut off here stands for one without end. -/
def stepLimit : Nat := 4611686018427387904

def recompute (context : FrameContext) (major : UInt16) (member : Member) (code : Code) :
    Analysis Code :=
  code.recomputeWithin context major member stepLimit

end Code

end ClassRenaming
