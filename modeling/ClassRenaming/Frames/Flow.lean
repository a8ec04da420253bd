import ClassRenaming.Frames.Execution
import ClassRenaming.Frames.Merging

/-!
The states on entry to the instructions of a body. Every instruction that a path reaches has a state
which has something in common with all paths that reach it. An instruction is pending while its
state may say something new to the instructions behind it; a run takes the last one that became
pending and ends when none is left.
-/

namespace ClassRenaming

def throwableName : String := "java/lang/Throwable"

structure FrameError where
  offset : Nat
  fault : FrameFault
  deriving DecidableEq, Repr, Inhabited

structure Body where
  instructions : Array Placed
  /-- For every code offset the position of the instruction there. -/
  positions : Array (Option Nat)
  handlers : List Handler

namespace Body

def ofCode (code : Code) : Body where
  instructions := code.instructions.toArray
  positions := code.instructions.zipIdx.foldl
    (fun table (placed, i) => table.setIfInBounds placed.offset (some i))
    (Array.replicate code.length none)
  handlers := code.handlers

def position? (body : Body) (offset : Nat) : Option Nat := body.positions[offset]?.join

def made? (body : Body) (offset : Nat) : Option String := do
  match (← body.instructions[← body.position? offset]?).instruction with
  | .type opcode name => if opcode = Opcode.new then some name else none
  | _ => none

end Body

structure FrameContext where
  hierarchy : Hierarchy
  owner : String

abbrev Analysis := ExceptT FrameError Resolving

structure Flow where
  /-- For every instruction that was reached the state on entry to it. -/
  states : Array (Option FrameState)
  /-- Positions of instructions, the last one to become pending first. -/
  pending : List Nat
  /-- The most slots of the stack in a state that was seen, and of the local variables. -/
  maxStack : Nat
  maxLocals : Nat
  deriving Inhabited

namespace Flow

def start (body : Body) (state : FrameState) : Flow where
  states := (Array.replicate body.instructions.size none).setIfInBounds 0 (some state)
  pending := if body.instructions.size = 0 then [] else [0]
  maxStack := 0
  maxLocals := state.locals.length

def mark (flow : Flow) (position : Nat) : Flow :=
  if position ∈ flow.pending then flow else { flow with pending := position :: flow.pending }

def record (flow : Flow) (position : Nat) (state : FrameState) : Flow :=
  { flow with states := flow.states.setIfInBounds position (some state) }

def see (flow : Flow) (stack locals : Nat) : Flow :=
  { flow with maxStack := max flow.maxStack stack, maxLocals := max flow.maxLocals locals }

def fail {α : Type} (offset : Nat) (fault : FrameFault) : Analysis α :=
  throw ⟨offset, fault⟩

/-- Brings a state from the instruction at `offset` to the instruction at a position. New local
variables alone, which hold nothing in common, are no news. -/
def arrive (hierarchy : Hierarchy) (offset : Nat) (incoming : FrameState) (position : Nat)
    (flow : Flow) : Analysis Flow := do
  match flow.states[position]?.join with
  | none => return (flow.record position incoming).mark position
  | some recorded =>
    if recorded.stack.length ≠ incoming.stack.length then
      fail offset (.heightsDiffer recorded.stack.length incoming.stack.length)
    else
      let merged ← hierarchy.mergeStates recorded incoming
      let flow := flow.record position merged
      return if merged = recorded.reserve merged.locals.length then flow else flow.mark position

def successors (body : Body) (position : Nat) (placed : Placed) : Analysis (List Nat) := do
  let targets ← placed.instruction.branchTargets.mapM fun target =>
    match body.position? target with
    | some found => pure found
    | none => fail placed.offset (.noInstruction target)
  if placed.instruction.endsBlock then return targets
  else if position + 1 < body.instructions.size then return targets ++ [position + 1]
  else fail placed.offset .noEnd

/-- Brings what a handler catches from the instruction at `offset` to it: the local variables from
before and from after the instruction. -/
def catchIn (hierarchy : Hierarchy) (body : Body) (offset : Nat) (entry exit : FrameState)
    (flow : Flow) (handler : Handler) : Analysis Flow := do
  if offset < handler.start ∨ handler.stop ≤ offset then return flow
  else
    match body.position? handler.target with
    | none => fail offset (.noInstruction handler.target)
    | some target =>
      let stack := [.object (handler.catchType.getD throwableName)]
      let flow := flow.see 1 0
      let flow ← flow.arrive hierarchy offset { entry with stack } target
      flow.arrive hierarchy offset { exit with stack } target

def visit (context : FrameContext) (body : Body) (position : Nat) (flow : Flow) :
    Analysis Flow := do
  match body.instructions[position]?, flow.states[position]?.join with
  | some placed, some entry =>
    match entry.execute context.owner body.made? placed with
    | .error fault => fail placed.offset fault
    | .ok exit =>
      let flow := flow.see (max entry.stack.length exit.stack.length) exit.locals.length
      let targets ← successors body position placed
      let flow ← targets.foldlM
        (fun flow target => flow.arrive context.hierarchy placed.offset exit target) flow
      body.handlers.foldlM (catchIn context.hierarchy body placed.offset entry exit) flow
  | _, _ => return flow

def run (context : FrameContext) (body : Body) : Nat → Flow → Analysis Flow
  | 0, flow => if flow.pending.isEmpty then return flow else fail 0 .outOfSteps
  | steps + 1, flow =>
    match flow.pending with
    | [] => return flow
    | position :: rest => do
      let flow ← visit context body position { flow with pending := rest }
      run context body steps flow

end Flow

end ClassRenaming
