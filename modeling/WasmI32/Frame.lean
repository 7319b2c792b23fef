import WasmI32.Instruction.Basic
import WasmI32.Module.Basic
import WasmI32.OperandStack

/-!
# Frames

A frame is one activation of a function: its locals, its place in the code and the constructs that
are open there. Code is never searched for the end of a construct. A frame that has to leave one
early, or not to run an arm of an `if`, goes on reading instructions in a skipping state until the
construct is closed.
-/

namespace WasmI32

/-- An open construct. -/
structure Marker where
  kind : BlockKind
  type : BlockType
  /-- The height of the operand stack when the construct was entered. -/
  height : Nat
  /-- The offset of the first instruction inside. -/
  start : Nat
  deriving DecidableEq, Repr

/-- The number of operands a branch to the construct keeps. A branch to a loop goes back to its
start, so that it keeps none. -/
def Marker.branchArity (m : Marker) : Nat :=
  match m.kind with
  | .loop => 0
  | .block => m.type.arity
  | .cond => m.type.arity

/-- Why instructions are skipped. -/
inductive SkipReason where
  /-- The condition of an `if` was zero: its first arm is skipped. -/
  | inactiveIf
  /-- The first arm of an `if` was run: its second arm is skipped. -/
  | takenIf
  /-- A branch leaves a construct. -/
  | branch
  deriving DecidableEq, Repr

/-- Whether instructions are run or skipped. `depth` is the number of open constructs down to the
one whose end ends the skipping. -/
inductive FlowState where
  | normal
  | skipping (reason : SkipReason) (depth : Nat)
  deriving DecidableEq, Repr

namespace FlowState

def isSkipping : FlowState → Bool
  | normal => false
  | skipping _ _ => true

def depth? : FlowState → Option Nat
  | normal => none
  | skipping _ depth => some depth

/-- The state after an `else` is read over while `depth` constructs are open. The second arm of an
`if` is run when the first one was not. -/
def afterElse (state : FlowState) (depth : Nat) : FlowState :=
  if state = skipping .inactiveIf depth then normal else state

/-- The state after an `end` is read over while `depth` constructs are open. -/
def afterEnd (state : FlowState) (depth : Nat) : FlowState :=
  if state.depth? = some depth then normal else state

end FlowState

/-- What the machine does after an instruction. -/
inductive Flow where
  | next
  | call (function : Nat)
  | ret
  deriving DecidableEq, Repr

/-- An activation of a function. -/
structure Frame where
  /-- The index of the function. -/
  function : Nat
  /-- The offset of the next instruction. -/
  ip : Nat
  /-- Parameters first, then declared locals. -/
  locals : Array Word
  /-- The height of the operand stack below the operands of this activation. -/
  base : Nat
  resultCount : Nat
  /-- The open constructs, innermost first. The last one is the function body. -/
  markers : List Marker
  state : FlowState
  deriving DecidableEq, Repr

namespace Frame

/-- The marker of a function body. -/
def bodyMarker (f : Function) (base : Nat) : Marker where
  kind := .block
  type := if f.resultCount = 0 then .empty else .i32
  height := base
  start := 0

/-- The frame of a new activation. The arguments are its first locals; all others are zero. -/
def create (index : Nat) (f : Function) (args : Array Word) (base : Nat) : Frame where
  function := index
  ip := 0
  locals := args.take f.frameSize ++ Array.replicate (f.frameSize - args.size) 0
  base := base
  resultCount := f.resultCount
  markers := [bodyMarker f base]
  state := .normal

/-- The number of open constructs, with the function body. -/
def depth (f : Frame) : Nat := f.markers.length

/-- Opens a construct whose first instruction is the next one. -/
def enter (f : Frame) (kind : BlockKind) (type : BlockType) (height : Nat) : Frame :=
  { f with markers := ⟨kind, type, height, f.ip⟩ :: f.markers }

/-- Closes the innermost construct. Closing the function body returns. -/
def close (f : Frame) : Flow × Frame :=
  let markers := f.markers.tail
  (if markers.isEmpty then .ret else .next, { f with markers })

/-- Reads over an instruction in a skipping state, at a given height of the operand stack. Only
the nesting of constructs is kept up with. -/
def skip (f : Frame) (height : Nat) : Instruction → Flow × Frame
  | .enter kind type => (.next, f.enter kind type height)
  | .elseMark => (.next, { f with state := f.state.afterElse f.depth })
  | .endMark => close { f with state := f.state.afterEnd f.depth }
  | _ => (.next, f)

end Frame

end WasmI32
