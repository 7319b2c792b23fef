import WasmI32.Instruction.Encode
import WasmI32.Module.Basic
import WasmI32.Proofs.InstructionBytes

/-!
# Structured code

Code as a tree: instructions that stand alone, and the constructs `block`, `loop` and `if`, each
with the code inside it. Flattening writes a tree as the instructions of a function body, with a
mark where an arm or a construct ends.
-/

namespace WasmI32

/-- Whether an instruction neither opens, divides nor closes a construct. -/
def Instruction.isPlain : Instruction → Bool
  | enter _ _ => false
  | elseMark => false
  | endMark => false
  | _ => true

namespace Structured

/-- An instruction that stands alone. -/
abbrev Plain := { i : Instruction // i.isPlain = true }

/-- A sequence of instructions and constructs. -/
inductive Code where
  | done
  | plain (i : Plain) (next : Code)
  /-- A `block`, a `loop`, or an `if` without a second arm. -/
  | construct (kind : BlockKind) (type : BlockType) (body next : Code)
  /-- An `if` with both arms. -/
  | ifElse (type : BlockType) (first second next : Code)

/-- The instructions of a tree, in the order they stand in. -/
def Code.flatten : Code → List Instruction
  | done => []
  | plain i next => i.val :: next.flatten
  | construct kind type body next =>
    .enter kind type :: (body.flatten ++ .endMark :: next.flatten)
  | ifElse type first second next =>
    .enter .cond type ::
      (first.flatten ++ .elseMark :: (second.flatten ++ .endMark :: next.flatten))

/-- The bytes of a tree. -/
def Code.bytes (c : Code) : List UInt8 := Instruction.encodeAll c.flatten

/-- A function whose body is a tree, flattened and closed by one last `end`. -/
structure Procedure where
  function : Function
  code : Code
  body_eq : function.body = (Instruction.encodeAll (code.flatten ++ [.endMark])).toArray

/-! ## Bytes in their place -/

open Instruction (StandsAt encodeAll)

theorem standsAt_append {code : Array UInt8} {ip : Nat} {bs cs : List UInt8} :
    StandsAt code ip (bs ++ cs) ↔ StandsAt code ip bs ∧ StandsAt code (ip + bs.length) cs := by
  constructor
  · rintro ⟨rest, h⟩
    refine ⟨⟨cs ++ rest, by rw [h, List.append_assoc]⟩, rest, ?_⟩
    rw [← List.drop_drop, h, List.append_assoc, List.drop_left]
  · rintro ⟨⟨r₁, h₁⟩, r₂, h₂⟩
    rw [← List.drop_drop, h₁, List.drop_left] at h₂
    exact ⟨r₂, by rw [h₁, h₂, List.append_assoc]⟩

theorem encodeAll_cons (i : Instruction) (is : List Instruction) :
    encodeAll (i :: is) = i.encode ++ encodeAll is := rfl

theorem encodeAll_append (is js : List Instruction) :
    encodeAll (is ++ js) = encodeAll is ++ encodeAll js := List.flatMap_append

theorem bytes_plain (i : Plain) (next : Code) :
    (Code.plain i next).bytes = i.val.encode ++ next.bytes := rfl

theorem bytes_construct (kind : BlockKind) (type : BlockType) (body next : Code) :
    (Code.construct kind type body next).bytes =
      (Instruction.enter kind type).encode ++
        (body.bytes ++ (Instruction.endMark.encode ++ next.bytes)) := by
  simp only [Code.bytes, Code.flatten, encodeAll_cons, encodeAll_append]

theorem bytes_ifElse (type : BlockType) (first second next : Code) :
    (Code.ifElse type first second next).bytes =
      (Instruction.enter .cond type).encode ++
        (first.bytes ++ (Instruction.elseMark.encode ++
          (second.bytes ++ (Instruction.endMark.encode ++ next.bytes)))) := by
  simp only [Code.bytes, Code.flatten, encodeAll_cons, encodeAll_append]

/-- The body of a procedure starts with its tree, and its last `end` follows. -/
theorem Procedure.standsAt (p : Procedure) :
    StandsAt p.function.body 0 (p.code.bytes ++ Instruction.endMark.encode) := by
  refine ⟨[], ?_⟩
  rw [p.body_eq, encodeAll_append]
  simp [Code.bytes, Instruction.encodeAll]

end Structured

end WasmI32
