import WasmI32.Instruction.Encode
import WasmI32.Text.Hex
import WasmI32.Window

/-!
# Reading instructions

Code is read one instruction at a time, from any position: `Instruction.decodeAt` is what the
machine runs on. `Instruction.scan` reads code from its start to its end or to the first bytes
that are no instruction, without following branches.
-/

namespace WasmI32

/-- Why bytes are not an instruction. Offsets count from the start of the code. -/
inductive InstructionError where
  | invalidOpcode (opcode : UInt8) (offset : Nat)
  | unexpectedEnd (offset : Nat)
  | malformedImmediate (offset : Nat)
  | unsupportedBlockType (byte : UInt8) (offset : Nat)
  deriving DecidableEq, Repr

namespace InstructionError

def ofRead : ReadError → InstructionError
  | .truncated offset => unexpectedEnd offset
  | .malformed offset => malformedImmediate offset

def message : InstructionError → String
  | invalidOpcode opcode offset => s!"invalid opcode 0x{Hex.ofByte opcode} at offset {offset}"
  | unexpectedEnd offset => s!"unexpected end of bytecode at offset {offset}"
  | malformedImmediate offset => s!"malformed immediate at offset {offset}"
  | unsupportedBlockType byte offset =>
    s!"unsupported block type 0x{Hex.ofByte byte} at offset {offset}"

end InstructionError

instance : MonadLift (Read ReadError) (Read InstructionError) where
  monadLift := EStateM.adaptExcept InstructionError.ofRead

namespace Instruction

/-- What follows an opcode, and the instruction it makes. -/
inductive Form where
  /-- Nothing. -/
  | plain (instruction : Instruction)
  /-- A block type. -/
  | construct (kind : BlockKind)
  /-- An unsigned integer. -/
  | indexed (build : Word → Instruction)
  /-- An alignment and an offset. -/
  | access (build : MemArg → Instruction)
  /-- A signed integer. -/
  | constant
  /-- A zero byte. -/
  | reserved (instruction : Instruction)

/-- The form of the instructions with a given opcode. -/
def form? : UInt8 → Option Form
  | 0x00 => some (.plain unreachable)
  | 0x01 => some (.plain nop)
  | 0x02 => some (.construct .block)
  | 0x03 => some (.construct .loop)
  | 0x04 => some (.construct .cond)
  | 0x05 => some (.plain elseMark)
  | 0x0b => some (.plain endMark)
  | 0x0c => some (.indexed br)
  | 0x0d => some (.indexed brIf)
  | 0x0f => some (.plain ret)
  | 0x10 => some (.indexed call)
  | 0x1a => some (.plain drop)
  | 0x20 => some (.indexed localGet)
  | 0x21 => some (.indexed localSet)
  | 0x22 => some (.indexed localTee)
  | 0x28 => some (.access (load .word))
  | 0x2c => some (.access (load .byteSigned))
  | 0x2d => some (.access (load .byteUnsigned))
  | 0x2e => some (.access (load .halfSigned))
  | 0x2f => some (.access (load .halfUnsigned))
  | 0x36 => some (.access (store .word))
  | 0x3a => some (.access (store .byte))
  | 0x3b => some (.access (store .half))
  | 0x3f => some (.reserved memorySize)
  | 0x40 => some (.reserved memoryGrow)
  | 0x41 => some .constant
  | 0x45 => some (.plain (unary .eqz))
  | 0x46 => some (.plain (compare .eq))
  | 0x47 => some (.plain (compare .ne))
  | 0x48 => some (.plain (compare .ltS))
  | 0x49 => some (.plain (compare .ltU))
  | 0x4a => some (.plain (compare .gtS))
  | 0x4b => some (.plain (compare .gtU))
  | 0x4c => some (.plain (compare .leS))
  | 0x4d => some (.plain (compare .leU))
  | 0x4e => some (.plain (compare .geS))
  | 0x4f => some (.plain (compare .geU))
  | 0x67 => some (.plain (unary .clz))
  | 0x68 => some (.plain (unary .ctz))
  | 0x69 => some (.plain (unary .popcnt))
  | 0x6a => some (.plain (binary .add))
  | 0x6b => some (.plain (binary .sub))
  | 0x6c => some (.plain (binary .mul))
  | 0x6d => some (.plain (binary .divS))
  | 0x6e => some (.plain (binary .divU))
  | 0x6f => some (.plain (binary .remS))
  | 0x70 => some (.plain (binary .remU))
  | 0x71 => some (.plain (binary .and))
  | 0x72 => some (.plain (binary .or))
  | 0x73 => some (.plain (binary .xor))
  | 0x74 => some (.plain (binary .shl))
  | 0x75 => some (.plain (binary .shrS))
  | 0x76 => some (.plain (binary .shrU))
  | 0x77 => some (.plain (binary .rotl))
  | 0x78 => some (.plain (binary .rotr))
  | _ => none

/-- The block type of a byte. -/
def blockType? (b : UInt8) : Option BlockType :=
  if b = 0x40 then some .empty
  else if b = 0x7f then some .i32
  else none

/-- Reads the immediates of a form. -/
def Form.read : Form → Read InstructionError Instruction
  | plain instruction => pure instruction
  | construct kind => do
    let offset ← Window.here
    let b ← Window.byte
    match blockType? b with
    | some type => pure (enter kind type)
    | none => throw (.unsupportedBlockType b offset)
  | indexed build => do
    let n ← Window.unsigned
    pure (build n)
  | access build => do
    let align ← Window.unsigned
    let offset ← Window.unsigned
    pure (build ⟨align, offset⟩)
  | constant => do
    let value ← Window.signed
    pure (const value)
  | reserved instruction => do
    let offset ← Window.here
    let b ← Window.byte
    if b = 0 then pure instruction else throw (.malformedImmediate offset)

/-- Reads one instruction. -/
def read : Read InstructionError Instruction := do
  let offset ← Window.here
  let opcode ← Window.byte
  match form? opcode with
  | some form => form.read
  | none => throw (.invalidOpcode opcode offset)

/-- The most bytes that the immediates of a form take up. -/
def Form.maxLength : Form → Nat
  | plain _ => 0
  | construct _ => 1
  | indexed _ => Leb128.maxLength
  | access _ => 2 * Leb128.maxLength
  | constant => Leb128.maxLength
  | reserved _ => 1

/-- The most bytes that an instruction with a given opcode takes up. -/
def maxLength (opcode : UInt8) : Nat :=
  match form? opcode with
  | some form => 1 + form.maxLength
  | none => 1

/-- The window onto the bytes that an instruction at `ip` can take up. -/
def window (code : Array UInt8) (ip : Nat) : Window :=
  match code[ip]? with
  | some opcode => ⟨ip, ip, (code.extract ip (ip + maxLength opcode)).toList⟩
  | none => ⟨ip, ip, []⟩

/-- The instruction at `ip`, and where the next one starts. -/
def decodeAt (code : Array UInt8) (ip : Nat) : Except InstructionError (Instruction × Nat) :=
  match read (window code ip) with
  | .ok instruction w => .ok (instruction, w.offset)
  | .error e _ => .error e

/-- What a reading of code from its start finds. -/
structure Scan where
  /-- The instructions, each with its offset. -/
  instructions : Array (Nat × Instruction)
  /-- Where the reading stopped: behind the last instruction. -/
  stop : Nat
  /-- Why the reading stopped before the end of the code, if it did. -/
  error : Option InstructionError
  deriving DecidableEq, Repr

/-- Reads instructions one after the other, at most `fuel` of them. -/
def scanFrom : Nat → Array (Nat × Instruction) → Window → Scan
  | 0, found, w => ⟨found, w.offset, none⟩
  | fuel + 1, found, w =>
    if w.isEmpty then ⟨found, w.offset, none⟩
    else
      match read w with
      | .ok instruction next => scanFrom fuel (found.push (w.offset, instruction)) next
      | .error e _ => ⟨found, w.offset, some e⟩

/-- Reads all of the code. Every instruction takes up a byte at least, so that there are no more
instructions than bytes. -/
def scan (code : Array UInt8) : Scan :=
  scanFrom code.size #[] (Window.ofBytes code.toList)

end Instruction

end WasmI32
