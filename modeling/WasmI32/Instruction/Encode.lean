import WasmI32.Instruction.Basic
import WasmI32.Leb128

/-!
# The binary form of instructions

An instruction is one opcode byte followed by its immediates. Integers are written in the fewest
bytes.
-/

namespace WasmI32

def BlockKind.opcode : BlockKind → UInt8
  | block => 0x02
  | loop => 0x03
  | cond => 0x04

/-- The byte of a block type. -/
def BlockType.toByte : BlockType → UInt8
  | empty => 0x40
  | i32 => 0x7f

def LoadOp.opcode : LoadOp → UInt8
  | word => 0x28
  | byteSigned => 0x2c
  | byteUnsigned => 0x2d
  | halfSigned => 0x2e
  | halfUnsigned => 0x2f

/-- The opcode of the store of a width. -/
def Width.storeOpcode : Width → UInt8
  | word => 0x36
  | byte => 0x3a
  | half => 0x3b

def UnaryOp.opcode : UnaryOp → UInt8
  | eqz => 0x45
  | clz => 0x67
  | ctz => 0x68
  | popcnt => 0x69

def Comparison.opcode : Comparison → UInt8
  | eq => 0x46
  | ne => 0x47
  | ltS => 0x48
  | ltU => 0x49
  | gtS => 0x4a
  | gtU => 0x4b
  | leS => 0x4c
  | leU => 0x4d
  | geS => 0x4e
  | geU => 0x4f

def BinaryOp.opcode : BinaryOp → UInt8
  | add => 0x6a
  | sub => 0x6b
  | mul => 0x6c
  | divS => 0x6d
  | divU => 0x6e
  | remS => 0x6f
  | remU => 0x70
  | and => 0x71
  | or => 0x72
  | xor => 0x73
  | shl => 0x74
  | shrS => 0x75
  | shrU => 0x76
  | rotl => 0x77
  | rotr => 0x78

def MemArg.encode (arg : MemArg) : List UInt8 :=
  Leb128.encodeUnsigned arg.align ++ Leb128.encodeUnsigned arg.offset

namespace Instruction

/-- The first byte of an instruction. -/
def opcode : Instruction → UInt8
  | unreachable => 0x00
  | nop => 0x01
  | enter kind _ => kind.opcode
  | elseMark => 0x05
  | endMark => 0x0b
  | br _ => 0x0c
  | brIf _ => 0x0d
  | ret => 0x0f
  | call _ => 0x10
  | drop => 0x1a
  | localGet _ => 0x20
  | localSet _ => 0x21
  | localTee _ => 0x22
  | load op _ => op.opcode
  | store width _ => width.storeOpcode
  | memorySize => 0x3f
  | memoryGrow => 0x40
  | const _ => 0x41
  | unary op => op.opcode
  | compare op => op.opcode
  | binary op => op.opcode

/-- The bytes of an instruction. -/
def encode : Instruction → List UInt8
  | unreachable => [0x00]
  | nop => [0x01]
  | enter .block type => [0x02, type.toByte]
  | enter .loop type => [0x03, type.toByte]
  | enter .cond type => [0x04, type.toByte]
  | elseMark => [0x05]
  | endMark => [0x0b]
  | br label => 0x0c :: Leb128.encodeUnsigned label
  | brIf label => 0x0d :: Leb128.encodeUnsigned label
  | ret => [0x0f]
  | call function => 0x10 :: Leb128.encodeUnsigned function
  | drop => [0x1a]
  | localGet index => 0x20 :: Leb128.encodeUnsigned index
  | localSet index => 0x21 :: Leb128.encodeUnsigned index
  | localTee index => 0x22 :: Leb128.encodeUnsigned index
  | load op arg => (load op arg).opcode :: arg.encode
  | store width arg => (store width arg).opcode :: arg.encode
  | memorySize => [memorySize.opcode, 0x00]
  | memoryGrow => [memoryGrow.opcode, 0x00]
  | const value => 0x41 :: Leb128.encodeSigned value
  | i => [i.opcode]

/-- The bytes of a sequence of instructions. -/
def encodeAll (is : List Instruction) : List UInt8 := is.flatMap encode

end Instruction

end WasmI32
