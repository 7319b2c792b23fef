import WasmI32.Instruction.Basic

/-!
# The text of instructions

Mnemonics and the written form of an instruction with its immediates, as listings show it.
-/

namespace WasmI32

def BlockKind.mnemonic : BlockKind → String
  | block => "block"
  | loop => "loop"
  | cond => "if"

def LoadOp.mnemonic : LoadOp → String
  | word => "i32.load"
  | byteSigned => "i32.load8_s"
  | byteUnsigned => "i32.load8_u"
  | halfSigned => "i32.load16_s"
  | halfUnsigned => "i32.load16_u"

/-- The mnemonic of the store of a width. -/
def Width.storeMnemonic : Width → String
  | word => "i32.store"
  | byte => "i32.store8"
  | half => "i32.store16"

def UnaryOp.mnemonic : UnaryOp → String
  | eqz => "i32.eqz"
  | clz => "i32.clz"
  | ctz => "i32.ctz"
  | popcnt => "i32.popcnt"

def Comparison.mnemonic : Comparison → String
  | eq => "i32.eq"
  | ne => "i32.ne"
  | ltS => "i32.lt_s"
  | ltU => "i32.lt_u"
  | gtS => "i32.gt_s"
  | gtU => "i32.gt_u"
  | leS => "i32.le_s"
  | leU => "i32.le_u"
  | geS => "i32.ge_s"
  | geU => "i32.ge_u"

def BinaryOp.mnemonic : BinaryOp → String
  | add => "i32.add"
  | sub => "i32.sub"
  | mul => "i32.mul"
  | divS => "i32.div_s"
  | divU => "i32.div_u"
  | remS => "i32.rem_s"
  | remU => "i32.rem_u"
  | and => "i32.and"
  | or => "i32.or"
  | xor => "i32.xor"
  | shl => "i32.shl"
  | shrS => "i32.shr_s"
  | shrU => "i32.shr_u"
  | rotl => "i32.rotl"
  | rotr => "i32.rotr"

/-- The written immediates of a memory access. A zero offset and an alignment of one byte are
left out; the alignment is written in bytes. -/
def MemArg.render (arg : MemArg) : String :=
  let offset := if arg.offset = 0 then "" else s!" offset={arg.offset.toNat}"
  let align := if arg.align = 0 then "" else s!" align={1 <<< min arg.align.toNat 63}"
  offset ++ align

namespace Instruction

def mnemonic : Instruction → String
  | unreachable => "unreachable"
  | nop => "nop"
  | enter kind _ => kind.mnemonic
  | elseMark => "else"
  | endMark => "end"
  | br _ => "br"
  | brIf _ => "br_if"
  | ret => "return"
  | call _ => "call"
  | drop => "drop"
  | localGet _ => "local.get"
  | localSet _ => "local.set"
  | localTee _ => "local.tee"
  | load op _ => op.mnemonic
  | store width _ => width.storeMnemonic
  | memorySize => "memory.size"
  | memoryGrow => "memory.grow"
  | const _ => "i32.const"
  | unary op => op.mnemonic
  | compare op => op.mnemonic
  | binary op => op.mnemonic

/-- The written immediates, with a blank in front of each. -/
def renderImmediates : Instruction → String
  | enter _ .i32 => " (result i32)"
  | br label => s!" {label.toNat}"
  | brIf label => s!" {label.toNat}"
  | call function => s!" {function.toNat}"
  | localGet index => s!" {index.toNat}"
  | localSet index => s!" {index.toNat}"
  | localTee index => s!" {index.toNat}"
  | load _ arg => arg.render
  | store _ arg => arg.render
  | const value => s!" {value.toInt}"
  | _ => ""

/-- The written form of an instruction. -/
def render (i : Instruction) : String := i.mnemonic ++ i.renderImmediates

end Instruction

end WasmI32
