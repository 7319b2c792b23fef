/-!
# Sections

The numbers and names of the sections of a module's binary.
-/

namespace WasmI32.Section

def custom : UInt8 := 0

def type : UInt8 := 1

def function : UInt8 := 3

def memory : UInt8 := 5

def start : UInt8 := 8

def code : UInt8 := 10

def data : UInt8 := 11

/-- The largest number of a section. -/
def largest : UInt8 := 12

/-- The name of a section, as errors give it. -/
def name : UInt8 → String
  | 0 => "custom"
  | 1 => "type"
  | 2 => "import"
  | 3 => "function"
  | 4 => "table"
  | 5 => "memory"
  | 6 => "global"
  | 7 => "export"
  | 8 => "start"
  | 9 => "element"
  | 10 => "code"
  | 11 => "data"
  | 12 => "data count"
  | _ => "unknown"

end WasmI32.Section

namespace WasmI32

/-- The bytes every module starts with: four that name the format and four for its version. -/
def Module.header : List UInt8 := [0x00, 0x61, 0x73, 0x6d, 0x01, 0x00, 0x00, 0x00]

/-- The byte in front of a function type. -/
def FunctionType.tag : UInt8 := 0x60

end WasmI32
