/-!
# Limits

Bounds the engine puts on modules and on running code, beyond what the binary format asks for.
-/

namespace WasmI32.Limits

def types : Nat := 100000

def functions : Nat := 100000

def dataSegments : Nat := 100000

/-- The most bytes a function body may take up, with its local declarations. -/
def bodyBytes : Nat := 7654321

def parameters : Nat := 1000

def results : Nat := 1

/-- The most locals a function may declare beside its parameters. -/
def locals : Nat := 50000

/-- The most pages a linear memory may have. -/
def pages : Nat := 128

/-- The most frames that may be live at once. -/
def callDepth : Nat := 10000

/-- The most local slots that all live frames may hold together. -/
def totalLocals : Nat := 1048576

end WasmI32.Limits
