/-!
# Hexadecimal text

Lower-case hexadecimal digits for bytes, offsets and memory contents.
-/

namespace WasmI32.Hex

/-- The digits of `n`, with zeros in front up to `width` digits. -/
def padded (width n : Nat) : String :=
  let digits := Nat.toDigits 16 n
  String.ofList (List.replicate (width - digits.length) '0' ++ digits)

/-- Two digits for a byte. -/
def ofByte (b : UInt8) : String := padded 2 b.toNat

/-- Two digits for each byte, with nothing in between. -/
def ofBytes (bytes : List UInt8) : String := String.join (bytes.map ofByte)

end WasmI32.Hex
