/-!
# Reading UTF-8 with replacement

Names in a module are meant to be UTF-8, but nothing checks it. `Utf8.decodeLossy` reads any bytes:
each longest run of bytes that starts a character and cannot go on becomes one replacement
character.
-/

namespace WasmI32.Utf8

/-- A character that has started: the bits so far, how many bytes are still to come, and the
bounds of the next one. Bounds other than `0x80` and `0xbf` rule out overlong forms, surrogates
and numbers that are too large. -/
structure Pending where
  bits : Nat
  missing : Nat
  lowest : UInt8
  highest : UInt8
  deriving DecidableEq, Repr

/-- The character that stands for bytes that are not UTF-8. -/
def replacement : Char := '�'

/-- What a first byte starts. -/
inductive Lead where
  | complete (c : Char)
  | pending (p : Pending)
  | invalid
  deriving DecidableEq, Repr

def lead (b : UInt8) : Lead :=
  let n := b.toNat
  if n < 0x80 then .complete (Char.ofNat n)
  else if n < 0xc2 then .invalid
  else if n < 0xe0 then .pending ⟨n - 0xc0, 1, 0x80, 0xbf⟩
  else if n = 0xe0 then .pending ⟨0, 2, 0xa0, 0xbf⟩
  else if n = 0xed then .pending ⟨0xd, 2, 0x80, 0x9f⟩
  else if n < 0xf0 then .pending ⟨n - 0xe0, 2, 0x80, 0xbf⟩
  else if n = 0xf0 then .pending ⟨0, 3, 0x90, 0xbf⟩
  else if n < 0xf4 then .pending ⟨n - 0xf0, 3, 0x80, 0xbf⟩
  else if n = 0xf4 then .pending ⟨4, 3, 0x80, 0x8f⟩
  else .invalid

/-- Reads bytes after those of `pending`, with `done` holding the characters so far. -/
def decodeFrom : Option Pending → String → List UInt8 → String
  | none, done, [] => done
  | some _, done, [] => done.push replacement
  | none, done, b :: rest =>
    match lead b with
    | .complete c => decodeFrom none (done.push c) rest
    | .pending p => decodeFrom (some p) done rest
    | .invalid => decodeFrom none (done.push replacement) rest
  | some p, done, b :: rest =>
    if p.lowest ≤ b ∧ b ≤ p.highest then
      let bits := p.bits * 64 + (b.toNat - 0x80)
      if p.missing ≤ 1 then decodeFrom none (done.push (Char.ofNat bits)) rest
      else decodeFrom (some ⟨bits, p.missing - 1, 0x80, 0xbf⟩) done rest
    else
      -- the byte does not belong to the character before it, so it starts afresh
      let done := done.push replacement
      match lead b with
      | .complete c => decodeFrom none (done.push c) rest
      | .pending p => decodeFrom (some p) done rest
      | .invalid => decodeFrom none (done.push replacement) rest

/-- The text of `bytes`, with replacement characters for what is not UTF-8. -/
def decodeLossy (bytes : List UInt8) : String := decodeFrom none "" bytes

end WasmI32.Utf8
