/-!
# Decoding UTF-8

Bytes are decoded one by one. A sequence that cannot be completed is replaced by one replacement
character, and decoding goes on with the byte that broke it.
-/
namespace Effectful.Text.Utf8

/-- A sequence that has begun: the bits so far, the number of bytes still to come, and the range of
the next one. -/
structure Pending where
  bits : Nat
  missing : Nat
  low : Nat := 0x80
  high : Nat := 0xbf

def replacement : Char := '\ufffd'

/-- The first byte of a sequence: a complete character, or the sequence that it begins. The ranges
keep out long forms, surrogates and numbers beyond the last character. -/
def lead (b : Nat) : Char ⊕ Pending :=
  if b < 0x80 then .inl (Char.ofNat b)
  else if 0xc2 ≤ b ∧ b ≤ 0xdf then .inr { bits := b - 0xc0, missing := 1 }
  else if b = 0xe0 then .inr { bits := 0, missing := 2, low := 0xa0 }
  else if b = 0xed then .inr { bits := 0xd, missing := 2, high := 0x9f }
  else if 0xe1 ≤ b ∧ b ≤ 0xef then .inr { bits := b - 0xe0, missing := 2 }
  else if b = 0xf0 then .inr { bits := 0, missing := 3, low := 0x90 }
  else if b = 0xf4 then .inr { bits := 4, missing := 3, high := 0x8f }
  else if 0xf1 ≤ b ∧ b ≤ 0xf3 then .inr { bits := b - 0xf0, missing := 3 }
  else .inl replacement

/-- Decodes the bytes after a sequence that has begun, if one has. -/
def decodeFrom (pending : Option Pending) : List UInt8 → List Char
  | [] => if pending.isSome then [replacement] else []
  | byte :: rest =>
    let b := byte.toNat
    let fresh :=
      match lead b with
      | .inl c => c :: decodeFrom none rest
      | .inr p => decodeFrom (some p) rest
    match pending with
    | none => fresh
    | some p =>
      if p.low ≤ b ∧ b ≤ p.high then
        let bits := 64 * p.bits + b % 64
        if p.missing ≤ 1 then Char.ofNat bits :: decodeFrom none rest
        else decodeFrom (some { bits := bits, missing := p.missing - 1 }) rest
      else replacement :: fresh

def decode (bytes : List UInt8) : String := String.ofList (decodeFrom none bytes)

def encode (s : String) : List UInt8 := s.toUTF8.data.toList

end Effectful.Text.Utf8
