/-!
Decoding UTF-8, one byte at a time. A text is accepted only if its bytes are whole characters in
their shortest form.
-/

namespace Rulewright.Text

/-- Where a decoder stands inside a character: the bytes still owed, the least and greatest value
of the next one, and the bits read so far. -/
structure Pending where
  owed : Nat
  least : Nat
  greatest : Nat
  bits : Nat
  deriving Repr

def Pending.ofLead? (b : Nat) : Option Pending :=
  if 0xC2 ≤ b && b ≤ 0xDF then some ⟨1, 0x80, 0xBF, b - 0xC0⟩
  else if b == 0xE0 then some ⟨2, 0xA0, 0xBF, 0⟩
  else if b == 0xED then some ⟨2, 0x80, 0x9F, 0xD⟩
  else if 0xE1 ≤ b && b ≤ 0xEF then some ⟨2, 0x80, 0xBF, b - 0xE0⟩
  else if b == 0xF0 then some ⟨3, 0x90, 0xBF, 0⟩
  else if 0xF1 ≤ b && b ≤ 0xF3 then some ⟨3, 0x80, 0xBF, b - 0xF0⟩
  else if b == 0xF4 then some ⟨3, 0x80, 0x8F, 4⟩
  else none

structure Undecodable where
  byte : Nat
  first : Nat
  last : Nat
  reason : String
  deriving DecidableEq, Repr

def Undecodable.words (u : Undecodable) : String :=
  let place :=
    if u.first = u.last then "byte 0x" ++ String.ofList (Nat.toDigits 16 u.byte) ++ " in position " ++ toString u.first
    else "bytes in position " ++ toString u.first ++ "-" ++ toString u.last
  "'utf-8' codec can't decode " ++ place ++ ": " ++ u.reason

inductive Decoded where
  | text (s : String)
  | fault (u : Undecodable)
  deriving DecidableEq, Repr, Inhabited

structure Begun where
  lead : Nat
  place : Nat
  pending : Pending
  deriving Repr

/-- Decodes bytes; `place` counts those before them, and `done` holds the characters so far, newest
first. -/
def decodeFrom (done : List Char) (place : Nat) : Option Begun → List UInt8 → Decoded
  | none, [] => .text (String.ofList done.reverse)
  | some b, [] => .fault ⟨b.lead, b.place, place - 1, "unexpected end of data"⟩
  | none, byte :: rest =>
    let n := byte.toNat
    if n < 0x80 then decodeFrom (Char.ofNat n :: done) (place + 1) none rest
    else
      match Pending.ofLead? n with
      | some p => decodeFrom done (place + 1) (some ⟨n, place, p⟩) rest
      | none => .fault ⟨n, place, place, "invalid start byte"⟩
  | some b, byte :: rest =>
    let n := byte.toNat
    if b.pending.least ≤ n && n ≤ b.pending.greatest then
      let bits := b.pending.bits * 64 + (n - 0x80)
      if b.pending.owed ≤ 1 then decodeFrom (Char.ofNat bits :: done) (place + 1) none rest
      else decodeFrom done (place + 1) (some { b with pending := ⟨b.pending.owed - 1, 0x80, 0xBF, bits⟩ }) rest
    else .fault ⟨b.lead, b.place, place - 1, "invalid continuation byte"⟩

def decode (bytes : List UInt8) : Decoded := decodeFrom [] 0 none bytes

end Rulewright.Text
