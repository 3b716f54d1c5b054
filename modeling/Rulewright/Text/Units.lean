/-!
The order of texts by their UTF-16 code units, which differs from the order by code point above
the surrogates.
-/

namespace Rulewright.Text

def units (c : Char) : List Nat :=
  let n := c.toNat
  if n < 0x10000 then [n] else [0xD800 + (n - 0x10000) / 0x400, 0xDC00 + (n - 0x10000) % 0x400]

def unitsOf (s : String) : List Nat := s.toList.flatMap units

def notAfter : List Nat → List Nat → Bool
  | [], _ => true
  | _ :: _, [] => false
  | a :: as, b :: bs => a < b || (a == b && notAfter as bs)

def unitsLE (s t : String) : Bool := notAfter (unitsOf s) (unitsOf t)

end Rulewright.Text
