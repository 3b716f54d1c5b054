import Rulewright.Number.Shortest

/-!
Decimal texts of a given precision: so many places after the point, or so many digits and an
exponent. The digits are those of the exact value, rounded once; a half goes to the even neighbour.
-/

namespace Rulewright

inductive DigitLayout where
  | fixed
  | scientific
  | general
  deriving DecidableEq, Repr

namespace Double

def ratio (significand : Nat) (exponent : Int) : Nat × Nat :=
  if 0 ≤ exponent then (significand * Nat.pow 2 exponent.toNat, 1)
  else (significand, Nat.pow 2 (-exponent).toNat)

def roundTo (power : Int) (num den : Nat) : Nat :=
  if 0 ≤ power then roundDiv num (den * Nat.pow 10 power.toNat)
  else roundDiv (num * Nat.pow 10 (-power).toNat) den

def leadingDigits (places significand : Nat) (exponent : Int) : List Char × Int :=
  if significand = 0 then (List.replicate (places + 1) '0', 0)
  else
    let (num, den) := ratio significand exponent
    let lead := (RoundingInterval.ofFinite significand exponent).leadingPower
    let digits := roundTo (lead - places) num den
    if digits = Nat.pow 10 (places + 1) then (Nat.toDigits 10 (Nat.pow 10 places), lead + 1)
    else (Nat.toDigits 10 digits, lead)

def pointed (keepPoint : Bool) (front back : List Char) : List Char :=
  if back.isEmpty && !keepPoint then front else front ++ '.' :: back

def withExponent (keepPoint : Bool) (digits : List Char) (power : Int) : List Char :=
  pointed keepPoint (digits.take 1) (digits.drop 1) ++
    (if power < 0 then ['e', '-'] else ['e', '+']) ++ (padZeros 2 (toString power.natAbs)).toList

def withoutLastZeros (cs : List Char) : List Char := (cs.reverse.dropWhile (· == '0')).reverse

def layDigits (layout : DigitLayout) (places : Nat) (keepPoint : Bool) (significand : Nat) (exponent : Int) :
    List Char :=
  match layout with
  | .fixed =>
    let (num, den) := ratio significand exponent
    let digits := (padZeros (places + 1) (toString (roundTo (-places) num den))).toList
    pointed keepPoint (digits.take (digits.length - places)) (digits.drop (digits.length - places))
  | .scientific =>
    let (digits, power) := leadingDigits places significand exponent
    withExponent keepPoint digits power
  | .general =>
    let count := max places 1
    let (digits, power) := leadingDigits (count - 1) significand exponent
    let kept (cs : List Char) : List Char := if keepPoint then cs else withoutLastZeros cs
    if power < -4 || (count : Int) ≤ power then
      withExponent keepPoint (digits.take 1 ++ kept (digits.drop 1)) power
    else if power < 0 then pointed keepPoint ['0'] (kept (List.replicate (-power - 1).toNat '0' ++ digits))
    else pointed keepPoint (digits.take (power.toNat + 1)) (kept (digits.drop (power.toNat + 1)))

def layOut (layout : DigitLayout) (places : Nat) (keepPoint : Bool) : Double → String
  | .nan => "nan"
  | .infinite _ => "inf"
  | .finite _ significand exponent => String.ofList (layDigits layout places keepPoint significand exponent)

def isNegative : Double → Bool
  | .finite negative _ _ => negative
  | .infinite negative => negative
  | .nan => false

def truncate? : Double → Option Int
  | .finite negative significand exponent =>
    let (num, den) := ratio significand exponent
    let magnitude : Int := num / den
    some (if negative then -magnitude else magnitude)
  | _ => none

end Double
end Rulewright
