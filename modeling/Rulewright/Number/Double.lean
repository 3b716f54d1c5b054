/-!
Floating-point numbers of 64 bits as plain data, and the rounding of an exact ratio to the nearest
of them. Everything is computed on natural numbers, so a result is a term one can reason about.
-/

namespace Rulewright

inductive Double where
  | finite (negative : Bool) (significand : Nat) (exponent : Int)
  | infinite (negative : Bool)
  | nan
  deriving DecidableEq, Repr, Inhabited

namespace Double

def leastExponent : Int := -1074

def greatestExponent : Int := 971

def zero (negative : Bool) : Double := .finite negative 0 leastExponent

def roundDiv (num den : Nat) : Nat :=
  let quotient := num / den
  let twice := 2 * (num % den)
  if twice < den then quotient
  else if den < twice then quotient + 1
  else quotient + quotient % 2

def scaled (num den : Nat) (exponent : Int) : Nat :=
  if exponent < 0 then roundDiv (num * Nat.pow 2 (-exponent).toNat) den
  else roundDiv num (den * Nat.pow 2 exponent.toNat)

def ofRatio (negative : Bool) (num den : Nat) : Double :=
  if num = 0 ∨ den = 0 then zero negative
  else
    -- the quotient lies strictly between 2 ^ 51 and 2 ^ 53 at this exponent
    let guess : Int := (Nat.log2 num : Int) - (Nat.log2 den : Int) - 52
    let tooLarge : Bool :=
      if guess < 0 then num * Nat.pow 2 (-guess).toNat < Nat.pow 2 52 * den
      else num < Nat.pow 2 52 * den * Nat.pow 2 guess.toNat
    let exponent := max (if tooLarge then guess - 1 else guess) leastExponent
    let significand := scaled num den exponent
    let (significand, exponent) :=
      if significand = Nat.pow 2 53 then (Nat.pow 2 52, exponent + 1) else (significand, exponent)
    if greatestExponent < exponent then .infinite negative
    else .finite negative significand exponent

def ofDecimal (negative : Bool) (digits : Nat) (power : Int) : Double :=
  -- past these powers every non-zero decimal of the given length overflows or vanishes
  let length : Int := Nat.log2 digits
  if digits = 0 then zero negative
  else if 400 < power then .infinite negative
  else if power < -400 - length then zero negative
  else if power < 0 then ofRatio negative digits (Nat.pow 10 (-power).toNat)
  else ofRatio negative (digits * Nat.pow 10 power.toNat) 1

def ofInt (n : Int) : Double := ofRatio (n < 0) n.natAbs 1

def isZero : Double → Bool
  | .finite _ significand _ => significand == 0
  | _ => false

def toInt? : Double → Option Int
  | .finite negative significand exponent =>
    let magnitude : Option Nat :=
      if 0 ≤ exponent then some (significand * Nat.pow 2 exponent.toNat)
      else if significand % Nat.pow 2 (-exponent).toNat = 0 then some (significand / Nat.pow 2 (-exponent).toNat)
      else none
    magnitude.map fun m => if negative then -(m : Int) else m
  | _ => none

def ceil : Double → Nat
  | .finite true _ _ => 0
  | .finite false significand exponent =>
    if 0 ≤ exponent then significand * Nat.pow 2 exponent.toNat
    else (significand + (Nat.pow 2 (-exponent).toNat - 1)) / Nat.pow 2 (-exponent).toNat
  | _ => 0

def ltInt : Double → Int → Bool
  | .finite negative significand exponent, n =>
    let signed : Int := if negative then -(significand : Int) else significand
    if 0 ≤ exponent then signed * Nat.pow 2 exponent.toNat < n
    else signed < n * Nat.pow 2 (-exponent).toNat
  | .infinite negative, _ => negative
  | .nan, _ => false

def gtInt : Double → Int → Bool
  | .finite negative significand exponent, n =>
    let signed : Int := if negative then -(significand : Int) else significand
    if 0 ≤ exponent then n < signed * Nat.pow 2 exponent.toNat
    else n * Nat.pow 2 (-exponent).toNat < signed
  | .infinite negative, _ => !negative
  | .nan, _ => false

end Double
end Rulewright
