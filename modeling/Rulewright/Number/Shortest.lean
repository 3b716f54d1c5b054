import Rulewright.Number.Double

/-!
The decimal text of a floating-point number: the fewest digits that read back as the same number
and, among those, the nearest. How the digits are laid out is a `NumberFormat`.
-/

namespace Rulewright

structure Decimal where
  digits : Nat
  power : Int
  deriving DecidableEq, Repr, Inhabited

/-- The reals that round to a number: `low` to `high` around `value`, all over `den`; the ends belong
to it when `closed`. -/
structure RoundingInterval where
  low : Nat
  value : Nat
  high : Nat
  den : Nat
  closed : Bool
  deriving Repr

namespace RoundingInterval

def ofFinite (significand : Nat) (exponent : Int) : RoundingInterval :=
  -- just below a power of two the neighbours stand half as far apart
  let narrow := significand == Nat.pow 2 52 && Double.leastExponent < exponent
  let below := if narrow then 1 else 2
  let unit := if 0 ≤ exponent then Nat.pow 2 exponent.toNat else 1
  let den := if 0 ≤ exponent then 4 else 4 * Nat.pow 2 (-exponent).toNat
  { low := (4 * significand - below) * unit
    value := 4 * significand * unit
    high := (4 * significand + 2) * unit
    den
    closed := significand % 2 == 0 }

def compare (i : RoundingInterval) (d : Decimal) : Nat × RoundingInterval :=
  if 0 ≤ d.power then (d.digits * Nat.pow 10 d.power.toNat * i.den, i)
  else
    let scale := Nat.pow 10 (-d.power).toNat
    (d.digits * i.den, { i with low := i.low * scale, value := i.value * scale, high := i.high * scale })

def contains (i : RoundingInterval) (d : Decimal) : Bool :=
  let (x, i) := i.compare d
  if i.closed then i.low ≤ x && x ≤ i.high else i.low < x && x < i.high

def distance (i : RoundingInterval) (d : Decimal) : Nat × Nat :=
  let (x, i) := i.compare d
  (if x < i.value then i.value - x else x - i.value,
    if 0 ≤ d.power then i.den else i.den * Nat.pow 10 (-d.power).toNat)

def leadingPower (i : RoundingInterval) : Int :=
  if i.den ≤ i.value then ((toString (i.value / i.den)).length : Int) - 1
  else
    let rec search : Nat → Nat → Int
      | 0, shift => -(shift : Int)
      | fuel + 1, shift => if i.den ≤ i.value * Nat.pow 10 shift then -(shift : Int) else search fuel (shift + 1)
    search 400 1

def neighbours (i : RoundingInterval) (power : Int) : Decimal × Decimal :=
  let floor :=
    if 0 ≤ power then i.value / (i.den * Nat.pow 10 power.toNat) else i.value * Nat.pow 10 (-power).toNat / i.den
  ({ digits := floor, power }, { digits := floor + 1, power })

def onGrid (i : RoundingInterval) (power : Int) : Option Decimal :=
  let (below, above) := i.neighbours power
  match i.contains below, i.contains above with
  | false, false => none
  | true, false => some below
  | false, true => some above
  | true, true =>
    let (nearBelow, _) := i.distance below
    let (nearAbove, _) := i.distance above
    if nearBelow < nearAbove then some below
    else if nearAbove < nearBelow then some above
    else if below.digits % 2 == 0 then some below else some above

def shortest (i : RoundingInterval) : Decimal :=
  let lead := i.leadingPower
  ((List.range 17).findSome? fun (n : Nat) => i.onGrid (lead - (n : Int))).getD { digits := i.value, power := 0 }

end RoundingInterval

structure NumberFormat where
  least : Int
  greatest : Int
  pointZero : Bool
  exponentWidth : Nat
  signedZero : Bool
  infinity : String
  notANumber : String

def Decimal.normal (d : Decimal) : String × Int :=
  let text := toString d.digits
  let lead := d.power + ((text.length : Int) - 1)
  let kept := String.ofList (text.toList.reverse.dropWhile (· == '0')).reverse
  (if kept.isEmpty then "0" else kept, lead)

def padZeros (width : Nat) (text : String) : String :=
  String.ofList (List.replicate (width - text.length) '0') ++ text

def NumberFormat.unsigned (f : NumberFormat) (digits : String) (lead : Int) : String :=
  if f.least ≤ lead && lead ≤ f.greatest then
    if lead < 0 then "0." ++ String.ofList (List.replicate (-lead - 1).toNat '0') ++ digits
    else
      let whole := lead.toNat + 1
      let cs := digits.toList
      let front := cs.take whole ++ List.replicate (whole - cs.length) '0'
      let back := cs.drop whole
      if back.isEmpty then String.ofList front ++ (if f.pointZero then ".0" else "")
      else String.ofList front ++ "." ++ String.ofList back
  else
    let cs := digits.toList
    let mantissa :=
      if cs.length ≤ 1 then digits
      else String.ofList (cs.take 1) ++ "." ++ String.ofList (cs.drop 1)
    let exponent := padZeros f.exponentWidth (toString lead.natAbs)
    mantissa ++ (if lead < 0 then "e-" else "e+") ++ exponent

def Double.render (f : NumberFormat) : Double → String
  | .nan => f.notANumber
  | .infinite negative => (if negative then "-" else "") ++ f.infinity
  | .finite negative significand exponent =>
    if significand = 0 then
      (if negative && f.signedZero then "-" else "") ++ f.unsigned "0" 0
    else
      let (digits, lead) := (RoundingInterval.ofFinite significand exponent).shortest.normal
      (if negative then "-" else "") ++ f.unsigned digits lead

def NumberFormat.pointed : NumberFormat :=
  { least := -4, greatest := 15, pointZero := true, exponentWidth := 2, signedZero := true,
    infinity := "inf", notANumber := "nan" }

def NumberFormat.plain : NumberFormat :=
  { least := -6, greatest := 20, pointZero := false, exponentWidth := 1, signedZero := false,
    infinity := "Infinity", notANumber := "NaN" }

end Rulewright
