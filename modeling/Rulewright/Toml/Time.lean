import Rulewright.Number.Places
import Rulewright.Failure
import Rulewright.Text.Digits

/-!
Days and times in a document. A time has a fixed form. A day, or a day with a time, is told by the places
of its numbers; what stands between them is not looked at.
-/

namespace Rulewright.Toml

def slice (a b : Nat) (cs : List Char) : List Char := (cs.take b).drop a

def clockParts? : List Char → Option (Nat × Nat × Nat × Nat)
  | a :: b :: ':' :: c :: d :: ':' :: e :: f :: rest =>
    if [a, b, c, d, e, f].all Char.isDigit then
      let fraction : List Char :=
        match rest with
        | '.' :: more => (more.takeWhile Char.isDigit).take 6
        | _ => []
      some (Text.digitsValue [a, b], Text.digitsValue [c, d], Text.digitsValue [e, f],
        if fraction.length < 3 then 0 else Text.digitsValue fraction)
    else none
  | _ => none

def ahead? (cs : List Char) : Option Int :=
  if cs == ['Z'] then some 0
  else do
    let hours ← Text.wholeNumber? (slice 1 3 cs)
    let minutes ← Text.wholeNumber? (slice 4 6 cs)
    return (if cs.head? == some '-' then -1 else 1) * (hours * 60 + minutes)

def micros (n : Int) (digits : Nat) : Except Failure Int :=
  if digits ≤ 6 then .ok (n * Nat.pow 10 (6 - digits))
  else
    match Double.ofInt n, Double.ofDecimal false 1 (6 - (digits : Int)) with
    | .finite negative m e, .finite _ m' e' =>
      let (num, den) := Double.ratio m e
      let (num', den') := Double.ratio m' e'
      .ok (((Double.ofRatio negative (num * num') (den * den')).truncate?).getD 0)
    | _, _ => .error (.overflow "int too large to convert to float")

def fractionParts (v : List Char) : List Char × Option (List Char) :=
  let rest := v.drop 20
  if rest.getLast?.any (·.toUpper == 'Z') then (rest.dropLast, some ['Z'])
  else
    let sign := if rest.contains '+' then '+' else '-'
    if rest.contains sign then (rest.takeWhile (· != sign), some (rest.dropWhile (· != sign))) else (rest, none)

/-- Millionths of a second and minutes ahead of universal time, after the seconds. What cannot be read is
left out. -/
def precision (v : List Char) : Except Failure (Int × Option Int) :=
  if v.length ≤ 19 then .ok (0, none)
  else if (v.drop 19).head? == some '.' then
    let (fraction, rest) := fractionParts v
    let ahead := rest.map ahead?
    match ahead, Text.wholeNumber? fraction with
    | some none, _ => .ok (0, none)
    | _, none => .ok (0, none)
    | ahead, some n => do return (← micros n fraction.length, ahead.join)
  else .ok (0, ahead? (v.drop 19))

def readDay (v : List Char) : Except Failure (Option Moment) := do
  let (micro, ahead) ← precision v
  if !(v.drop 1).contains '-' then return none
  let number (a b : Nat) : Option Int := Text.wholeNumber? (slice a b v)
  let day : Option Day := do Day.ofNumbers? (← number 0 4) (← number 5 7) (← number 8 10)
  if v.length == 10 then return day.map .day
  else
    return do
      let day ← day
      let clock ← (Clock.ofNumbers (← number 11 13) (← number 14 16) (← number 17 19) micro).toOption
      return .both day clock ahead

end Rulewright.Toml
