import Rulewright.Number.Shortest

/-!
Days and times of day, as a document may give them, and their texts. A time of a day can say how far it
is ahead of universal time.
-/

namespace Rulewright

structure Day where
  year : Nat
  month : Nat
  day : Nat
  deriving DecidableEq, Repr

structure Clock where
  hour : Nat
  minute : Nat
  second : Nat
  micro : Nat
  deriving DecidableEq, Repr

inductive Moment where
  | day (d : Day)
  | clock (c : Clock)
  | both (d : Day) (c : Clock) (ahead : Option Int)
  deriving DecidableEq, Repr

def isLeapYear (year : Nat) : Bool := year % 4 == 0 && (year % 100 != 0 || year % 400 == 0)

def daysOfMonth (year month : Nat) : Nat :=
  if month == 2 then (if isLeapYear year then 29 else 28)
  else if [4, 6, 9, 11].contains month then 30
  else 31

def Day.ofNumbers? (year month day : Int) : Option Day :=
  if 1 ≤ year && year ≤ 9999 && 1 ≤ month && month ≤ 12 && 1 ≤ day &&
      day ≤ daysOfMonth year.toNat month.toNat then
    some ⟨year.toNat, month.toNat, day.toNat⟩
  else none

def Clock.ofNumbers (hour minute second micro : Int) : Except String Clock :=
  if hour < 0 || 23 < hour then .error "hour must be in 0..23"
  else if minute < 0 || 59 < minute then .error "minute must be in 0..59"
  else if second < 0 || 59 < second then .error "second must be in 0..59"
  else if micro < 0 || 999999 < micro then .error "microsecond must be in 0..999999"
  else .ok ⟨hour.toNat, minute.toNat, second.toNat, micro.toNat⟩

def padded (width n : Nat) : String := padZeros width (toString n)

def Day.text (d : Day) : String := padded 4 d.year ++ "-" ++ padded 2 d.month ++ "-" ++ padded 2 d.day

def Clock.text (c : Clock) : String :=
  padded 2 c.hour ++ ":" ++ padded 2 c.minute ++ ":" ++ padded 2 c.second ++
    if c.micro == 0 then "" else "." ++ padded 6 c.micro

def aheadText (minutes : Int) : String :=
  (if minutes < 0 then "-" else "+") ++ padded 2 (minutes.natAbs / 60) ++ ":" ++ padded 2 (minutes.natAbs % 60)

namespace Moment

def isNear : Moment → Bool
  | .both _ _ (some ahead) => ahead.natAbs < 1440
  | _ => true

def text (between : String) : Moment → String
  | .day d => d.text
  | .clock c => c.text
  | .both d c ahead => d.text ++ between ++ c.text ++ (ahead.map aheadText).getD ""

def clockNumbers (c : Clock) : List Nat :=
  [c.hour, c.minute] ++
    if c.micro != 0 then [c.second, c.micro] else if c.second != 0 then [c.second] else []

def written : Moment → String
  | .day d => "datetime.date(" ++ numbers [d.year, d.month, d.day] ++ ")"
  | .clock c => "datetime.time(" ++ numbers (clockNumbers c) ++ ")"
  | .both d c _ => "datetime.datetime(" ++ numbers ([d.year, d.month, d.day] ++ clockNumbers c) ++ ")"
where
  numbers (ns : List Nat) : String := ", ".intercalate (ns.map toString)

end Moment
end Rulewright
