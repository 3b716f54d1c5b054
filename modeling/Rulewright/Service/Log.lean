import Rulewright.Text.Percent

/-!
Lines of the log: time, name, level, message and place, in a colour that tells the level.
-/

namespace Rulewright.Service

structure Record where
  name : Value
  level : Value
  path : Value
  line : Value
  message : Value
  arguments : List Value
  created : Value
  milliseconds : Value

def levelStyle : Int → Option (String × String)
  | 10 => some ("DEBUG", "\x1b[32m")
  | 20 => some ("INFO", "\x1b[34m")
  | 30 => some ("WARNING", "\x1b[33m")
  | 40 => some ("ERROR", "\x1b[31m")
  | 50 => some ("CRITICAL", "\x1b[1m\x1b[31m")
  | _ => none

/-- A day by its number since the first of January 1970: year, month and day. The year is counted from
March, so that a leap day comes last. -/
def dayOf (days : Int) : Int × Int × Int :=
  let z := days + 719468
  let era := z / 146097
  let dayOfEra := z % 146097
  let yearOfEra := (dayOfEra - dayOfEra / 1460 + dayOfEra / 36524 - dayOfEra / 146096) / 365
  let dayOfYear := dayOfEra - (365 * yearOfEra + yearOfEra / 4 - yearOfEra / 100)
  let month := (5 * dayOfYear + 2) / 153
  let day := dayOfYear - (153 * month + 2) / 5 + 1
  let year := yearOfEra + era * 400
  if month < 10 then (year, month + 3, day) else (year + 1, month - 9, day)

def twoDigits (n : Int) : String := padZeros 2 (toString n)

def firstSecond : Int := -67768040609740800

def lastSecond : Int := 67768036191676799

def timeText (seconds : Int) : Except Failure String :=
  if seconds < -(Nat.pow 2 63 : Int) || (Nat.pow 2 63 : Int) ≤ seconds then
    .error (.overflow "timestamp out of range for platform time_t")
  else if seconds < firstSecond || lastSecond < seconds then
    .error (.system "Value too large for defined data type")
  else
    let (year, month, day) := dayOf (seconds / 86400)
    let rest := seconds % 86400
    if (Nat.pow 2 31 : Int) ≤ year then .error (.overflow "year out of range")
    else .ok (toString year ++ "-" ++ twoDigits month ++ "-" ++ twoDigits day ++ " " ++
      twoDigits (rest / 3600) ++ ":" ++ twoDigits (rest / 60 % 60) ++ ":" ++ twoDigits (rest % 60))

def wholeSecond : Value → Except Failure Int
  | .int n => .ok n
  | .bool b => .ok (if b then 1 else 0)
  | .real .nan => .error (.badValue "Invalid value NaN (not a number)")
  | .real (.infinite _) => .error (.overflow "timestamp out of range for platform time_t")
  | .real (.finite negative significand exponent) =>
    let signed : Int := if negative then -(significand : Int) else significand
    .ok (if 0 ≤ exponent then signed * Nat.pow 2 exponent.toNat else signed.fdiv (Nat.pow 2 (-exponent).toNat))
  | v => .error (.wrongArguments ("'" ++ v.shape.name ++ "' object cannot be interpreted as an integer"))

def lineFormat : String := "%(time)s - %(name)s - %(level)s - %(message)s (%(file)s:%(line)d)"

namespace Record

def text (r : Record) : Except Failure String :=
  if r.arguments.isEmpty then .ok r.message.shown else Text.fill r.message.shown r.arguments

def file (r : Record) : Value :=
  match r.path with
  | .str path => .str ((Text.splitAt path "/").getLast?.getD "")
  | v => v

def style (r : Record) : Except Failure (Option (String × String)) :=
  match r.level with
  | .list _ => .error (.unhashable .list)
  | .dict _ => .error (.unhashable .dict)
  | v => .ok (v.integer?.bind levelStyle)

def format (r : Record) : Except Failure String := do
  let style ← r.style
  let text ← r.text
  match style with
  | none => return text
  | some (level, colour) =>
    let time ← Text.fill "%s,%03d" [.str (← timeText (← wholeSecond r.created)), r.milliseconds]
    let line ← Text.fill lineFormat [.dict [("time", .str time), ("name", r.name), ("level", .str level),
      ("message", .str text), ("file", r.file), ("line", r.line)]]
    return colour ++ line ++ "\x1b[0m"

end Record

structure Logging where
  level : Int
  formats : List (Option String)
  deriving DecidableEq, Repr

def plainFormat : String :=
  "%(levelname)s %(name)s %(asctime)-15s %(filename)s:%(lineno)d %(message)s"

def Logging.enable (l : Logging) : Logging :=
  { level := 10, formats := if l.formats.isEmpty then [some plainFormat] else l.formats }

def Logging.enableTimes : Nat → Logging → Logging
  | 0, l => l
  | n + 1, l => l.enable.enableTimes n

end Rulewright.Service
