import Rulewright.Text.Units
import Rulewright.Value.Basic

/-!
Writing data as JSON text. A `Layout` says how items and keys are set apart, how numbers look and
whether characters outside ASCII are escaped.
-/

namespace Rulewright.Json

structure Layout where
  item : String
  key : String
  ascii : Bool
  number : NumberFormat

def spaced : Layout :=
  { item := ", ", key := ": ", ascii := true
    number := { NumberFormat.pointed with infinity := "Infinity", notANumber := "NaN" } }

def compact : Layout := { item := ",", key := ":", ascii := false, number := .plain }

def hexText (n : Nat) : String :=
  let digits := Nat.toDigits 16 n
  String.ofList (List.replicate (4 - digits.length) '0' ++ digits)

def escapeChar (ascii : Bool) (c : Char) : String :=
  match c with
  | '"' => "\\\""
  | '\\' => "\\\\"
  | '\n' => "\\n"
  | '\r' => "\\r"
  | '\t' => "\\t"
  | '\x08' => "\\b"
  | '\x0c' => "\\f"
  | c =>
    if c.toNat < 0x20 || (ascii && 0x7E < c.toNat) then
      String.join ((Text.units c).map fun u => "\\u" ++ hexText u)
    else String.singleton c

def quoted (ascii : Bool) (s : String) : String :=
  "\"" ++ String.join (s.toList.map (escapeChar ascii)) ++ "\""

mutual

def render (l : Layout) : Value → String
  | .null => "null"
  | .bool b => if b then "true" else "false"
  | .int n => toString n
  | .real x => x.render l.number
  | .str s => quoted l.ascii s
  | .moment m => quoted l.ascii (m.text "T")
  | .list items => "[" ++ renderItems l items ++ "]"
  | .dict entries => "\x7b" ++ renderEntries l entries ++ "\x7d"

def renderItems (l : Layout) : List Value → String
  | [] => ""
  | [v] => render l v
  | v :: rest => render l v ++ l.item ++ renderItems l rest

def renderEntries (l : Layout) : List (String × Value) → String
  | [] => ""
  | [(k, v)] => quoted l.ascii k ++ l.key ++ render l v
  | (k, v) :: rest => quoted l.ascii k ++ l.key ++ render l v ++ l.item ++ renderEntries l rest

end

end Rulewright.Json
