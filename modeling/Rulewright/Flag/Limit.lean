import Rulewright.Flag.Tree
import Rulewright.Json.Reader

/-!
The limit of rounds. A setting of any shape counts as a number: a text as the number it spells, a list
as its text, and what spells no number allows no round.
-/

namespace Rulewright.Flag

/-- White space around a number in a text: blanks and the byte order mark, but neither the information
separators nor the next-line character. -/
def isMargin (c : Char) : Bool :=
  c == '\ufeff' || (Text.isBlank c && !(28 ≤ c.toNat && c.toNat ≤ 31) && c.toNat != 0x85)

def wholeIn? (base : Nat) (cs : List Char) : Option Nat :=
  if cs.isEmpty then none
  else
    cs.foldlM (fun n c => do
      let digit ← Json.hexDigit? c
      if digit < base then some (n * base + digit) else none) 0

def exponent? : List Char → Option Int
  | [] => some 0
  | mark :: cs =>
    if mark == 'e' || mark == 'E' then
      match cs with
      | '+' :: digits => (wholeIn? 10 digits).map Int.ofNat
      | '-' :: digits => (wholeIn? 10 digits).map fun n => -(n : Int)
      | digits => (wholeIn? 10 digits).map Int.ofNat
    else none

def decimal? (negative : Bool) (cs : List Char) : Option Double :=
  let whole := cs.takeWhile Json.isDigit
  let rest := cs.dropWhile Json.isDigit
  let (fraction, rest) :=
    match rest with
    | '.' :: more => (more.takeWhile Json.isDigit, more.dropWhile Json.isDigit)
    | rest => ([], rest)
  if whole.isEmpty && fraction.isEmpty then none
  else
    (exponent? rest).map fun power =>
      .ofDecimal negative (Text.digitsValue (whole ++ fraction)) (power - fraction.length)

def magnitude? (negative : Bool) (cs : List Char) : Option Double :=
  if cs == "Infinity".toList then some (.infinite negative) else decimal? negative cs

def spelled? : List Char → Option Double
  | [] => some (.zero false)
  | '0' :: mark :: digits =>
    let base : Option Nat :=
      if mark == 'x' || mark == 'X' then some 16
      else if mark == 'o' || mark == 'O' then some 8
      else if mark == 'b' || mark == 'B' then some 2
      else none
    match base with
    | some base => (wholeIn? base digits).map fun n => .ofInt n
    | none => magnitude? false ('0' :: mark :: digits)
  | '+' :: cs => magnitude? false cs
  | '-' :: cs => magnitude? true cs
  | cs => magnitude? false cs

def spelledNumber (s : String) : Double :=
  let cs := s.toList.dropWhile isMargin
  (spelled? (cs.reverse.dropWhile isMargin).reverse).getD .nan

def numeric (v : Value) : Value :=
  match v with
  | .null => .int 0
  | .bool b => .int (if b then 1 else 0)
  | .int n => canonical (.int n)
  | .real x => canonical (.real x)
  | v => canonical (.real (spelledNumber (display v)))

def endless : Nat := Nat.pow 2 1024

def roundLimit (maxSteps : Option Value) : Nat :=
  match maxSteps.map numeric with
  | some (.int n) => n.toNat
  | some (.real (.infinite false)) => endless
  | some (.real x) => x.ceil
  | _ => 0

def isSingleRound (maxSteps : Option Value) : Bool := maxSteps.map numeric == some (.int 1)

end Rulewright.Flag
