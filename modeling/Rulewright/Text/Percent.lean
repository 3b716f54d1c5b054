import Rulewright.Json.Reader
import Rulewright.Number.Places
import Rulewright.Value.Compare

/-!
Filling values into a text at percent signs. Between the sign and its letter may stand a key, flags, a
width and a precision; the letter tells what the value is filled in as.
-/

namespace Rulewright.Text

structure Slot where
  left : Bool := false
  plus : Bool := false
  blank : Bool := false
  alternate : Bool := false
  zero : Bool := false
  width : Nat := 0
  precision : Option Nat := none
  deriving DecidableEq, Repr

structure Supply where
  values : List Value
  table : Option Value := none

def Supply.next (u : Supply) : Except Failure (Value × Supply) :=
  match u.values with
  | v :: rest => .ok (v, { u with values := rest })
  | [] => .error (.wrongArguments "not enough arguments for format string")

def keyText (depth : Nat) (key : List Char) : List Char → Option (List Char × List Char)
  | [] => none
  | c :: rest =>
    if c == ')' && depth == 0 then some (key.reverse, rest)
    else
      keyText (if c == '(' then depth + 1 else if c == ')' then depth - 1 else depth) (c :: key) rest

def Supply.keyed (u : Supply) : List Char → Except Failure (Supply × List Char)
  | '(' :: rest =>
    match u.table with
    | none => .error (.wrongArguments "format requires a mapping")
    | some table =>
      match keyText 0 [] rest with
      | none => .error (.badValue "incomplete format key")
      | some (key, after) => do
        let v ← table.demand (String.ofList key)
        return ({ u with values := [v] }, after)
  | cs => .ok (u, cs)

def flags (s : Slot) : List Char → Slot × List Char
  | '-' :: rest => flags { s with left := true } rest
  | '+' :: rest => flags { s with plus := true } rest
  | ' ' :: rest => flags { s with blank := true } rest
  | '#' :: rest => flags { s with alternate := true } rest
  | '0' :: rest => flags { s with zero := true } rest
  | cs => (s, cs)

def Supply.measure (u : Supply) (bound : Nat) : Except Failure (Int × Supply) := do
  let (v, u) ← u.next
  match v with
  | .int n => if bound ≤ n.natAbs then throw (.overflow "int too large to convert") else return (n, u)
  | .bool b => return (if b then 1 else 0, u)
  | _ => throw (.wrongArguments "* wants int")

def boundedDigits (bound : Nat) (words : String) (cs : List Char) : Except Failure (Nat × List Char) :=
  let digits := cs.takeWhile Json.isDigit
  let n := Json.digitsOf digits
  if bound ≤ n then .error (.badValue words) else .ok (n, cs.drop digits.length)

def widthBound : Nat := Nat.pow 2 63

def precisionBound : Nat := Nat.pow 2 31

def Slot.readWidth (s : Slot) (u : Supply) : List Char → Except Failure (Slot × Supply × List Char)
  | '*' :: rest => do
    let (n, u) ← u.measure widthBound
    return ({ s with left := s.left || n < 0, width := n.natAbs }, u, rest)
  | cs => do
    let (width, rest) ← boundedDigits widthBound "width too big" cs
    return ({ s with width }, u, rest)

def Slot.readPrecision (s : Slot) (u : Supply) : List Char → Except Failure (Slot × Supply × List Char)
  | '.' :: '*' :: rest => do
    let (n, u) ← u.measure precisionBound
    return ({ s with precision := some n.toNat }, u, rest)
  | '.' :: rest => do
    let (n, rest) ← boundedDigits precisionBound "precision too big" rest
    return ({ s with precision := some n }, u, rest)
  | cs => .ok (s, u, cs)

def dropSize : List Char → List Char
  | c :: rest => if c == 'h' || c == 'l' || c == 'L' then rest else c :: rest
  | [] => []

def Supply.slot (u : Supply) (cs : List Char) : Except Failure (Slot × Supply × List Char) := do
  let (u, cs) ← u.keyed cs
  let (s, cs) := flags {} cs
  let (s, u, cs) ← s.readWidth u cs
  let (s, u, cs) ← s.readPrecision u cs
  return (s, u, dropSize cs)

def spaces (n : Nat) : String := String.ofList (List.replicate n ' ')

def Slot.inWidth (s : Slot) (t : String) : String :=
  if s.left then t ++ spaces (s.width - t.length) else spaces (s.width - t.length) ++ t

def Slot.text (s : Slot) (t : String) : String :=
  s.inWidth (match s.precision with
    | some n => String.ofList (t.toList.take n)
    | none => t)

def Slot.signed (s : Slot) (negative : Bool) (base digits : String) : String :=
  let front := (if negative then "-" else if s.plus then "+" else if s.blank then " " else "") ++ base
  if s.zero && !s.left then front ++ padZeros (s.width - front.length) digits else s.inWidth (front ++ digits)

def Slot.whole (s : Slot) (base : Nat) (mark : String) (n : Int) : String :=
  s.signed (n < 0) (if s.alternate then mark else "")
    (padZeros (s.precision.getD 0) (String.ofList (Nat.toDigits base n.natAbs)))

def Slot.real (s : Slot) (layout : DigitLayout) (x : Double) : String :=
  s.signed x.isNegative "" (x.layOut layout (s.precision.getD 6) s.alternate)

def wholeNumber (letter : Char) : Value → Except Failure Int
  | .int n => .ok n
  | .bool b => .ok (if b then 1 else 0)
  | .real .nan => .error (.badValue "cannot convert float NaN to integer")
  | .real x =>
    match x.truncate? with
    | some n => .ok n
    | none => .error (.overflow "cannot convert float infinity to integer")
  | v => .error (.wrongArguments
      ("%" ++ String.singleton letter ++ " format: a real number is required, not " ++ v.shape.name))

def integer (letter : Char) : Value → Except Failure Int
  | .int n => .ok n
  | .bool b => .ok (if b then 1 else 0)
  | v => .error (.wrongArguments
      ("%" ++ String.singleton letter ++ " format: an integer is required, not " ++ v.shape.name))

def realNumber : Value → Except Failure Double
  | .real x => .ok x
  | .bool b => .ok (.ofInt (if b then 1 else 0))
  | .int n =>
    match Double.ofInt n with
    | .infinite _ => .error (.overflow "int too large to convert to float")
    | x => .ok x
  | v => .error (.wrongArguments ("must be real number, not " ++ v.shape.name))

def character : Value → Except Failure String
  | .str s => if s.length == 1 then .ok s else .error (.wrongArguments "%c requires int or char")
  | .int n => ofPoint n
  | .bool b => ofPoint (if b then 1 else 0)
  | _ => .error (.wrongArguments "%c requires int or char")
where
  ofPoint (n : Int) : Except Failure String :=
    if n < 0 || 0x110000 ≤ n then .error (.overflow "%c arg not in range(0x110000)")
    else .ok (String.singleton (Char.ofNat n.toNat))

def asciiOnly (s : String) : String :=
  String.join (s.toList.map fun c => if c.toNat < 0x80 then String.singleton c else escapeOf c)

def unsupported (letter : Char) (place : Nat) : Failure :=
  let shown := if 31 ≤ letter.toNat && letter.toNat ≤ 126 then letter else '?'
  .badValue ("unsupported format character '" ++ String.singleton shown ++ "' (0x" ++
    String.ofList (Nat.toDigits 16 letter.toNat) ++ ") at index " ++ toString place)

def upper (s : String) : String := String.ofList (s.toList.map Char.toUpper)

def Slot.fill (s : Slot) (letter : Char) (place : Nat) (v : Value) : Except Failure String := do
  match letter with
  | 's' => return s.text v.shown
  | 'r' => return s.text v.written
  | 'a' => return s.text (asciiOnly v.written)
  | 'c' => return s.inWidth (← character v)
  | 'd' => return s.whole 10 "" (← wholeNumber letter v)
  | 'i' => return s.whole 10 "" (← wholeNumber letter v)
  | 'u' => return s.whole 10 "" (← wholeNumber letter v)
  | 'o' => return s.whole 8 "0o" (← integer letter v)
  | 'x' => return s.whole 16 "0x" (← integer letter v)
  | 'X' => return upper (s.whole 16 "0x" (← integer letter v))
  | 'e' => return s.real .scientific (← realNumber v)
  | 'E' => return upper (s.real .scientific (← realNumber v))
  | 'f' => return s.real .fixed (← realNumber v)
  | 'F' => return upper (s.real .fixed (← realNumber v))
  | 'g' => return s.real .general (← realNumber v)
  | 'G' => return upper (s.real .general (← realNumber v))
  | letter => throw (unsupported letter place)

/-- Fills in the values; `place` counts the characters read. Every step reads a character, so the length
of the text is enough fuel. -/
def fillFrom : Nat → Nat → Supply → List Char → Except Failure (List Char)
  | 0, _, _, _ => .ok []
  | _ + 1, _, u, [] =>
    if u.values.isEmpty || u.table.isSome then .ok []
    else .error (.wrongArguments "not all arguments converted during string formatting")
  | fuel + 1, place, u, '%' :: '%' :: rest => do return '%' :: (← fillFrom fuel (place + 2) u rest)
  | fuel + 1, place, u, '%' :: rest => do
    let (s, u, after) ← u.slot rest
    match after with
    | [] => throw (.badValue "incomplete format")
    | letter :: after =>
      let (v, u) ← u.next
      let next := place + 1 + (rest.length - after.length)
      return (← s.fill letter (next - 1) v).toList ++ (← fillFrom fuel next u after)
  | fuel + 1, place, u, c :: rest => do return c :: (← fillFrom fuel (place + 1) u rest)

def fill (text : String) (values : List Value) : Except Failure String := do
  let u : Supply :=
    match values with
    | [.dict (e :: rest)] => { values, table := some (.dict (e :: rest)) }
    | values => { values }
  return String.ofList (← fillFrom (text.length + 1) 0 u text.toList)

end Rulewright.Text
