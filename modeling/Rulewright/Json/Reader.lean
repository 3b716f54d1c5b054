import Rulewright.Text.Digits
import Rulewright.Value.Basic

/-!
Reading JSON text. A text that cannot be read is refused with the first problem and the place, in
characters, where it was noticed.
-/

namespace Rulewright.Json

inductive Problem where
  | value
  | propertyName
  | comma
  | colon
  | extraData
  | unterminated
  | control
  | escape
  | unicodeEscape
  | byteOrderMark
  | tooLong (digits : Nat)
  deriving DecidableEq, Repr

def Problem.message : Problem → String
  | .value => "Expecting value"
  | .propertyName => "Expecting property name enclosed in double quotes"
  | .comma => "Expecting ',' delimiter"
  | .colon => "Expecting ':' delimiter"
  | .extraData => "Extra data"
  | .unterminated => "Unterminated string starting at"
  | .control => "Invalid control character at"
  | .escape => "Invalid \\escape"
  | .unicodeEscape => "Invalid \\uXXXX escape"
  | .byteOrderMark => "Unexpected UTF-8 BOM (decode using utf-8-sig)"
  | .tooLong digits => Text.tooManyDigits digits

structure Error where
  problem : Problem
  place : Nat
  deriving DecidableEq, Repr

def Error.isLimit (e : Error) : Bool :=
  match e.problem with
  | .tooLong _ => true
  | _ => false

def Error.message (text : String) (e : Error) : String :=
  let before := text.toList.take e.place
  let line := before.count '\n' + 1
  let column := (before.reverse.takeWhile (· != '\n')).length + 1
  e.problem.message ++ ": line " ++ toString line ++ " column " ++ toString column ++
    " (char " ++ toString e.place ++ ")"

structure Cursor where
  rest : List Char
  place : Nat

def Cursor.isGap (c : Char) : Bool := c == ' ' || c == '\t' || c == '\n' || c == '\r'

def Cursor.skip (c : Cursor) (n : Nat) : Cursor := ⟨c.rest.drop n, c.place + n⟩

def Cursor.skipGaps (c : Cursor) : Cursor := c.skip (c.rest.takeWhile Cursor.isGap).length

def hexDigit? (c : Char) : Option Nat :=
  if '0' ≤ c && c ≤ '9' then some (c.toNat - '0'.toNat)
  else if 'a' ≤ c && c ≤ 'f' then some (c.toNat - 'a'.toNat + 10)
  else if 'A' ≤ c && c ≤ 'F' then some (c.toNat - 'A'.toNat + 10)
  else none

def hexFour? : List Char → Option Nat
  | a :: b :: c :: d :: _ => do
    let a ← hexDigit? a
    let b ← hexDigit? b
    let c ← hexDigit? c
    let d ← hexDigit? d
    return ((a * 16 + b) * 16 + c) * 16 + d
  | _ => none

def escaped? : Char → Option Char
  | '"' => some '"'
  | '\\' => some '\\'
  | '/' => some '/'
  | 'b' => some '\x08'
  | 'f' => some '\x0c'
  | 'n' => some '\n'
  | 'r' => some '\r'
  | 't' => some '\t'
  | _ => none

def ofUnit (n : Nat) : Char := if 0xD800 ≤ n && n ≤ 0xDFFF then '\ufffd' else Char.ofNat n

def readString (opening : Nat) : Nat → List Char → Cursor → Except Error (String × Cursor)
  | 0, _, _ => .error ⟨.unterminated, opening⟩
  | fuel + 1, done, c =>
    match c.rest with
    | [] => .error ⟨.unterminated, opening⟩
    | '"' :: _ => .ok (String.ofList done.reverse, c.skip 1)
    | ['\\'] => .error ⟨.unterminated, opening⟩
    | '\\' :: 'u' :: digits =>
      if (digits.drop 4).isEmpty then .error ⟨.unicodeEscape, c.place + 1⟩
      else
        match hexFour? digits with
        | none => .error ⟨.unicodeEscape, c.place + 1⟩
        | some unit =>
          let low? : Option Nat :=
            match digits.drop 4 with
            | '\\' :: 'u' :: more => if (more.drop 4).isEmpty then none else hexFour? more
            | _ => none
          match low? with
          | some low =>
            if 0xD800 ≤ unit && unit ≤ 0xDBFF && 0xDC00 ≤ low && low ≤ 0xDFFF then
              let point := 0x10000 + (unit - 0xD800) * 0x400 + (low - 0xDC00)
              readString opening fuel (Char.ofNat point :: done) (c.skip 12)
            else readString opening fuel (ofUnit unit :: done) (c.skip 6)
          | none => readString opening fuel (ofUnit unit :: done) (c.skip 6)
    | '\\' :: e :: _ =>
      match escaped? e with
      | some ch => readString opening fuel (ch :: done) (c.skip 2)
      | none => .error ⟨.escape, c.place⟩
    | ch :: _ =>
      if ch.toNat < 0x20 then .error ⟨.control, c.place⟩
      else readString opening fuel (ch :: done) (c.skip 1)

def digitsOf (cs : List Char) : Nat := Text.digitsValue cs

def isDigit (c : Char) : Bool := '0' ≤ c && c ≤ '9'

/-- A number: whole unless it has a fraction or an exponent. With `wide` the length of a whole number has a
limit. -/
def readNumber (wide : Bool) (c : Cursor) : Except Error (Value × Cursor) :=
  let negative := c.rest.head? == some '-'
  let body := if negative then c.rest.drop 1 else c.rest
  let whole :=
    match body with
    | '0' :: _ => ['0']
    | _ => body.takeWhile isDigit
  if whole.isEmpty then .error ⟨.value, c.place⟩
  else
    let after := body.drop whole.length
    let fraction : List Char :=
      match after with
      | '.' :: more => more.takeWhile isDigit
      | _ => []
    let after := if fraction.isEmpty then after else after.drop (fraction.length + 1)
    let signLength : Nat :=
      match after.drop 1 with
      | '+' :: _ => 1
      | '-' :: _ => 1
      | _ => 0
    let exponent : List Char :=
      match after with
      | 'e' :: more => (more.drop signLength).takeWhile isDigit
      | 'E' :: more => (more.drop signLength).takeWhile isDigit
      | _ => []
    let used := (if negative then 1 else 0) + whole.length +
      (if fraction.isEmpty then 0 else fraction.length + 1) +
      (if exponent.isEmpty then 0 else exponent.length + 1 + signLength)
    if fraction.isEmpty && exponent.isEmpty then
      if wide && Text.digitLimit < whole.length then .error ⟨.tooLong whole.length, c.place⟩ else
      let n : Int := digitsOf whole
      .ok (.int (if negative then -n else n), c.skip used)
    else
      let magnitude : Int := digitsOf exponent
      let power := if (after.drop 1).head? == some '-' then -magnitude else magnitude
      .ok (.real (.ofDecimal negative (digitsOf (whole ++ fraction)) (power - fraction.length)), c.skip used)

def words (wide : Bool) : List (List Char × Value) :=
  [("null".toList, .null), ("true".toList, .bool true), ("false".toList, .bool false)] ++
    if wide then
      [("NaN".toList, .real .nan), ("Infinity".toList, .real (.infinite false)),
        ("-Infinity".toList, .real (.infinite true))]
    else []

mutual

/-- One value. Of two nested calls at least one takes a character, so twice the length of the text is fuel
enough. -/
def readValue (wide : Bool) : Nat → Cursor → Except Error (Value × Cursor)
  | 0, c => .error ⟨.value, c.place⟩
  | fuel + 1, c =>
    match c.rest with
    | '"' :: _ => do
      let (s, c) ← readString c.place (fuel + 1) [] (c.skip 1)
      return (.str s, c)
    | '{' :: _ =>
      let c := (c.skip 1).skipGaps
      match c.rest with
      | '}' :: _ => .ok (.dict [], c.skip 1)
      | _ => readMembers wide fuel [] c
    | '[' :: _ =>
      let c := (c.skip 1).skipGaps
      match c.rest with
      | ']' :: _ => .ok (.list [], c.skip 1)
      | _ => readElements wide fuel [] c
    | _ =>
      match (words wide).find? (fun w => w.1.isPrefixOf c.rest) with
      | some (word, v) => .ok (v, c.skip word.length)
      | none => readNumber wide c

def readMembers (wide : Bool) : Nat → Entries → Cursor → Except Error (Value × Cursor)
  | 0, _, c => .error ⟨.value, c.place⟩
  | fuel + 1, done, c =>
    match c.rest with
    | '"' :: _ => do
      let (key, c) ← readString c.place (fuel + 1) [] (c.skip 1)
      let c := c.skipGaps
      match c.rest with
      | ':' :: _ =>
        let (v, c) ← readValue wide fuel (c.skip 1).skipGaps
        let done := Entries.put key v done
        let c := c.skipGaps
        match c.rest with
        | '}' :: _ => .ok (.dict done, c.skip 1)
        | ',' :: _ => readMembers wide fuel done (c.skip 1).skipGaps
        | _ => .error ⟨.comma, c.place⟩
      | _ => .error ⟨.colon, c.place⟩
    | _ => .error ⟨.propertyName, c.place⟩

def readElements (wide : Bool) : Nat → List Value → Cursor → Except Error (Value × Cursor)
  | 0, _, c => .error ⟨.value, c.place⟩
  | fuel + 1, done, c => do
    let (v, c) ← readValue wide fuel c
    let c := c.skipGaps
    match c.rest with
    | ']' :: _ => .ok (.list (v :: done).reverse, c.skip 1)
    | ',' :: _ => readElements wide fuel (v :: done) (c.skip 1).skipGaps
    | _ => .error ⟨.comma, c.place⟩

end

/-- Reads a whole text. With `wide` the words `NaN`, `Infinity` and `-Infinity` are numbers, and a whole
number has at most so many digits. -/
def read (wide : Bool) (text : String) : Except Error Value := do
  let cs := text.toList
  if cs.head? == some '\ufeff' then throw ⟨.byteOrderMark, 0⟩
  let start : Cursor := ⟨cs, 0⟩
  let (v, c) ← readValue wide (2 * cs.length + 2) start.skipGaps
  let c := c.skipGaps
  if c.rest.isEmpty then return v else throw ⟨.extraData, c.place⟩

end Rulewright.Json
