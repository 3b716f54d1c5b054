import Rulewright.Failure
import Rulewright.Text.Blank

/-!
Writing tables as TOML. Plain entries come first, then arrays of tables, then the tables level by
level. A text with a line break is written over several lines.
-/

namespace Rulewright.Toml

/-- Joins two pieces of an escaped text that were parted at an escape of two digits. After an even
number of backslashes the escape is widened to four digits. -/
def joinEscape (front back : List Char) : Except Failure (List Char) :=
  let front := Text.replace ['\\', '\\'] ['\\'] front
  match front.getLast? with
  | none => .error (.outOfRange .str)
  | some last =>
    let run := (front.reverse.takeWhile (· == '\\')).length
    let turns := if run == front.length then run - 1 else run
    let plain := (last != '\\') != (turns % 2 == 1)
    .ok (front ++ (if plain then ['x'] else "u00".toList) ++ back)

def joinEscapes (front : List Char) : List (List Char) → Except Failure (List Char)
  | [] => .ok front
  | [last] => if front.isEmpty then .error (.outOfRange .list) else joinEscape front last
  | next :: after :: rest =>
    if front.isEmpty then do joinEscapes (← joinEscape next after) rest
    else do joinEscapes (← joinEscape front next) (after :: rest)

def quotedText (s : String) : Except Failure String := do
  let body := (Text.quotedBody s).toList
  let body :=
    if Text.quoteFor s == '\'' then Text.replace ['"'] ['\\', '"'] (Text.replace ['\\', '\''] ['\''] body)
    else body
  match Text.cut ['\\', 'x'] body with
  | [] => return "\"\""
  | front :: rest => return "\"" ++ String.ofList (← joinEscapes front rest) ++ "\""

def writeText (s : String) : Except Failure String :=
  if s.toList.contains '\n' then
    .ok ("\"\"\"\n" ++ Text.strip (Text.replaceAll s "\"\"\"" "\\\"\"\"") ++ "\n\"\"\"")
  else quotedText s

def writeReal (x : Double) : String :=
  Text.replaceAll (Text.replaceAll (x.render .pointed) "e+0" "e+") "e-0" "e-"

def writeMoment (m : Moment) : Except Failure String :=
  if m.isNear then .ok (Text.replaceAll (m.text "T") "+00:00" "Z")
  else
    .error (.badValue
      "offset must be a timedelta strictly between -timedelta(hours=24) and timedelta(hours=24).")

mutual

def writeValue : Value → Except Failure String
  | .null => .error (.noAttribute .null "split")
  | .bool b => .ok (if b then "true" else "false")
  | .int n => .ok (toString n)
  | .real x => .ok (writeReal x)
  | .str s => writeText s
  | .moment m => writeMoment m
  | .list items => do return "[" ++ (← writeItems items) ++ "]"
  | .dict entries => do return "[" ++ (← writeKeys entries) ++ "]"

def writeItems : List Value → Except Failure String
  | [] => .ok ""
  | v :: rest => do
    let first ← writeValue v
    let others ← writeItems rest
    return " " ++ first ++ "," ++ others

def writeKeys : List (String × Value) → Except Failure String
  | [] => .ok ""
  | (key, _) :: rest => do
    let first ← writeText key
    let others ← writeKeys rest
    return " " ++ first ++ "," ++ others

end

def isBareKey (key : String) : Bool :=
  let cs := key.toList
  let cs := if cs.getLast? == some '\n' then cs.dropLast else cs
  !cs.isEmpty && cs.all fun c => (c.toNat < 0x80 && c.isAlphanum) || c == '_' || c == '-'

def writeKey (key : String) : Except Failure String := if isBareKey key then .ok key else quotedText key

structure Body where
  plain : String := ""
  arrays : String := ""

def Body.text (b : Body) : String := b.plain ++ b.arrays

def Body.append (a b : Body) : Body := { plain := a.plain ++ b.plain, arrays := a.arrays ++ b.arrays }

structure Section where
  name : String
  text : Except Failure String
  hasTables : Bool

/-- A table on the way to its text. Tables are written level by level, so the first failure is that of
the highest table that has one. -/
structure Draft where
  body : Except Failure Body := .ok {}
  levels : List (List Section) := []

def mergeLevels : List (List Section) → List (List Section) → List (List Section)
  | [], ys => ys
  | xs, [] => xs
  | x :: xs, y :: ys => (x ++ y) :: mergeLevels xs ys

def isTable : Value → Bool
  | .dict _ => true
  | _ => false

def dotted (name key : String) : String :=
  if name.isEmpty then key
  else if name.toList.getLast? == some '.' then name ++ key
  else name ++ "." ++ key

def Draft.append (a b : Draft) : Draft :=
  { body := do return (← a.body).append (← b.body), levels := mergeLevels a.levels b.levels }

def Section.inArray (s : Section) : Except Failure String := do
  let text ← s.text
  return if text.isEmpty then "" else "[" ++ s.name ++ "]\n" ++ text

def arrayElement (name : String) (d : Draft) : Except Failure String := do
  let text := (← d.body).text
  let inner := String.join (← d.levels.flatten.mapM Section.inArray)
  return if text.toList.head? == some '[' then "[[" ++ name ++ "]]\n" ++ "\n" ++ text ++ inner
    else "[[" ++ name ++ "]]\n" ++ text ++ "\n" ++ inner

def strayElement : Value → Except Failure Body
  | .str s =>
    match s.toList with
    | [] => .ok {}
    | c :: _ => do
      let _ ← writeKey (String.singleton c)
      throw (.wrongIndex .str .str)
  | .list [] => .ok {}
  | .list (.str key :: _) => do
    let _ ← writeKey key
    throw (.wrongIndex .list .str)
  | .list (v :: _) =>
    .error (.wrongArguments ("expected string or bytes-like object, got '" ++ v.shape.name ++ "'"))
  | v => .error (.notIterable v.shape)

def plainEntry (key : String) (v : Value) : Draft :=
  { body := do return { plain := key ++ " = " ++ (← writeValue v) ++ "\n" } }

mutual

def draftEntry (name key : String) : Value → Draft
  | .null => {}
  | .dict entries =>
    let inner := draftEntries (dotted name key) entries
    let own : Section :=
      { name := dotted name key, text := inner.body.map Body.text, hasTables := !inner.levels.isEmpty }
    { levels := [own] :: inner.levels }
  | .list items =>
    if items.any isTable then { body := do return { arrays := ← writeTables (dotted name key) items } }
    else plainEntry key (.list items)
  | v => plainEntry key v

def draftEntries (name : String) : List (String × Value) → Draft
  | [] => {}
  | (key, v) :: rest =>
    match writeKey key with
    | .error f => { body := .error f }
    | .ok key => (draftEntry name key v).append (draftEntries name rest)

def draftTable (name : String) : Value → Draft
  | .dict entries => draftEntries name entries
  | v => { body := strayElement v }

def writeTables (name : String) : List Value → Except Failure String
  | [] => .ok ""
  | v :: rest => do
    let own ← arrayElement name (draftTable name v)
    let others ← writeTables name rest
    return own ++ others

end

/-- Puts a table after the text so far, with an empty line between them. A table that only holds
tables is left out. -/
def appendSection (text : String) (s : Section) : Except Failure String := do
  let own ← s.text
  if own.isEmpty && s.hasTables then return text
  else
    let gap :=
      if text.isEmpty then ""
      else
        match text.toList.reverse with
        | '\n' :: '\n' :: _ => ""
        | _ => "\n"
    return text ++ gap ++ "[" ++ s.name ++ "]\n" ++ own

def write (v : Value) : Except Failure String := do
  let draft := draftTable "" v
  draft.levels.flatten.foldlM appendSection (← draft.body).text

end Rulewright.Toml
