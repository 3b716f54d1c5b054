import Rulewright.Failure
import Rulewright.Text.Alphanumeric
import Rulewright.Text.Blank

/-!
The first look at a TOML text, character by character: it checks that keys are well formed and quotes
are closed, blanks out comments, and joins the lines of an array. What it leaves can be read
line by line.
-/

namespace Rulewright.Toml

structure Problem where
  words : String
  place : Nat

def Problem.message (text : List Char) (p : Problem) : String :=
  let before := text.take p.place
  let line := before.count '\n' + 1
  let column := (before.reverse.takeWhile (· != '\n')).length + 1
  p.words ++ " (line " ++ toString line ++ " column " ++ toString column ++ " char " ++ toString p.place ++ ")"

inductive Refusal where
  | problem (p : Problem)
  | failure (f : Failure)

inductive KeyState where
  | none
  | inside
  | after
  deriving DecidableEq, Repr

structure Scan where
  done : List Char := []
  depth : Int := 0
  inText : Bool := false
  quote : Option Char := none
  inLongText : Bool := false
  inArrayHeader : Bool := false
  inHeader : Bool := false
  lineStart : Bool := true
  key : KeyState := .none
  dotted : Bool := false
  inComment : Bool := false

namespace Scan

def back (s : Scan) (ahead : List Char) (k : Nat) : Option Char :=
  if k ≤ s.done.length then s.done[k - 1]? else (ahead.reverse ++ s.done)[k - s.done.length - 1]?

def quotes (s : Scan) (ahead : List Char) (q : Char) : Nat :=
  if s.back ahead 1 == some q then (if s.back ahead 2 == some q then 3 else 2) else 1

def oddBackslashes (s : Scan) (ahead : List Char) : Nat → Nat → Bool
  | 0, _ => false
  | fuel + 1, k => if s.back ahead k == some '\\' then !oddBackslashes s ahead fuel (k + 1) else false

def push (s : Scan) (c : Char) : Scan := { s with done := c :: s.done }

def problem (s : Scan) (words : String) : Refusal := .problem ⟨words, s.done.length⟩

def inKey (s : Scan) (c : Char) (rest : List Char) : Except Refusal (Scan × Bool) :=
  let ended : Except Refusal (Scan × Bool) :=
    if c == '=' then .ok ({ s with key := .none, dotted := false }, true)
    else
      .error (s.problem ("Found invalid character in key name: '" ++ String.singleton c ++
        "'. Try quoting the key name."))
  if c == '\n' then .error (s.problem "Key name found without value. Reached end of line.")
  else if s.inText then
    if s.quote == some c && (s.done.takeWhile (· == '\\')).length % 2 == 0 then
      .ok ({ s with key := .after, inText := false, quote := none }, false)
    else .ok (s, false)
  else if s.key == .inside then
    if Text.isBlank c then .ok ({ s with key := .after }, false)
    else if c == '.' then .ok ({ s with dotted := true }, false)
    else if Text.isAlphanumeric c || c == '_' || c == '-' then .ok (s, false)
    else if s.dotted && s.done.head? == some '.' && (c == '"' || c == '\'') then
      .ok ({ s with inText := true, quote := some c }, false)
    else ended
  else if Text.isBlank c || c == '.' then
    let s := { s with dotted := s.dotted || c == '.' }
    if s.dotted then
      match rest with
      | [] => .error (.failure (.outOfRange .list))
      | next :: _ => .ok (if Text.isBlank next || next == '.' then s else { s with key := .inside }, false)
    else .ok (s, false)
  else ended

def atQuote (s : Scan) (c : Char) (ahead : List Char) : Scan :=
  if c == '\'' && s.quote != some '"' then
    let s :=
      if s.quotes ahead c == 3 then { s with inLongText := !s.inLongText, inText := !s.inLongText }
      else { s with inText := !s.inText }
    { s with quote := if s.inText then some '\'' else none }
  else if c == '"' && s.quote != some '\'' then
    let k := s.quotes ahead c
    let odd := k != 2 && s.oddBackslashes ahead (ahead.length + s.done.length) k
    let s :=
      if odd then s
      else if k == 3 then { s with inLongText := !s.inLongText, inText := !s.inLongText }
      else { s with inText := !s.inText }
    { s with quote := if s.inText then some '"' else none }
  else s

def atBracket (s : Scan) (c : Char) (rest : List Char) (ahead : List Char) : Scan :=
  if c == '[' && !s.inText && !s.inHeader && !s.inArrayHeader then
    if s.lineStart then
      if rest.head? == some '[' then { s with inArrayHeader := true } else { s with inHeader := true }
    else { s with depth := s.depth + 1 }
  else if c == ']' && !s.inText then
    if s.inHeader then { s with inHeader := false }
    else if s.inArrayHeader then
      if s.back ahead 1 == some ']' then { s with inArrayHeader := false } else s
    else { s with depth := s.depth - 1 }
  else s

/-- The end of a line. Right after the opening quotes of a long text it is dropped: the quotes move
up by one place. -/
def atLineEnd (s : Scan) (ahead : List Char) : Except Refusal Scan :=
  if s.inText || s.inLongText then
    if !s.inLongText then .error (s.problem "Unbalanced quotes")
    else
      match s.back ahead 1, s.back ahead 2, s.back ahead 3 with
      | some a, some b, third =>
        if (a == '\'' || a == '"') && b == a then
          let done := if third == some a && 3 ≤ s.done.length then s.done.set 2 ' ' else s.done
          .ok ({ s with done }.push a)
        else .ok (s.push '\n')
      | _, _, _ => .ok (s.push '\n')
  else if s.depth != 0 then .ok (s.push ' ')
  else .ok ({ s with lineStart := true }.push '\n')

def step (s : Scan) (c : Char) (rest : List Char) : Except Refusal Scan := do
  -- the rest of a comment reads as blanks
  let c := if s.inComment && c != '\n' then ' ' else c
  let s := { s with inComment := s.inComment && c != '\n' }
  let ahead := c :: rest
  if c == '\r' && rest.isEmpty then throw (.failure (.outOfRange .list))
  else if c == '\r' && rest.head? == some '\n' then return s.push ' '
  else
    let (s, more) ← if s.key == .none then .ok (s, true) else s.inKey c rest
    if !more then return s.push c
    else
      let s := s.atQuote c ahead
      if c == '#' && !s.inText && !s.inHeader && !s.inArrayHeader then
        return { s with inComment := true }.push ' '
      else
        let s := s.atBracket c rest ahead
        if c == '\n' then s.atLineEnd ahead
        else if s.lineStart && c != ' ' && c != '\t' then
          let s := { s with lineStart := false }
          if s.inHeader || s.inArrayHeader then return s.push c
          else if c == '=' then throw (s.problem "Found empty keyname. ")
          else return { s with key := .inside }.push c
        else return s.push c

def run (s : Scan) : List Char → Except Refusal Scan
  | [] => .ok s
  | c :: rest => do
    let s ← s.step c rest
    s.run rest

end Scan

def scan (text : List Char) : Except Refusal (List Char) := do
  let s ← Scan.run {} text
  if s.key != .none then
    throw (.problem ⟨"Key name found without value. Reached end of file.", text.length⟩)
  else if s.inText then
    throw (.problem ⟨"Unterminated string found. Reached end of file.", text.length⟩)
  else return s.done.reverse

end Rulewright.Toml
