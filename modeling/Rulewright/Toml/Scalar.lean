import Rulewright.Failure
import Rulewright.Json.Reader

/-!
Values that hold no others: texts with their escapes, and numbers.
-/

namespace Rulewright.Toml

inductive Trouble where
  | invalid (words : String)
  | failure (f : Failure)

inductive ValueKind where
  | bool
  | str
  | array
  | inlineTable
  | int
  | float
  | date
  | time
  deriving DecidableEq, Repr

def escapes : List (Char × Char) :=
  [('0', '\x00'), ('b', '\x08'), ('f', '\x0c'), ('n', '\n'), ('r', '\r'), ('t', '\t'), ('"', '"')]

def unescape : List Char → Except Trouble (List Char)
  | [] => .ok []
  | ['\\'] => .ok ['\\']
  | '\\' :: c :: rest =>
    match escapes.lookup c with
    | some e => do return e :: (← unescape rest)
    | none =>
      if c == '\\' then do return '\\' :: (← unescape rest)
      else if c == 'u' || c == 'U' then do return '\\' :: c :: (← unescape rest)
      else .error (.invalid "Reserved escape sequence used")
  | c :: rest => do return c :: (← unescape rest)

def endsOdd (cs : List Char) : Bool := (cs.reverse.takeWhile (· == '\\')).length % 2 == 1

def hexPoint (width : Nat) (piece : List Char) : Except Trouble (Char × List Char) :=
  let digits := (piece.take width).map Char.toLower
  let shown := String.ofList digits
  match digits.mapM Json.hexDigit? with
  | none => .error (.invalid ("Invalid escape sequence: " ++ shown))
  | some numbers =>
    match digits with
    | [] => .error (.failure (.outOfRange .str))
    | ['d'] => .error (.failure (.outOfRange .str))
    | first :: rest =>
      let n := numbers.foldl (fun n d => n * 16 + d) 0
      if first == 'd' && rest.head?.any (fun c => c < '0' || '7' < c) then
        .error (.invalid ("Invalid escape sequence: " ++ shown ++ ". Only scalar unicode points are allowed."))
      else if Nat.pow 2 31 ≤ n then .error (.failure (.overflow "int too large to convert"))
      else if 0x110000 ≤ n then .error (.invalid "chr() arg not in range(0x110000)")
      else .ok (Json.ofUnit n, piece.drop digits.length)

/-- Replaces the escapes with a given mark, from left to right; one after an odd number of backslashes is
none. -/
def replaceHex (mark : List Char) (width : Nat) (skip : Bool) : List (List Char) → Except Trouble (List Char)
  | [] => .ok []
  | piece :: rest =>
    if skip then do
      return mark ++ piece ++ (← replaceHex mark width (endsOdd piece) rest)
    else do
      let (c, after) ← hexPoint width piece
      return c :: after ++ (← replaceHex mark width false rest)

def replaceHexEscapes (mark : List Char) (width : Nat) (cs : List Char) : Except Trouble (List Char) :=
  match Text.cut mark cs with
  | [] => .ok cs
  | [_] => .ok cs
  | front :: rest => do return front ++ (← replaceHex mark width (endsOdd front) rest)

def checkClosed (triple : Bool) : Bool → Nat → List (List Char) → Except Trouble Unit
  | _, _, [] => .ok ()
  | closed, count, piece :: rest =>
    if piece.isEmpty then
      if triple then checkClosed triple closed (count + 1) rest else checkClosed triple true count rest
    else if endsOdd piece then checkClosed triple closed count rest
    else if closed then .error (.invalid "Found tokens after a closed string. Invalid TOML.")
    else if !triple || 1 < count then checkClosed triple true count rest
    else checkClosed triple closed 0 rest

def checkEscapes : Bool → List (List Char) → Except Trouble Unit
  | _, [] => .ok ()
  | backslash, [] :: rest => checkEscapes (!backslash) rest
  | backslash, (c :: _) :: rest =>
    if (escapes.lookup c).isNone && c != 'u' && c != 'U' && !backslash then
      .error (.invalid "Reserved escape sequence used")
    else checkEscapes false rest

def dropEnds (n : Nat) (cs : List Char) : List Char := (cs.drop n).take (cs.length - 2 * n)

def readText (v : List Char) (q : Char) : Except Trouble String := do
  let pieces := Text.cut [q] (v.drop 1)
  let triple :=
    match pieces with
    | [] :: [] :: _ => true
    | _ => false
  checkClosed triple false 0 (if triple then pieces.drop 2 else pieces)
  let v ←
    if q == '"' then do
      checkEscapes false ((Text.cut ['\\'] v).drop 1)
      let v ← replaceHexEscapes ['\\', 'u'] 4 v
      let v ← replaceHexEscapes ['\\', 'U'] 8 v
      unescape v
    else pure v
  let long : Bool :=
    match v with
    | [_, b] => b == q
    | _ :: b :: c :: _ => b == q && b == c
    | _ => false
  return String.ofList (dropEnds 1 (if long then dropEnds 2 v else v))

def isStrictNumber (cs : List Char) : Bool :=
  let n := Text.trim cs
  match n with
  | [] => false
  | [c] => c != '_'
  | first :: second :: rest =>
    if first == '_' || n.getLast? == some '_' then false
    else if Text.contains ['_', '.'] n || Text.contains ['.', '_'] n then false
    else if first == '0' && !(['.', 'o', 'b', 'x'].contains second) then false
    else
      let signed := first == '+' || first == '-'
      let n := if signed then second :: rest else n
      if signed && second == '0' && rest.head?.any (· != '.') then false
      else !Text.contains ['_', '_'] n

def readFloat? (cs : List Char) : Option Double :=
  let cs := Text.plainNumber cs
  let negative := cs.head? == some '-'
  let body := if negative || cs.head? == some '+' then cs.drop 1 else cs
  let lower := String.ofList (body.map Char.toLower)
  if lower == "inf" || lower == "infinity" then some (.infinite negative)
  else if lower == "nan" then some .nan
  else
    let isPart (c : Char) : Bool := Json.isDigit c || c == '_'
    let whole := body.takeWhile isPart
    let after := body.drop whole.length
    let (fraction, after) : List Char × List Char :=
      match after with
      | '.' :: more => (more.takeWhile isPart, more.drop (more.takeWhile isPart).length)
      | _ => ([], after)
    let grouped (ds : List Char) : Bool :=
      ds.head? != some '_' && ds.getLast? != some '_' && !Text.contains ['_', '_'] ds
    let digits := (whole ++ fraction).filter (· != '_')
    if digits.isEmpty || !grouped whole || !grouped fraction then none
    else
      let places : Int := (fraction.filter (· != '_')).length
      match after with
      | [] => some (.ofDecimal negative (Json.digitsOf digits) (-places))
      | e :: more =>
        if e != 'e' && e != 'E' then none
        else
          let sign := more.head?
          let exponent := if sign == some '+' || sign == some '-' then more.drop 1 else more
          if exponent.isEmpty || !exponent.all isPart || !grouped exponent then none
          else
            let n : Int := Json.digitsOf (exponent.filter (· != '_'))
            some (.ofDecimal negative (Json.digitsOf digits) ((if sign == some '-' then -n else n) - places))

def digitIn? (base : Nat) (c : Char) : Option Nat := (Json.hexDigit? c).filter (· < base)

def digitsIn? (base : Nat) (cs : List Char) : Option Nat :=
  if cs.isEmpty then none else (cs.mapM (digitIn? base)).map (·.foldl (fun n d => n * base + d) 0)

def readInt? (cs : List Char) : Option Int :=
  let cs := Text.plainNumber cs
  let negative := cs.head? == some '-'
  let body := if negative || cs.head? == some '+' then cs.drop 1 else cs
  let magnitude : Option Nat :=
    match body with
    | '0' :: 'x' :: rest => digitsIn? 16 rest
    | '0' :: 'X' :: rest => digitsIn? 16 rest
    | '0' :: 'o' :: rest => digitsIn? 8 rest
    | '0' :: 'O' :: rest => digitsIn? 8 rest
    | '0' :: 'b' :: rest => digitsIn? 2 rest
    | '0' :: 'B' :: rest => digitsIn? 2 rest
    | '0' :: rest => if rest.all (· == '0') then some 0 else none
    | _ => if Text.digitLimit < body.length then none else digitsIn? 10 body
  magnitude.map fun m => if negative then -(m : Int) else m

def readNumber (v : List Char) (strict : Bool) : Except Trouble (Value × ValueKind) :=
  if !strict then .error (.invalid "Weirdness with leading zeroes or underscores in your number.")
  else
    let negative := v.head? == some '-'
    let body := (if negative || v.head? == some '+' then v.drop 1 else v).filter (· != '_')
    let lower := String.ofList (body.map Char.toLower)
    if body.contains '.' || (!body.contains 'x' && (body.contains 'e' || body.contains 'E')) then
      if (body.dropWhile (· != '.')) == ['.'] then
        .error (.invalid "This float is missing digits after the point")
      else if !body.head?.any Json.isDigit then .error (.invalid "This float doesn't have a leading digit")
      else
        match readFloat? body with
        | some x => .ok (.real (if negative then minus x else x), .float)
        | none => .error (.invalid ("could not convert string to float: " ++ Text.quoted (String.ofList body)))
    else if lower == "inf" || lower == "nan" then
      match readFloat? body with
      | some x => .ok (.real (if negative then minus x else x), .float)
      | none => .error (.invalid "")
    else
      match readInt? body with
      | some n => .ok (.int (if negative then -n else n), .int)
      | none =>
        .error (.invalid ("invalid literal for int() with base 0: " ++ Text.quoted (String.ofList body)))
where
  minus : Double → Double
    | .finite _ 0 e => .finite false 0 e
    | .finite negative m e => .finite (!negative) m e
    | .infinite negative => .infinite (!negative)
    | .nan => .nan

end Rulewright.Toml
