import Rulewright.Toml.Scalar
import Rulewright.Toml.Scan
import Rulewright.Toml.Time

/-!
Reading TOML line by line, after the first look has joined what belongs together. A header names the
table that the following keys go into; a key and its value stand on one line unless the value is a
long text.
-/

namespace Rulewright.Toml

def closeSingle : List (List Char) → List (List Char) → List (List Char) × List (List Char)
  | singles, [] => (singles, [])
  | singles, d :: rest =>
    if singles.length % 2 == 0 then
      let last := (singles.getLast?.getD []) ++ '"' :: d
      closeSingle (singles.dropLast ++ Text.cut ['\''] last) rest
    else (singles, d :: rest)

def quotePieces (line : List Char) : List (List Char) :=
  let doubles := Text.cut ['"'] line
  let (front, doubles) :=
    match doubles with
    | first :: second :: rest =>
      if first.contains '\'' then closeSingle (Text.cut ['\''] first) (second :: rest) else ([], doubles)
    | _ => ([], doubles)
  match doubles with
  | [] => front
  | d :: rest => front ++ Text.cut ['\''] d ++ rest

def cutsBefore (sep : List Char) : Bool → Nat → List (List Char) → Nat
  | _, i, [] => i
  | quoted, i, piece :: rest =>
    if !quoted && Text.contains sep piece then i
    else cutsBefore sep (!quoted) (i + Text.occurrences sep piece) rest

def isBounded (cs : List Char) : Bool :=
  match cs with
  | [] => true
  | first :: _ =>
    if cs.getLast? != some first then false
    else
      -- a backslash in the first place does not count
      !(endsOdd (cs.drop 1).dropLast)

def isUnfinished (piece : List Char) : Bool :=
  let t := Text.trim piece
  !isBounded t ||
    match t, t.reverse with
    | a :: b :: c :: _, _ :: y :: z :: _ => a == b && b == c && y != a && z != a
    | _, _ => false

def joinTexts : List Char → List (List Char) → Except Trouble (List (List Char))
  | piece, [] => .ok [piece]
  | piece, next :: rest =>
    if isUnfinished piece then
      -- the last piece is joined too; if that does not finish it there is nothing more to join
      if rest.isEmpty && isUnfinished (piece ++ ',' :: next) then .error (.failure (.outOfRange .list))
      else joinTexts (piece ++ ',' :: next) rest
    else do return piece :: (← joinTexts next rest)

def cutNested (depth : Int) (piece : List Char) : List Char → List (List Char)
  | [] => [piece.reverse]
  | '[' :: rest => cutNested (depth + 1) ('[' :: piece) rest
  | ']' :: rest => cutNested (depth - 1) (']' :: piece) rest
  | ',' :: rest =>
    if depth == 0 then piece.reverse :: cutNested depth [] rest else cutNested depth (',' :: piece) rest
  | c :: rest => cutNested depth (c :: piece) rest

structure TableCut where
  piece : Option (List Char) := none
  depth : Nat := 0
  inText : Bool := false

def cutTables (t : TableCut) : List Char → List (List Char)
  | [] => []
  | c :: rest =>
    match t.piece with
    | none => if c == '\x7b' then cutTables { piece := some [c], depth := 1 } rest else cutTables t rest
    | some piece =>
      let isQuote := c == '"' || c == '\''
      let odd := t.inText && (piece.takeWhile (· == '\\')).length % 2 == 1
      let inText := if isQuote then (if odd then t.inText else !t.inText) else t.inText
      let depth := if !inText && c == '\x7b' then t.depth + 1 else t.depth
      if inText || c != '\x7d' then cutTables { piece := some (c :: piece), depth, inText } rest
      else if 1 < depth then cutTables { piece := some (c :: piece), depth := depth - 1, inText } rest
      else (c :: piece).reverse :: cutTables {} rest

def startsText (cs : List Char) : Bool :=
  match Text.trim cs with
  | c :: _ => c == '"' || c == '\''
  | [] => false

def arrayPieces (a : List Char) : Except Trouble (List (List Char)) :=
  let inner := dropEnds 1 a
  let front := inner.takeWhile (· != '[')
  if !inner.contains '[' || !(Text.trim front).isEmpty then
    if (Text.trim inner).head? == some '\x7b' then .ok (cutTables {} inner)
    else
      match Text.cut [','] inner with
      | [] => .ok []
      | first :: rest => if startsText inner then joinTexts first rest else .ok (first :: rest)
  else .ok (cutNested 0 [] inner)

structure Open where
  key : String
  text : List Char
  backslash : Bool

/-- The last text of an array that is not closed, together with the commas inside it; the pieces come last
first. -/
def lastText (last : List Char) : List (List Char) → Except Trouble (List Char)
  | [] => .ok last
  | piece :: rest =>
    match last with
    | [] => .error (.failure (.outOfRange .str))
    | '"' :: _ => .ok last
    | '\'' :: _ => .ok last
    | _ => lastText (piece ++ ',' :: last) rest

def isLongOpen : List Char → Except Trouble Bool
  | [] => .error (.failure (.outOfRange .str))
  | a :: rest =>
    if a != '"' && a != '\'' then .ok false
    else
      match rest with
      | [] => .error (.failure (.outOfRange .str))
      | [b] => if b != a then .ok false else .error (.failure (.outOfRange .str))
      | b :: c :: more =>
        if b != a || c != a then .ok false
        else .ok !(2 < more.length && (more.reverse.take 3).all (· == a))

def opensText (p : List Char) : Except Trouble Bool := do
  if p.length < 3 then return false
  else if p.head? == some '[' && (Text.trim p).getLast? != some ']' && startsText (dropEnds 1 p) then
    match (Text.cut [','] (Text.trim (p.drop 1))).reverse with
    | [] => return false
    | last :: before => isLongOpen (← lastText last before)
  else isLongOpen p

/-- Applies a step to the table that the outer parts of a dotted key lead to; tables on the way are
created. -/
def atLevels (f : Value → Except Trouble (Value × α)) : List String → Value → Except Trouble (Value × α)
  | [], v => f v
  | level :: rest, .dict entries => do
    if level.isEmpty then atLevels f rest (.dict entries)
    else
      let inner := (Entries.get? level entries).getD (.dict [])
      let (inner, a) ← atLevels f rest inner
      return (.dict (Entries.put level inner entries), a)
  | level :: rest, v => if level.isEmpty then atLevels f rest v else .error (.failure (.notIterable v.shape))

def keyLevels (key : List Char) : Except Trouble (List String × String) := do
  let parts : List (List Char) :=
    if key.contains '"' || key.contains '\'' then quotedParts false (quotePieces key) else Text.cut ['.'] key
  let kept := (parts.reverse.dropWhile List.isEmpty).reverse
  match kept.getLast? with
  | none => throw (.failure (.outOfRange .list))
  | some last => return (kept.dropLast.map String.ofList, String.ofList (Text.trim last))
where
  quotedParts : Bool → List (List Char) → List (List Char)
    | _, [] => []
    | true, piece :: rest => piece :: quotedParts false rest
    | false, piece :: rest => (Text.cut ['.'] piece).map Text.trim ++ quotedParts true rest

def liftTime (r : Except Failure α) : Except Trouble α :=
  match r with
  | .ok a => .ok a
  | .error f => .error (.failure f)

def cutValue (line : List Char) :
    Nat → Nat → Bool → List (List Char) → Except Trouble (List (List Char) × Bool)
  | 0, _, strict, pair => .ok (pair, strict)
  | fuel + 1, i, strict, pair => do
    let last := pair.getLast?.getD []
    let isValue : Bool :=
      match last with
      | [] => true
      | c :: _ =>
        [' ', '\t', '\'', '"', '[', '\x7b'].contains c || Text.trim last == "true".toList ||
          Text.trim last == "false".toList || (readFloat? last).isSome
    if isValue then .ok (pair, strict)
    else if (← liftTime (readDay last)).isSome || (clockParts? last).isSome then .ok (pair, strict)
    else
      let pair := Text.cutAtMost ['='] (i + 1) line
      if pair.getLast?.getD [] == last then .error (.invalid "Invalid date or number")
      else cutValue line fuel (i + 1) (strict && isStrictNumber (pair.getLast?.getD [])) pair

def cutLine (line : List Char) : Except Trouble (List Char × List Char × Bool) := do
  let i := cutsBefore ['='] false 1 (quotePieces line)
  let pair := Text.cutAtMost ['='] i line
  let last := pair.getLast?.getD []
  let strict := isStrictNumber last
  let pair := if last.head?.any Json.isDigit then pair.dropLast ++ [last.filter (· != '_')] else pair
  let (pair, strict) ← cutValue line (line.length + 1) i strict pair
  return (Text.trim (['='].intercalate pair.dropLast), Text.trim (pair.getLast?.getD []), strict)

def inlinePieces : List Char → List (List Char) → Except Trouble (List (List Char))
  | piece, rest => do
    match Text.cutOnce ['='] piece with
    | none => throw (.invalid "Invalid inline table encountered")
    | some (_, value) =>
      let value := Text.trim value
      match value, value.getLast? with
      | first :: _, some last =>
        let whole := (first == last && (first == '"' || first == '\'')) || first == '-' || Json.isDigit first ||
          value == "true".toList || value == "false".toList || (first == '[' && last == ']') ||
          (first == '\x7b' && last == '\x7d')
        match rest with
        | [] => if whole then return [piece] else throw (.invalid "Invalid inline table value encountered")
        | next :: rest =>
          if whole then return piece :: (← inlinePieces next rest) else inlinePieces (piece ++ ',' :: next) rest
      | _, _ => throw (.failure (.outOfRange .str))
termination_by _ rest => rest.length

mutual

def loadValue : Nat → List Char → Bool → Except Trouble (Value × ValueKind)
  | 0, _, _ => .error (.failure .notSupported)
  | fuel + 1, v, strict =>
    let lower := String.ofList (v.map Char.toLower)
    match v with
    | [] => .error (.invalid "Empty value is invalid")
    | c :: _ =>
      if lower == "true" || lower == "false" then
        if String.ofList v == lower then .ok (.bool (lower == "true"), .bool)
        else .error (.invalid "Only all lowercase booleans allowed")
      else if c == '"' || c == '\'' then do return (.str (← readText v c), .str)
      else if c == '[' then do return (.list (← loadArray fuel v), .array)
      else if c == '\x7b' then do return (← loadInline fuel v (.dict []), .inlineTable)
      else
        match clockParts? v with
        | some (hour, minute, second, micro) =>
          match Clock.ofNumbers hour minute second micro with
          | .ok clock => .ok (.moment (.clock clock), .time)
          | .error words => .error (.invalid words)
        | none => do
          match ← liftTime (readDay v) with
          | some m => return (.moment m, .date)
          | none => readNumber v strict

def loadArray : Nat → List Char → Except Trouble (List Value)
  | 0, _ => .error (.failure .notSupported)
  | fuel + 1, a => do loadItems fuel none (← arrayPieces (Text.trim a))

def loadItems : Nat → Option ValueKind → List (List Char) → Except Trouble (List Value)
  | 0, _, _ => .error (.failure .notSupported)
  | _ + 1, _, [] => .ok []
  | fuel + 1, kind, piece :: rest => do
    let piece := Text.trim piece
    if piece.isEmpty then loadItems fuel kind rest
    else
      let (v, k) ← loadValue fuel piece true
      if kind.any (· != k) then throw (.invalid "Not a homogeneous array")
      else return v :: (← loadItems fuel (some k) rest)

def loadInline : Nat → List Char → Value → Except Trouble Value
  | 0, _, _ => .error (.failure .notSupported)
  | fuel + 1, line, level => do
    match Text.cut [','] (dropEnds 1 line) with
    | [] => return level
    | first :: rest =>
      if rest.isEmpty && (Text.trim first).isEmpty then return level
      else loadLines fuel (← inlinePieces first rest) level

def loadLines : Nat → List (List Char) → Value → Except Trouble Value
  | 0, _, _ => .error (.failure .notSupported)
  | _ + 1, [], level => .ok level
  | fuel + 1, line :: rest, level => do
    let (level, opened) ← loadLine fuel line level
    if opened.isSome then return level else loadLines fuel rest level

def loadLine : Nat → List Char → Value → Except Trouble (Value × Option Open)
  | 0, _, _ => .error (.failure .notSupported)
  | fuel + 1, line, level => do
    let (key, text, strict) ← cutLine line
    let (levels, key) ←
      if key.contains '.' then keyLevels key
      else
        match key, key.getLast? with
        | first :: _, some last =>
          if first == last && (first == '"' || first == '\'') then do
            pure ([], String.ofList (← unescape (dropEnds 1 key)))
          else pure ([], String.ofList key)
        | _, _ => throw (.failure (.outOfRange .str))
    let _ ← atLevels (fun inner => .ok (inner, ())) levels level
    let opened : Option Open :=
      if ← opensText text then
        let odd := endsOdd text
        some { key, text := if odd then text.dropLast else text ++ ['\n'], backslash := odd }
      else none
    let value ← if opened.isSome then pure .null else do pure (← loadValue fuel text strict).1
    atLevels (fun inner =>
      match inner with
      | .dict entries =>
        if Entries.has key entries then .error (.invalid "Duplicate keys!")
        else if opened.isSome && key.isEmpty then .error (.failure .unbound)
        else if opened.isSome then .ok (inner, opened)
        else .ok (.dict (Entries.put key value entries), none)
      | _ => .error (.invalid "Duplicate keys!")) levels level

end

inductive Down where
  | key (name : String)
  | last
  deriving DecidableEq, Repr

def valueAt : List Down → Value → Value
  | [], v => v
  | .key name :: rest, v => valueAt rest ((v.field? name).getD .null)
  | .last :: rest, .list items => valueAt rest (items.getLast?.getD .null)
  | .last :: _, _ => .null

def changeAt (f : Value → Value) : List Down → Value → Value
  | [], v => f v
  | .key name :: rest, v => v.set name (changeAt f rest ((v.field? name).getD .null))
  | .last :: rest, .list items =>
    match items.getLast? with
    | some last => .list (items.dropLast ++ [changeAt f rest last])
    | none => .list items
  | .last :: _, v => v

structure Document where
  root : Value := .dict []
  current : List Down := []
  implicit : List String := []

def Document.enter (d : Document) (isArray isLast : Bool) (group : String) : Except Trouble Document := do
  if group.isEmpty then throw (.invalid "Can't have a keygroup with an empty name")
  let fresh : Value := if isLast && isArray then .list [.dict []] else .dict []
  let down (d : Document) : Except Trouble Document :=
    let d := { d with current := d.current ++ [.key group] }
    if isArray then
      match valueAt d.current d.root with
      | .list [] => .error (.failure (.outOfRange .list))
      | .list _ => .ok { d with current := d.current ++ [.last] }
      | .dict _ => .ok d
      | .str s =>
        if s.isEmpty then .error (.failure (.outOfRange .str))
        else .ok { d with current := d.current ++ [.last] }
      | v => .error (.failure (.notSubscriptable v.shape))
    else .ok d
  match valueAt d.current d.root with
  | .dict entries =>
    match Entries.get? group entries with
    | some existing =>
      if !isLast then down d
      else if d.implicit.contains group then
        if isArray then throw (.invalid "An implicitly defined table can't be an array")
        else down { d with implicit := d.implicit.erase group }
      else if isArray then
        match existing with
        | .list items =>
          down { d with
            root := changeAt (·.set group (.list (items ++ [.dict []]))) d.current d.root }
        | v => throw (.failure (.noAttribute v.shape "append"))
      else
        throw (.invalid ("What? " ++ group ++ " already exists?" ++ (Value.dict entries).written))
    | none =>
      down { d with
        root := changeAt (·.set group fresh) d.current d.root
        implicit := if isLast then d.implicit else d.implicit ++ [group] }
  | .list [] => throw (.failure (.outOfRange .list))
  | .list _ =>
    let d := { d with current := d.current ++ [.last] }
    match valueAt d.current d.root with
    | .dict entries =>
      if Entries.has group entries then down d
      else down { d with root := changeAt (·.set group fresh) d.current d.root }
    | v => throw (.failure (.notIterable v.shape))
  | .str s => throw (.failure (if s.isEmpty then .outOfRange .str else .notSubscriptable .str))
  | v => throw (.failure (.notSubscriptable v.shape))

def Document.enterAll (d : Document) (isArray : Bool) : List String → Except Trouble Document
  | [] => .ok d
  | group :: rest => do
    let d ← d.enter isArray rest.isEmpty group
    d.enterAll isArray rest

def quotedPart (pieces : List (List Char)) (total : Nat) : Nat → Nat → Except Trouble (Nat × List Char)
  | 0, _ => .error (.failure .notSupported)
  | fuel + 1, j =>
    let text := if j == 1 then Text.trim (pieces.head?.getD []) else Text.trim (['.'].intercalate (pieces.take j))
    match text, text.getLast? with
    | first :: _ :: _, some last =>
      if first == last then .ok (j, text)
      else if total + 2 < j + 1 then
        .error (.invalid ("Invalid group name '" ++ String.ofList text ++ "' Something went wrong."))
      else quotedPart pieces total fuel (j + 1)
    | _, _ =>
      if total + 2 < j + 1 then
        .error (.invalid ("Invalid group name '" ++ String.ofList text ++ "' Something went wrong."))
      else quotedPart pieces total fuel (j + 1)

def isBareName (cs : List Char) : Bool :=
  let cs := if cs.getLast? == some '\n' then cs.dropLast else cs
  !cs.isEmpty && cs.all fun c => (c.toNat < 0x80 && c.isAlphanum) || c == '_' || c == '-'

def groupNames : Nat → Nat → List (List Char) → Except Trouble (List String)
  | 0, _, _ => .error (.failure .notSupported)
  | _ + 1, _, [] => .ok []
  | fuel + 1, i, piece :: rest => do
    let part := Text.trim piece
    if part.head? == some '"' || part.head? == some '\'' then
      let (used, text) ← quotedPart (part :: rest) (rest.length + 1 + i) (rest.length + i + 6) 1
      return String.ofList (dropEnds 1 text) :: (← groupNames fuel (i + 1) ((part :: rest).drop used))
    else if isBareName part then return String.ofList part :: (← groupNames fuel (i + 1) rest)
    else throw (.invalid ("Invalid group name '" ++ String.ofList part ++ "'. Try quoting it."))

def Document.header (d : Document) (line : List Char) : Except Trouble Document := do
  if line.length == 1 then throw (.invalid "Opening key group bracket on line by itself.")
  let isArray := (line.drop 1).head? == some '['
  let close := if isArray then [']', ']'] else [']']
  let line := line.drop (if isArray then 2 else 1)
  let i := cutsBefore close false 1 (quotePieces line)
  let parts := Text.cutAtMost close i line
  if parts.length < i + 1 || !(Text.trim (parts.getLast?.getD [])).isEmpty then
    throw (.invalid "Key group not on a line by itself.")
  let pieces := Text.cut ['.'] (close.intercalate parts.dropLast)
  let groups ← groupNames (pieces.length + 1) 0 pieces
  { d with current := [] }.enterAll isArray groups

structure Reading where
  document : Document := {}
  opened : Option Open := none

def Reading.continue (r : Reading) (o : Open) (fuel : Nat) (line : List Char) : Except Trouble Reading := do
  let text := o.text ++ line
  let closed ←
    match text, line.reverse with
    | '[' :: _, [] => throw (.failure (.outOfRange .str))
    | '[' :: _, c :: _ => pure (c == ']')
    | q :: _, a :: b :: c :: _ => pure (a == q && b == q && c == q)
    | _, _ => pure false
  if closed then
    let (value, _) ← loadValue fuel text true
    let d := r.document
    return { document := { d with root := changeAt (·.set o.key value) d.current d.root } }
  else
    let odd := endsOdd text
    return { r with opened := some { o with text := if odd then text.dropLast else text ++ ['\n'], backslash := odd } }

def Reading.line (r : Reading) (fuel : Nat) (line : List Char) : Except Trouble Reading := do
  let asIs : Bool := r.opened.any fun o => !o.backslash && o.text.contains '\n'
  let line := if asIs then line else Text.trim line
  match r.opened with
  | some o => if line.isEmpty && o.backslash then return r else r.continue o fuel line
  | none =>
    match line, line.getLast? with
    | [], _ => return r
    | '[' :: _, _ => return { r with document := ← r.document.header line }
    | '\x7b' :: _, last =>
      if last != some '\x7d' then throw (.invalid "Line breaks are not allowed in inlineobjects")
      let d := r.document
      let level ← loadInline fuel line (valueAt d.current d.root)
      return { r with document := { d with root := changeAt (fun _ => level) d.current d.root } }
    | _, _ =>
      if line.contains '=' then
        let d := r.document
        let (level, opened) ← loadLine fuel line (valueAt d.current d.root)
        return { document := { d with root := changeAt (fun _ => level) d.current d.root }, opened }
      else return r

def readLines (fuel place : Nat) (r : Reading) : List (List Char) → Except Refusal Reading
  | [] => .ok r
  | line :: rest =>
    match r.line fuel line with
    | .ok r => readLines fuel (place + line.length + 1) r rest
    | .error (.invalid words) => .error (.problem ⟨words, place⟩)
    | .error (.failure f) => .error (.failure f)

def readChars (text : List Char) : Except Refusal Value := do
  let scanned ← scan text
  let r ← readLines (2 * text.length + 8) 0 {} (Text.cut ['\n'] scanned)
  return r.document.root

def read (text : String) : Except Failure Value :=
  match readChars text.toList with
  | .ok v => .ok v
  | .error (.problem p) => .error (.badToml (p.message text.toList))
  | .error (.failure f) => .error f

def load : Value → Except Failure Value
  | .str s => read s
  | _ => .error (.wrongArguments "Expecting something like a string")

end Rulewright.Toml
