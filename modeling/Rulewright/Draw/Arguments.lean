import Rulewright.Failure
import Rulewright.Json.Reader

/-!
The command line of the drawing program: an output file, one or more folders, and options, which may be
shortened and may stand anywhere.
-/

namespace Rulewright.Draw

structure Options where
  output : String := ""
  folders : List String := []
  title : Option String := some ""
  unflatten : Bool := false
  stagger : Int := 2
  deriving DecidableEq, Repr

inductive Switch where
  | help
  | title
  | unflatten
  | stagger
  deriving DecidableEq, Repr

def optionNames : List (String × Switch) :=
  [("-h", .help), ("--help", .help), ("--title", .title), ("--unflatten", .unflatten), ("--stagger", .stagger)]

inductive Token where
  | plain (text : String)
  | separator
  | option (o : Switch) (short : Bool) (value : Option String)
  | unknown
  deriving DecidableEq, Repr

def usage : Failure := .exit (.int 2)

def isNegativeNumber : List Char → Bool
  | '-' :: cs =>
    let cs := if cs.getLast? == some '\n' then cs.dropLast else cs
    let digits := cs.takeWhile Text.isDecimal
    match cs.drop digits.length with
    | [] => !digits.isEmpty
    | '.' :: rest => !rest.isEmpty && rest.all Text.isDecimal
    | _ => false
  | _ => false

def candidates (arg : String) : List Token :=
  match arg.toList with
  | '-' :: '-' :: _ =>
    let (name, value) :=
      match Text.cutOnce ['='] arg.toList with
      | some (front, back) => (front, some (String.ofList back))
      | none => (arg.toList, none)
    optionNames.filterMap fun (n, o) => if name.isPrefixOf n.toList then some (.option o false value) else none
  | '-' :: c :: rest =>
    optionNames.filterMap fun (n, o) =>
      if n.toList == ['-', c] then some (.option o true (some (String.ofList rest))) else none
  | _ => []

def isShort (name : List Char) : Bool := !(['-', '-'].isPrefixOf name)

def token (arg : String) : Except Failure Token :=
  if arg.toList.head? != some '-' then .ok (.plain arg)
  else
    match optionNames.find? (·.1 == arg) with
    | some (name, o) => .ok (.option o (isShort name.toList) none)
    | none =>
      if arg.length == 1 then .ok (.plain arg)
      else
        let joined := (Text.cutOnce ['='] arg.toList).bind fun (front, back) =>
          (optionNames.find? (·.1.toList == front)).map fun (_, o) =>
            Token.option o (isShort front) (some (String.ofList back))
        match joined with
        | some t => .ok t
        | none =>
          match candidates arg with
          | [t] => .ok t
          | _ :: _ :: _ => .error usage
          | [] =>
            if isNegativeNumber arg.toList then .ok (.plain arg)
            else if arg.toList.contains ' ' then .ok (.plain arg)
            else .ok .unknown

def tokens : List String → Except Failure (List Token)
  | [] => .ok []
  | arg :: rest => do
    if arg == "--" then return .separator :: rest.map .plain
    else
      let t ← token arg
      return t :: (← tokens rest)

def separators : List Token → List String × List Token
  | .separator :: rest => let (ss, rest) := separators rest; ("--" :: ss, rest)
  | ts => ([], ts)

def plainRun : List Token → List String × List Token
  | .plain s :: rest => let (ss, rest) := plainRun rest; (s :: ss, rest)
  | .separator :: rest => let (ss, rest) := plainRun rest; ("--" :: ss, rest)
  | ts => ([], ts)

def severalPlain (ts : List Token) : Option (List String × List Token) :=
  match separators ts with
  | (_, .plain _ :: _) => some (plainRun ts)
  | _ => none

def onePlain (ts : List Token) : Option (List String × List Token) :=
  match separators ts with
  | (front, .plain s :: rest) => let (back, rest) := separators rest; some (front ++ s :: back, rest)
  | _ => none

def withoutDashes (args : List String) : List String := args.erase "--"

inductive Wanted where
  | output
  | folders
  | nothing
  deriving DecidableEq, Repr

structure Parsing where
  options : Options := {}
  wanted : Wanted := .output
  extra : Bool := false

def Parsing.takeFolders (p : Parsing) (ts : List Token) : Option (Parsing × List Token) := do
  let (folders, rest) ← severalPlain ts
  return ({ p with options := { p.options with folders := withoutDashes folders }, wanted := .nothing }, rest)

def Parsing.takePlain (p : Parsing) (ts : List Token) : Option (Parsing × List Token) :=
  match p.wanted with
  | .output => do
    let (output, rest) ← onePlain ts
    let p := { p with options := { p.options with output := (withoutDashes output).headD "" }, wanted := .folders }
    return (p.takeFolders rest).getD (p, rest)
  | .folders => p.takeFolders ts
  | .nothing => none

def isHelpAgain (value : String) : Bool := value != "" && value.toList.all (· == 'h')

def Parsing.takeOption (p : Parsing) (o : Switch) (short : Bool) (value : Option String) (ts : List Token) :
    Except Failure (Parsing × List Token) := do
  let (value, ts) : Option String × List Token :=
    match value, ts with
    | some v, ts => (some v, ts)
    | none, .plain s :: rest => if o == .title || o == .stagger then (some s, rest) else (none, ts)
    | none, ts => (none, ts)
  match o, value with
  | .help, none => throw (.exit (.int 0))
  | .help, some v => throw (if short && isHelpAgain v then .exit (.int 0) else usage)
  | .unflatten, none => return ({ p with options := { p.options with unflatten := true } }, ts)
  | .unflatten, some _ => throw usage
  | .title, title => return ({ p with options := { p.options with title := title.filter (· != "--") } }, ts)
  | .stagger, none => return ({ p with options := { p.options with stagger := 2 } }, ts)
  | .stagger, some s =>
    if s == "--" then return ({ p with options := { p.options with stagger := 2 } }, ts)
    else
      match Text.wholeNumber? s.toList with
      | some stagger => return ({ p with options := { p.options with stagger } }, ts)
      | none => throw usage

def Parsing.run : Nat → Parsing → List Token → Except Failure Parsing
  | 0, p, _ => .ok p
  | _ + 1, p, [] => .ok p
  | fuel + 1, p, t :: rest => do
    match t with
    | .option o short value =>
      let (p, rest) ← p.takeOption o short value rest
      run fuel p rest
    | .unknown => run fuel { p with extra := true } rest
    | t =>
      match p.takePlain (t :: rest) with
      | some (p, rest) => run fuel p rest
      | none => run fuel { p with extra := true } rest

def readArguments (args : List String) : Except Failure Options := do
  let ts ← tokens args
  let p ← Parsing.run (ts.length + 1) {} ts
  if p.wanted != .nothing || p.extra then throw usage
  return p.options

end Rulewright.Draw
