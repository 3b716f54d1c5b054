import Rulewright.Service.Page.Home
import Rulewright.Service.Page.Script
import Rulewright.Service.Page.Style
import Rulewright.Service.Page.Target

/-!
The web pages of the server: the page of the playground, the files it needs, and the place where sockets
are opened.
-/

namespace Rulewright.Service.Page

structure Response where
  status : Nat
  text : Option String
  deriving DecidableEq, Repr

def Response.refusal (status : Nat) : Response := { status, text := none }

inductive Route where
  | home
  | file (name : List Char)
  deriving DecidableEq, Repr

def Route.find? (path : List Char) : Option Route :=
  if path == ['/'] then some .home
  else
    let folder := "/static/".toList
    if folder.isPrefixOf path then
      match path.drop folder.length with
      | [] => none
      | c :: rest => if c == '/' || rest.contains '\n' then none else some (.file (c :: rest))
    else none

def normalParts (done : List (List Char)) : List (List Char) → List (List Char)
  | [] => done
  | part :: rest =>
    if part.isEmpty || part == ['.'] then normalParts done rest
    else if part == ['.', '.'] then
      match done with
      | [] => normalParts [part] rest
      | inner :: outer => normalParts (if inner == ['.', '.'] then part :: done else outer) rest
    else normalParts (part :: done) rest

def fileText (name : List Char) : Option String :=
  match normalParts [] (Text.cut ['/'] name) with
  | [part] =>
    if part == "styles.css".toList then some styleSheet
    else if part == "script.js".toList then some script
    else none
  | _ => none

def mergeSlashes : List Char → List Char
  | '/' :: '/' :: rest => '/' :: mergeSlashes rest
  | c :: rest => c :: mergeSlashes rest
  | [] => []

def isAllowed (method : String) : Bool := ["GET", "HEAD", "OPTIONS"].contains method

/-- Answers a request to the place where sockets are opened. Only the fourth version is spoken, and no
session is known before one is opened. -/
def answerSocket (method : String) (t : Target) : Response :=
  let pairs := t.pairs
  let values (name : String) : List String := (pairs.filter (·.1 == name)).map (·.2)
  let transport := (values "transport").head?.getD "polling"
  let session := values "sid"
  if !(["polling", "websocket"].contains transport) then .refusal 400
  else if session.isEmpty && values "EIO" != ["4"] then .refusal 400
  else if method == "GET" then
    if session.isEmpty && transport == "polling" then { status := 200, text := some "" } else .refusal 400
  else if method == "POST" then .refusal 400
  else if method == "OPTIONS" then { status := 200, text := some "OK" }
  else .refusal 405

def answerRoute (method asked : String) : Route → Response
  | route =>
    if asked == "OPTIONS" then { status := 200, text := some "" }
    else
      let text : Option String :=
        match route with
        | .home => some home
        | .file name => fileText name
      match text with
      | none => .refusal 404
      | some text => { status := 200, text := some (if method == "HEAD" then "" else text) }

def respond (method address : String) : Response :=
  let target := Target.ofRequest address
  let asked := String.ofList (method.toList.map Char.toUpper)
  if "/socket.io/".toList.isPrefixOf target.path then answerSocket method target
  else if target.path.isEmpty then .refusal (if isAllowed asked then 308 else 404)
  else
    let path := '/' :: target.path.dropWhile (· == '/')
    match Route.find? path with
    | some route => if isAllowed asked then answerRoute method asked route else .refusal 405
    | none =>
      match Route.find? (mergeSlashes path) with
      | some _ => .refusal (if isAllowed asked then 308 else 405)
      | none => .refusal 404

end Rulewright.Service.Page
