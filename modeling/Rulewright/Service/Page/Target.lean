import Rulewright.Json.Reader
import Rulewright.Text.Search

/-!
What a request asks for: the path and the questions of its address. A scheme and a host may stand before
the path, and a mark may follow the questions; both mean nothing here.
-/

namespace Rulewright.Service.Page

structure Target where
  path : List Char
  query : List Char := []
  deriving DecidableEq, Repr

def isSchemeChar (c : Char) : Bool :=
  (c.toNat < 0x80 && c.isAlphanum) || c == '+' || c == '-' || c == '.'

def dropScheme (cs : List Char) : List Char :=
  let scheme := cs.takeWhile isSchemeChar
  match scheme, cs.drop scheme.length with
  | c :: _, ':' :: rest => if c.isAlpha then rest else cs
  | _, _ => cs

def dropHost : List Char → List Char
  | '/' :: '/' :: rest => rest.dropWhile fun c => c != '/' && c != '?' && c != '#'
  | cs => cs

def Target.ofAddress (cs : List Char) : Target :=
  let cs := cs.filter fun c => c != '\t' && c != '\n' && c != '\r'
  let cs := (dropHost (dropScheme cs)).takeWhile (· != '#')
  let path := cs.takeWhile (· != '?')
  { path, query := cs.drop (path.length + 1) }

/-- Replaces the escapes of a path. No page has a name beyond ASCII, so the bytes of such characters need
not be put together. -/
def unescapePath : List Char → List Char
  | [] => []
  | '%' :: a :: b :: rest =>
    match Json.hexDigit? a, Json.hexDigit? b with
    | some m, some n => (if m < 8 then Char.ofNat (m * 16 + n) else '�') :: unescapePath rest
    | _, _ => '%' :: unescapePath (a :: b :: rest)
  | c :: rest => c :: unescapePath rest

def Target.pairs (t : Target) : List (String × String) :=
  (Text.cut ['&'] t.query).filterMap fun piece =>
    match Text.cutOnce ['='] piece with
    | some (name, value) => if value.isEmpty then none else some (plain name, plain value)
    | none => none
where
  plain (cs : List Char) : String :=
    String.ofList (unescapePath (cs.map fun c => if c == '+' then ' ' else c))

def Target.ofRequest (address : String) : Target :=
  let first := Target.ofAddress address.toList
  let second := Target.ofAddress first.path
  { path := unescapePath second.path, query := first.query }

end Rulewright.Service.Page
