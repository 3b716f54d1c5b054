import Rulewright.Draw.Arguments
import Rulewright.Draw.Graph
import Rulewright.Text.Lines
import Rulewright.Toml.Reader

/-!
The drawing program: it reads the rules and edges of one or more folders and draws their graph. The
files it finds are given.
-/

namespace Rulewright.Draw

structure File where
  path : List String
  text : String
  deriving DecidableEq, Repr

abbrev Files := List File

def resolve (path : String) : Option (List String) :=
  match path.toList with
  | '/' :: _ => none
  | _ =>
    (Text.splitAt path "/").foldl (fun way part =>
      match way, part with
      | none, _ => none
      | some way, "" => some way
      | some way, "." => some way
      | some [], ".." => none
      | some way, ".." => some way.dropLast
      | some way, part => some (way ++ [part])) (some [])

def leadsUp (path : String) : Bool := (Text.splitAt path "/").all fun part => ["", ".", ".."].contains part

inductive Entry where
  | file (text : String)
  | folder
  | missing
  | blocked
  deriving DecidableEq, Repr

namespace Files

def isFolder (files : Files) (path : List String) : Bool :=
  path.isEmpty || files.any fun f => path.isPrefixOf f.path && path.length < f.path.length

def look (files : Files) (made path : List String) : Entry :=
  match files.find? (·.path == path) with
  | some f => .file (Text.plain f.text)
  | none =>
    if files.isFolder path || path.isPrefixOf made then .folder
    else if files.any fun f => f.path.isPrefixOf path then .blocked
    else .missing

def folders (files : Files) (made : List String) : List String :=
  (files.filterMap (fun f => if 1 < f.path.length then f.path.head? else none) ++ made.head?.toList).eraseDups

def text (files : Files) (made path : List String) : Except Failure String :=
  match files.look made path with
  | .file text => .ok text
  | .folder => .error .isFolder
  | .missing => .error .missingFile
  | .blocked => .error .notFolder

/-- The folder that has to be made so that there is one at a path; there is none if something stands
there. -/
def make (files : Files) (path : List String) : Except Failure (List String) :=
  match files.look [] path with
  | .missing => .ok path
  | .blocked => .error .notFolder
  | _ => .ok []

end Files

structure Drawing where
  title : Option String
  nodes : List Node
  arrows : List Arrow
  stagger : Option Int
  folders : List String
  deriving DecidableEq, Repr

def checkPath (path : String) : Except Failure Unit :=
  if path.toList.contains '\x00' then .error (.badValue "embedded null byte") else .ok ()

def gather (files : Files) (made : List String) (g : Gathered) (folder : String) : Except Failure Gathered := do
  checkPath folder
  match resolve folder with
  | none => throw .missingFile
  | some path =>
    let g ← g.rules (← Toml.read (← files.text made (path ++ ["rules.toml"])))
    match files.look made (path ++ ["edges.toml"]) with
    | .missing => return g
    | .blocked => return g
    | _ => g.edgesOf (← Toml.read (← files.text made (path ++ ["edges.toml"])))

def run (files : Files) (args : List String) : Except Failure Drawing := do
  let o ← readArguments args
  let path := resolve o.output
  if leadsUp o.output || (path.map files.isFolder).getD false then
    throw (.badValue "output_file_path (first arg) should be a file, not a directory")
  let outer := (path.getD []).dropLast
  checkPath ("/".intercalate outer)
  let made ← files.make outer
  let g ← o.folders.foldlM (gather files made) {}
  return {
    title := o.title, nodes := g.nodes, arrows := g.arrows
    stagger := if o.unflatten then some o.stagger else none
    folders := files.folders made }

end Rulewright.Draw
