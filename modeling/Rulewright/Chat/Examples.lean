import Rulewright.Text.Lines
import Rulewright.Text.Search

/-!
Example rules for the chat: the rule and edge files below a folder, without their comment lines.
-/

namespace Rulewright.Chat

structure File where
  path : List String
  text : String
  deriving DecidableEq, Repr

def isExample (name : String) : Bool :=
  "rules.toml".toList.isSuffixOf name.toList || "edges.toml".toList.isSuffixOf name.toList

def withoutComments (text : String) : String :=
  "\n".intercalate ((Text.splitAt (Text.plain text) "\n").filter fun line =>
    line.toList.head? != some '#')

def exampleText (folder : List String) (name text : String) : String :=
  "<file_name_start> " ++ Text.join "/" (folder ++ [name]) ++ " <file_name_end>\n```toml " ++
    withoutComments text ++ "```\n"

/-- The examples in a folder: its own files, then those of the folders in it. The files are given by
their paths from the folder on. -/
def examplesIn (folder : List String) : Nat → List File → String
  | 0, _ => ""
  | fuel + 1, files =>
    let own := files.filterMap fun f =>
      match f.path with
      | [name] => if isExample name then some (exampleText folder name f.text) else none
      | _ => none
    let folders := (files.filterMap fun f =>
      match f.path with
      | name :: _ :: _ => some name
      | _ => none).eraseDups
    String.join own ++ String.join (folders.map fun name =>
      examplesIn (folder ++ [name]) fuel (files.filterMap fun f =>
        match f.path with
        | first :: second :: rest => if first == name then some { f with path := second :: rest } else none
        | _ => none))

def examples (folder : String) (files : List File) : String :=
  let below := files.filterMap fun f =>
    match f.path with
    | first :: second :: rest => if first == folder then some { f with path := second :: rest } else none
    | _ => none
  examplesIn [folder] ((below.map fun f => f.path.length).foldl max 0 + 1) below

end Rulewright.Chat
