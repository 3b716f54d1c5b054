import Rulewright.Text.Search

/-!
Blocks in an answer of the model: the text between an opening and the next closing mark.
-/

namespace Rulewright.Agent

structure Marks where
  opening : List Char
  notBefore : List Char := []
  closing : List Char

def fence : List Char := "```".toList

def tomlMarks : Marks := { opening := fence ++ "toml".toList, notBefore := "md".toList, closing := fence }

def markdownMarks : Marks := { opening := fence ++ "md".toList, closing := fence }

def fileMarks : Marks := { opening := "<file_name_start>".toList, closing := "<file_name_end>".toList }

def Marks.after? (m : Marks) (cs : List Char) : Option (List Char) :=
  if m.opening.isPrefixOf cs then
    let rest := cs.drop m.opening.length
    if !m.notBefore.isEmpty && m.notBefore.isPrefixOf rest then none else some rest
  else none

def Marks.blocksFrom (m : Marks) : Nat → List Char → List String
  | 0, _ => []
  | _ + 1, [] => []
  | fuel + 1, c :: rest =>
    match (m.after? (c :: rest)).bind (Text.cutOnce m.closing) with
    | some (body, back) => String.ofList body :: m.blocksFrom fuel back
    | none => m.blocksFrom fuel rest

def Marks.blocks (m : Marks) (text : String) : List String :=
  m.blocksFrom text.length text.toList

end Rulewright.Agent
