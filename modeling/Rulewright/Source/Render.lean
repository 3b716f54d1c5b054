import Rulewright.Source.Node
import Rulewright.Text.Blank

/-!
Writing nodes: as an indented expression of kinds and fields, and as source text with one blank
between neighbouring tokens.
-/

namespace Rulewright.Source

def indent (depth : Int) : String := String.ofList (List.replicate depth.toNat ' ')

def Node.fieldMark (n : Node) : String :=
  match n.fieldName? with
  | some f => f ++ ": "
  | none => ""

mutual

/-- The kinds of a node and its named descendants, one to a line. Anonymous nodes are shown only where
they fill a field. -/
def Node.outline (depth : Int) (mark : String) : Node → String
  | ⟨label, children⟩ => indent depth ++ mark ++ "(" ++ label.kind ++ " " ++ outlines (depth + 1) children ++ ")"

def outlines (depth : Int) : List Node → String
  | [] => ""
  | n :: rest =>
    (if n.named then "\n" ++ Node.outline depth n.fieldMark n
    else
      match n.fieldName? with
      | some f => "\n" ++ indent depth ++ f ++ ": (\"" ++ n.kind ++ "\")"
      | none => "") ++ outlines depth rest

end

def Node.contains (n other : Node) : Bool := n.start.le other.start && other.stop.le n.stop

def placeholder : String := "\x7bplaceholder\x7d"

mutual

/-- The text of a node with a blank between its tokens. A node inside one of the nodes to leave out
gives a placeholder. -/
def Node.unified (leaveOut : List Node) : Node → Except Error String
  | ⟨label, children⟩ =>
    if leaveOut.any (·.contains ⟨label, children⟩) then .ok placeholder
    else
      match children with
      | [] => (⟨label, []⟩ : Node).text
      | c :: rest => do
        let parts ← unifiedAll leaveOut (c :: rest)
        return Text.strip (String.join (parts.map (· ++ " ")))

def unifiedAll (leaveOut : List Node) : List Node → Except Error (List String)
  | [] => .ok []
  | n :: rest => do
    let text ← n.unified leaveOut
    let texts ← unifiedAll leaveOut rest
    return text :: texts

end

def Node.source (n : Node) : Except Error String := n.unified []

end Rulewright.Source
