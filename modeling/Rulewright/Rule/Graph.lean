import Rulewright.Rule.Basic
import Rulewright.Toml.Reader

/-!
Rule graphs: rules and the edges between them. An edge is a table that says from which rule to which
others it goes, and in what scope.
-/

namespace Rulewright

structure Graph where
  rules : List Rule
  edges : List Value
  deriving DecidableEq, Repr

namespace Graph

def edgeToml (edge : Value) : Except Failure String := do
  let scope ← edge.demand "scope"
  let source ← edge.demand "from"
  let targets ← edge.demand "to"
  return "\n".intercalate
    ["[[edges]]", Rule.shortText "scope" scope, Rule.shortText "from" source,
      "to = " ++ Json.render Json.spaced targets]

def toml (g : Graph) : Except Failure String := do
  let rules ← g.rules.mapM Rule.toml
  let edges ← if g.edges.isEmpty then pure "\n\n" else do pure ("\n\n".intercalate (← g.edges.mapM edgeToml))
  return "\n\n".intercalate rules ++ "\n" ++ edges

def make (rules : List Rule) (edges : Value) : Except Failure Graph :=
  match edges with
  | .list edges => .ok { rules, edges }
  | _ => .error (.wrongType "edges")

def ofTable (v : Value) : Except Failure Graph := do
  let rules ← (← (← v.demand "rules").each).mapM Rule.ofTable
  make rules (← v.lookup "edges" (.list []))

def ofRecords (rules edges : Value) : Except Failure Graph := do
  match rules with
  | .list rules => make (← rules.mapM Rule.ofRecord) edges
  | _ => throw (.wrongType "rules")

def ofToml (text : String) : Except Failure Graph := do ofTable (← Toml.read text)

def isText : Value → Bool
  | .str s => (ofToml s).isOk
  | _ => false

end Graph
end Rulewright
