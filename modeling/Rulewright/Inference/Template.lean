import Rulewright.Failure
import Rulewright.Source.Cover
import Rulewright.Text.Blank

/-!
Templates in source code: a comment names the nodes that follow it, until a comment with `end`. A
comment with an arrow is an edge between two templates.
-/

namespace Rulewright.Inference

open Source (Node)

structure Templates where
  active : Option String := none
  nodes : List (String × List Node) := []
  edges : List (String × List String) := []

namespace Templates

def addNode (name : String) (n : Node) : List (String × List Node) → List (String × List Node)
  | [] => [(name, [n])]
  | (k, ns) :: rest => if k = name then (k, ns ++ [n]) :: rest else (k, ns) :: addNode name n rest

def addEdge (source target : String) : List (String × List String) → List (String × List String)
  | [] => [(source, [target])]
  | (k, ts) :: rest =>
    if k = source then (k, if ts.contains target then ts else ts ++ [target]) :: rest
    else (k, ts) :: addEdge source target rest

def afterMark (s : String) : String := Text.strip (String.ofList (s.toList.drop 2))

def comment (t : Templates) (text : String) : Except Failure Templates :=
  if Text.holds text "->" then
    match Text.splitAt text "->" with
    | [source, target] => .ok { t with edges := addEdge (afterMark source) (Text.strip target) t.edges }
    | _ => .error (.badValue "too many values to unpack (expected 2)")
  else if Text.holds text "end" then .ok { t with active := none }
  else .ok { t with active := some (afterMark text) }

def visit (t : Templates) (n : Node) : Except Failure Templates := do
  if Text.holds n.kind "comment" then t.comment (← liftSource n.text)
  else
    match t.active with
    | some name => return if name.isEmpty then t else { t with nodes := addNode name n t.nodes }
    | none => return t

mutual

def walk (t : Templates) : Node → Except Failure Templates
  | ⟨label, children⟩ => do walkAll (← t.visit ⟨label, children⟩) children

def walkAll (t : Templates) : List Node → Except Failure Templates
  | [] => .ok t
  | n :: rest => do walkAll (← t.walk n) rest

end

def reduced (t : Templates) : List (String × List Node) :=
  t.nodes.map fun (name, ns) => (name, Source.nonoverlapping (Source.withoutPartial ns))

end Templates

structure Pair where
  name : String
  before : List Node
  after : List Node

structure Parsed where
  pairs : List Pair
  edges : List (String × List String)

def parseTemplates (source target : Node) : Except Failure Parsed := do
  let before ← Templates.walk {} source
  let after ← Templates.walk { edges := before.edges } target
  let others := after.reduced
  return {
    pairs := before.reduced.map fun (name, ns) =>
      { name, before := ns, after := ((others.find? (·.1 == name)).map (·.2)).getD [] }
    edges := after.edges }

end Rulewright.Inference
