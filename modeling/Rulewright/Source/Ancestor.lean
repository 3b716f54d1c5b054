import Rulewright.Source.Node

/-!
The lowest common ancestor of nodes: among the nodes above all of them, the one that starts last.
-/

namespace Rulewright.Source

def ancestors (p : Place) : List Place := (List.range p.length).map fun i => p.take (i + 1)

def commonAncestors : List Place → List Place
  | [] => []
  | p :: rest => (ancestors p).filter fun a => rest.all fun q => a.isPrefixOf q

def later (a b : Node) : Node := if b.label.startByte < a.label.startByte then a else b

def lowestCommonAncestor (forest : Forest) (nodes : List Node) : Except Error Node :=
  if nodes.isEmpty then .error .noNodes
  else
    match (commonAncestors (nodes.map Node.place)).filterMap forest.at? with
    | [] => .error .noCommonAncestor
    | a :: rest => .ok (rest.foldl later a)

end Rulewright.Source
