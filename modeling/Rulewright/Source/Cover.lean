import Rulewright.Source.Node

/-!
Choosing among nodes: the outermost ones in order, so that no two overlap.
-/

namespace Rulewright.Source

def Node.before (n m : Node) : Bool :=
  n.start.lt m.start || (n.start == m.start && m.stop.le n.stop)

def keepDisjoint : Option Point → List Node → List Node
  | _, [] => []
  | none, n :: rest => n :: keepDisjoint (some n.stop) rest
  | some stop, n :: rest =>
    if stop.lt n.start then n :: keepDisjoint (some n.stop) rest else keepDisjoint (some stop) rest

def nonoverlapping (nodes : List Node) : List Node := keepDisjoint none (nodes.mergeSort Node.before)

def withoutPartial (nodes : List Node) : List Node :=
  nodes.filter fun n => n.children.all fun c => n.children.any fun d => d.place == c.place

end Rulewright.Source
