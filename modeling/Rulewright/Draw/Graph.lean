import Rulewright.Draw.Collect

/-!
The drawing: a box for every group with its rules in it, a node for every other rule, and the edges.
-/

namespace Rulewright.Draw

structure Node where
  name : String
  label : Option String := none
  shape : Option String := none
  deriving DecidableEq, Repr

structure Arrow where
  tail : String
  head : String
  label : String
  deriving DecidableEq, Repr

structure Sheet where
  nodes : List Node := []
  settled : List String := []
  deriving DecidableEq, Repr

namespace Gathered

def rulesOf? (g : Gathered) (name : String) : Option (List String) :=
  (g.groups.find? (·.1 == name)).map (·.2)

def lineOf (g : Gathered) (rule : String) : String :=
  if g.cleanup.contains rule then rule ++ " (Cleanup Rule)" else rule

def box (g : Gathered) (group : String) (rules : List String) : Node :=
  { name := group, label := some (group ++ "\\n\\n" ++ "\\n".intercalate (rules.map g.lineOf)), shape := some "record" }

def single (g : Gathered) (rule : String) : Node :=
  if g.dummies.contains rule then { name := rule, shape := some "doubleoctagon" }
  else if g.cleanup.contains rule then { name := rule, label := some (rule ++ "\\n(Cleanup Rule)") }
  else { name := rule }

def drawName (g : Gathered) (s : Sheet) (name : String) : Sheet :=
  match g.rulesOf? name with
  | some rules =>
    { nodes := s.nodes ++ [g.box name rules], settled := addName name (rules.foldl (fun l r => addName r l) s.settled) }
  | none =>
    { nodes := if s.settled.contains name then s.nodes else s.nodes ++ [g.single name]
      settled := addName name s.settled }

def drawUngrouped (s : Sheet) (rule : String) : Sheet :=
  if s.settled.contains rule then s
  else { nodes := s.nodes ++ [{ name := rule }], settled := s.settled ++ [rule] }

def names (g : Gathered) : List String :=
  let sources := g.edges.map (·.1)
  sources ++ (g.groups.map (·.1)).filter (!sources.contains ·) ++ g.cleanup

def nodes (g : Gathered) : List Node :=
  (g.ungrouped.foldl drawUngrouped (g.names.foldl g.drawName {})).nodes

def arrows (g : Gathered) : List Arrow :=
  g.edges.flatMap fun (tail, edges) => edges.map fun e => { tail, head := e.target, label := e.scope }

end Gathered
end Rulewright.Draw
