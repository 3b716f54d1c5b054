import Rulewright.Rule.Graph

/-!
What the refactoring engine is given: filters, rules and edges in its own form, and the arguments of a
run.
-/

namespace Rulewright
namespace Engine

structure Filter where
  enclosing : Value
  notEnclosing : Value
  notContains : Value
  contains : Value
  atLeast : Value
  atMost : Value
  deriving DecidableEq, Repr

structure Rule where
  name : Value
  query : Value
  replaceNode : Value
  replace : Value
  groups : Names
  holes : Names
  filters : List Filter
  isSeed : Value
  deriving DecidableEq, Repr

structure Edge where
  source : Value
  targets : Value
  scope : Value
  deriving DecidableEq, Repr

structure Graph where
  rules : List Rule
  edges : List Edge
  deriving DecidableEq, Repr

structure PlainFilter where
  matcher : String
  notContains : List String
  deriving DecidableEq, Repr

structure PlainRule where
  name : String
  query : String
  replaceNode : String
  replace : String
  filters : List PlainFilter := []
  holes : List String := []
  deriving DecidableEq, Repr

inductive Program where
  | graph (g : Graph)
  | rules (rules : List PlainRule)
  | folder (path : String)
  deriving DecidableEq, Repr

inductive Input where
  | snippet (code : Value)
  | codebase (path : Value)
  deriving DecidableEq, Repr

structure Arguments where
  input : Input
  language : Value
  program : Program
  dryRun : Option Value := none
  substitutions : Option Value := none
  allowDirtyTree : Bool := false
  cleanupComments : Bool := false
  deriving DecidableEq, Repr

end Engine

def Filter.engine (f : Filter) : Engine.Filter :=
  { enclosing := f.enclosing, notEnclosing := f.notEnclosing, notContains := f.notContains
    contains := f.contains, atLeast := f.atLeast, atMost := f.atMost }

def Rule.engine (r : Rule) : Engine.Rule :=
  { name := r.name, query := r.query, replaceNode := r.replaceNode, replace := r.replace, groups := r.groups
    holes := r.holes, filters := r.filters.map Filter.engine, isSeed := r.isSeed }

def Engine.Edge.ofTable (edge : Value) : Except Failure Engine.Edge := do
  let source ← edge.demand "from"
  let targets ← edge.demand "to"
  let scope ← edge.demand "scope"
  return { source, targets, scope }

def Graph.engine (g : Graph) : Except Failure Engine.Graph := do
  return { rules := g.rules.map Rule.engine, edges := ← g.edges.mapM Engine.Edge.ofTable }

end Rulewright
