import Rulewright.Flag.Table

/-!
Variables that only hold a truth value put in before: finding them, deleting their declarations and
assignments, and putting the truth value in the place of each reference.
-/

namespace Rulewright.Flag

def markedTruth? (v : Option Value) : Except Fault (Option Bool) :=
  match v with
  | none => .ok none
  | some v => if truthy v then do return (if ← isMarked (some v) then truth? (some v) else none) else .ok none

/-- The elements that a value counts, by its length. Where it counts more than it has, one that is
missing follows. -/
def elements (v : Value) : List (Option Value) :=
  match v, member? v "length" with
  | .list items, _ => items.map some
  | .dict entries, some (.int n) => (List.range (min n.toNat (entries.length + 1))).map fun i => member? v (toString i)
  | .str s, _ => (pieces s).map some
  | _, _ => []

def declarators (node : Value) : Except Fault (List (Option Value)) :=
  match node.field? "declarations" with
  | none => .error .malformed
  | some .null => .error .malformed
  | some v => .ok (elements v)

def nameOf (node : Value) : Except Fault String := do
  return displayOr (← read (node.field? "id") "name")

def collectDeclarators (t : Table) : List (Option Value) → Except Fault Table
  | [] => .ok t
  | d :: rest => do
    let init ← read d "init"
    match ← markedTruth? init with
    | some b => collectDeclarators (t.store (displayOr (← read (d.bind (·.field? "id")) "name")) (.bool b)) rest
    | none => collectDeclarators t rest

def noteWrites : Visit Table := fun t _ node => do
  if hasKind node "VariableDeclaration" then
    return (← collectDeclarators t (← declarators node), false)
  else if hasKind node "AssignmentExpression" then
    match ← markedTruth? (node.field? "right") with
    | some b =>
      match ← read (node.field? "left") "name" with
      | some name => return (t.store (display name) (.bool b), false)
      | none => return (t, false)
    | none => return (t, false)
  else return (t, false)

def redundantVariables (tree : Value) : Except Fault Table := analyse noteWrites [] tree

/-- On the way down: declarators and assignment statements of a variable in the table go, and its
references become literals. -/
def pruneVariable (carry : Carry) (t : Table) (node : Value) : Except Fault Reply := do
  present node
  if hasKind node "VariableDeclarator" then
    return if t.answers (← nameOf node) then .drop node .nothing else .keep node
  else if hasKind node "ExpressionStatement" then
    let expression := node.field? "expression"
    if (← read expression "type") == some (.str "AssignmentExpression") then
      let name := displayOr (← read (expression.bind (·.field? "left")) "name")
      return if t.answers name then .drop node carry else .keep node
    else return .keep node
  else if hasKind node "Identifier" then
    match (t.own? (displayOr (node.field? "name"))).bind Value.bool? with
    | some b => return .put node (literal b)
    | none => return .keep node
  else return .keep node

def isEmptied (node : Value) : Except Fault Bool :=
  if hasKind node "VariableDeclaration" then
    match node.field? "declarations" with
    | none => .error .malformed
    | some .null => .error .malformed
    | some v => .ok (member? v "length" == some (.int 0))
  else .ok false

def pruneEmptied (carry : Carry) (node : Value) : Except Fault Reply := do
  return if ← isEmptied node then .drop node carry else .keep node

def variablePass (carry : Carry) (t : Table) : Pass where
  enter node := Reply.ofExcept node (pruneVariable carry t node)
  leave node := Reply.ofExcept node (pruneEmptied carry node)

def pruneVariables (keepComments : Bool) (t : Table) (tree : Value) : Outcome Value :=
  (variablePass (.ofOption keepComments) t).run tree

end Rulewright.Flag
