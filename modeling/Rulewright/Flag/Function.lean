import Rulewright.Flag.Limit
import Rulewright.Flag.Variable

/-!
Functions that only return a truth value put in before: counting the returns of each function, checking
what the single return of a function returns, and putting the truth value in the place of each call.
-/

namespace Rulewright.Flag

/-- The number of returns seen under each name. A return that belongs to no function counted so far
makes the count of its name meaningless (`none`). -/
structure Returns where
  counts : List (String × Option Nat) := []
  current : String := "undefined"

namespace Returns

def assign (name : String) (count : Option Nat) : List (String × Option Nat) → List (String × Option Nat)
  | [] => [(name, count)]
  | (n, c) :: rest => if n = name then (n, count) :: rest else (n, c) :: assign name count rest

def start (name : String) (count : Nat) (r : Returns) : Returns :=
  { counts := if name == "__proto__" then r.counts else assign name (some count) r.counts, current := name }

def count (r : Returns) : Returns :=
  if r.current == "__proto__" then r
  else { r with counts := assign r.current ((r.counts.lookup r.current).join.map (· + 1)) r.counts }

end Returns

def inDeclarator (parent : Option Value) : Except Fault Bool := do
  return (← kindOf parent) == some (.str "VariableDeclarator")

def parentName (parent : Option Value) : Except Fault String :=
  match parent with
  | some p => nameOf p
  | none => .error .malformed

def countReturns : Visit Returns := fun r parent node => do
  if hasKind node "FunctionDeclaration" then
    return (r.start (← nameOf node) 0, false)
  else if hasKind node "FunctionExpression" then
    if ← inDeclarator parent then return (r.start (← parentName parent) 0, false)
    else return (r, false)
  else if hasKind node "ArrowFunctionExpression" then
    if ← inDeclarator parent then
      let name ← parentName parent
      let isBlock := (← kindOf (node.field? "body")) == some (.str "BlockStatement")
      return (r.start name (if isBlock then 0 else 1), false)
    else return (r, false)
  else if hasKind node "ReturnStatement" then return (r.count, false)
  else return (r, false)

def singleReturns (tree : Value) : Except Fault Table := do
  let r ← analyse countReturns {} tree
  return (r.counts.filter fun e => e.2 == some 1).map fun e => (e.1, .int 1)

def lastStatement (body : Value) : Option (Option Value) :=
  match (member? body "length").map numeric with
  | some (.int n) => if n ≤ 0 then none else some (member? body (toString (n - 1)))
  | _ => some none

/-- Notes a function whose last statement returns a marked literal. Answers whether the function has
a last statement at all. -/
def noteFunction (function : Value) (name : String) (t : Table) : Except Fault (Table × Bool) := do
  match function.field? "body" with
  | some .null => return (t, false)
  | body =>
    match ← read body "body" with
    | none => return (t, false)
    | some .null => return (t, false)
    | some statements =>
      match lastStatement statements with
      | none => return (t, false)
      | some last =>
        let argument := last.bind (·.field? "argument")
        if (← kindOf last) == some (.str "ReturnStatement") && argument != some .null then
          if ← isMarked argument then
            match truth? argument with
            | some b => return (t.store name (.bool b), true)
            | none => return (t, true)
          else return (t, true)
        else return (t, true)

/-- Notes the functions under names in `single` that return a marked literal. The children of a
function without a last statement are passed over. -/
def noteFunctions (single : Table) : Visit Table := fun t parent node => do
  if hasKind node "FunctionDeclaration" then
    let name ← nameOf node
    if single.reads name then
      let (t, known) ← noteFunction node name t
      return (t, !known)
    else return (t, false)
  else if hasKind node "FunctionExpression" then
    if ← inDeclarator parent then
      let name ← parentName parent
      if single.reads name then
        let (t, known) ← noteFunction node name t
        return (t, !known)
      else return (t, false)
    else return (t, false)
  else if hasKind node "ArrowFunctionExpression" then
    if ← inDeclarator parent then
      let name ← parentName parent
      if single.answers name then
        let body := node.field? "body"
        if (← kindOf body) == some (.str "BlockStatement") then
          let (t, known) ← noteFunction node name t
          return (t, !known)
        else if ← isMarked body then
          match truth? body with
          | some b => return (t.store name (.bool b), false)
          | none => return (t, false)
        else return (t, false)
      else return (t, false)
    else return (t, false)
  else return (t, false)

def redundantFunctions (single : Table) (tree : Value) : Except Fault Table :=
  analyse (noteFunctions single) [] tree

def pruneFunction (keepComments : Bool) (t : Table) (node : Value) : Except Fault Reply := do
  present node
  if hasKind node "FunctionDeclaration" then
    return if t.answers (← nameOf node) then .drop node (if keepComments then .all else .nothing) else .keep node
  else if hasKind node "VariableDeclarator" then
    return if t.answers (← nameOf node) then .drop node .nothing else .keep node
  else if hasKind node "CallExpression" then
    let name := displayOr (← read (node.field? "callee") "name")
    return if t.answers name then .put node (literal (t.reads name)) else .keep node
  else return .keep node

def functions (keepComments : Bool) (t : Table) : Pass where
  enter node := Reply.ofExcept node (pruneFunction keepComments t node)
  leave node := Reply.ofExcept node (pruneEmptied (.ofOption keepComments) node)

def pruneFunctions (keepComments : Bool) (t : Table) (tree : Value) : Outcome Value :=
  (functions keepComments t).run tree

end Rulewright.Flag
