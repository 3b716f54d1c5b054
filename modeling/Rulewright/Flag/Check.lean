import Rulewright.Flag.Literal

/-!
Calls that check a flag. A call of a configured method on the flag is replaced by the truth value
that the flag now has for good.
-/

namespace Rulewright.Flag

structure Settings where
  properties : Value
  behaviour : Value
  flag : Option Value
  maxSteps : Option Value
  print : Value := .bool false
  keepComments : Bool := false
  filename : Value := .null

abbrev Methods := List (Option Value × Value)

def sameName (a b : Option Value) : Bool :=
  match a, b with
  | none, none => true
  | some a, some b => identical a b
  | _, _ => false

def methods (properties : Value) : Except Fault Methods := do
  let listed ← read (some properties) "methodProperties"
  match listed with
  | some (.list items) =>
    let named ← items.mapM fun item => do return (← read (some item) "methodName", item)
    return named.reverse
  | _ => .error .malformed

def Methods.get? (ms : Methods) (name : Option Value) : Option Value :=
  (ms.find? fun m => sameName m.1 name).map (·.2)

def argumentAt (arguments index : Option Value) : Except Fault (Option Value) :=
  match arguments with
  | none => .error .malformed
  | some .null => .error .malformed
  | some v => .ok (member? v (displayOr index))

def namesFlag (flag argument : Option Value) : Except Fault Bool := do
  match ← read argument "type" with
  | some (.str "Identifier") => return sameName (argument.bind (·.field? "name")) flag
  | some (.str "Literal") => return sameName (argument.bind (·.field? "value")) flag
  | _ => return false

/-- The truth value of a check: a `treated` method is true when the flag is on, a `control` method
when it is off. -/
def checkValue (behaviour : Value) (flagType : Option Value) : Bool :=
  (flagType == some (.str "treated") && truthy behaviour) ||
    (flagType == some (.str "control") && !truthy behaviour)

def replaceCheck (s : Settings) (ms : Methods) (node : Value) : Except Fault Reply := do
  present node
  if hasKind node "CallExpression" then
    let name ← read (node.field? "callee") "name"
    match ms.get? name with
    | none => return .keep node
    | some method =>
      let argument ← argumentAt (node.field? "arguments") (method.field? "argumentIndex")
      if ← namesFlag s.flag argument then
        return .put node (literal (checkValue s.behaviour (method.field? "flagType")))
      else return .keep node
  else return .keep node

def checks (s : Settings) (ms : Methods) : Pass where
  enter node := Reply.ofExcept node (replaceCheck s ms node)

def replaceChecks (s : Settings) (tree : Value) : Outcome Value :=
  match methods s.properties with
  | .ok ms => (checks s ms).run tree
  | .error fault => .stop tree fault

end Rulewright.Flag
