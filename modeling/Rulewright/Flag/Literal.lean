import Rulewright.Flag.Walk

/-!
Truth values put into the tree. They are marked, so that only code around them is simplified and
code that was there before is left alone; the marks are taken off at the end.
-/

namespace Rulewright.Flag

def marker : String := "createdByPiranha"

def literal (b : Bool) : Value :=
  .dict [("type", .str "Literal"), ("value", .bool b), ("raw", .str (if b then "true" else "false")),
    (marker, .bool true)]

def isMarked (v : Option Value) : Except Fault Bool :=
  match v with
  | none => .error .malformed
  | some .null => .error .malformed
  | some v => .ok (hasKind v "Literal" && (v.field? marker).isSome)

def truth? (v : Option Value) : Option Bool := (v.bind (·.field? "value")).bind Value.bool?

/-- What is left of a conjunction or disjunction one operand of which is a literal. Other operators
leave nothing. -/
def reduceLogical (literalOperand other operator : Option Value) : Option Value :=
  match operator, truth? literalOperand with
  | some (.str "&&"), some true => other
  | some (.str "&&"), some false => some (literal false)
  | some (.str "||"), some true => some (literal true)
  | some (.str "||"), some false => other
  | _, _ => none

def unmark : Pass where
  strict := true
  enter node :=
    Reply.ofExcept node do
      if ← isMarked (some node) then
        let bare := node.unset marker
        return { node := bare, action := .put bare }
      else return .keep node

end Rulewright.Flag
