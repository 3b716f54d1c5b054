import Rulewright.Json.Printer
import Rulewright.Value.Compare

/-!
Filters of a rule: what has to enclose a match, and what it may and may not contain. The fields hold
what a document says, whatever its type.
-/

namespace Rulewright

def unlimited : Value := .int 4294967295

structure Filter where
  enclosing : Value := .null
  notEnclosing : Value := .null
  notContains : Value := .list []
  contains : Value := .null
  atLeast : Value := .int 1
  atMost : Value := unlimited
  childCount : Value := unlimited
  siblingCount : Value := unlimited
  deriving DecidableEq, Repr, Inhabited

namespace Filter

def fields : List String :=
  ["id", "enclosing_node", "not_enclosing_node", "not_contains", "contains", "at_least", "at_most", "child_count",
    "sibling_count"]

def ofTable (v : Value) : Except Failure Filter := do
  return {
    enclosing := ← v.lookup "enclosing_node" .null
    notEnclosing := ← v.lookup "not_enclosing_node" .null
    notContains := ← v.lookup "not_contains" (.list [])
    contains := ← v.lookup "contains" .null
    atLeast := ← v.lookup "at_least" (.int 1)
    atMost := ← v.lookup "at_most" unlimited
    childCount := ← v.lookup "child_count" unlimited
    siblingCount := ← v.lookup "sibling_count" unlimited }

def ofRecord (v : Value) : Except Failure Filter :=
  match v with
  | .dict entries => if entries.all (fields.contains ·.1) then ofTable v else .error .wrongFields
  | _ => .error .wrongFields

def longText (key : String) (v : Value) : String := key ++ " = \"\"\"" ++ v.shown ++ "\"\"\""

def lines (f : Filter) : List String :=
  (if f.enclosing.isSomething then [longText "enclosing_node" f.enclosing] else []) ++
    (if f.notEnclosing.isSomething then [longText "not_enclosing_node" f.notEnclosing] else []) ++
    (if f.notContains.isSomething then ["not_contains = " ++ Json.render Json.spaced f.notContains] else []) ++
    (if f.contains.isSomething then [longText "contains" f.contains] else []) ++
    (if f.atLeast.equals (.int 1) then [] else ["at_least = " ++ f.atLeast.shown]) ++
    (if f.atMost.equals unlimited then [] else ["at_most = " ++ f.atMost.shown]) ++
    (if f.childCount.equals unlimited then [] else ["child_count = " ++ f.childCount.shown]) ++
    (if f.siblingCount.equals unlimited then [] else ["sibling_count = " ++ f.siblingCount.shown])

def toml (f : Filter) : String := "\n".intercalate ("[[rules.filters]]" :: f.lines)

end Filter
end Rulewright
