import Rulewright.Flag.Literal

/-!
Tables from names to values, as the analyses hand them to the pruning passes. A table answers for
its own names and, besides, for the names that everything answers to; the latter read as something true.
-/

namespace Rulewright.Flag

abbrev Table := List (String × Value)

namespace Table

def store (name : String) (value : Value) (t : Table) : Table :=
  if name == "__proto__" then t else Entries.put name value t

def own? (t : Table) (name : String) : Option Value := Entries.get? name t

def answers (t : Table) (name : String) : Bool := (t.own? name).isSome || inheritedNames.contains name

def reads (t : Table) (name : String) : Bool :=
  match t.own? name with
  | some v => truthy v
  | none => inheritedNames.contains name

def sorted (t : Table) : Table := t.mergeSort fun a b => Text.unitsLE a.1 b.1

end Table
end Rulewright.Flag
