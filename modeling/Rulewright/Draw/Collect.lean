import Rulewright.Text.Blank
import Rulewright.Value.Compare

/-!
Gathering what a drawing of a rule graph shows: the rules of each group, the rules without a group, the
clean-up rules, and the edges by the node they start from.
-/

namespace Rulewright.Draw

structure Edge where
  target : String
  scope : String
  deriving DecidableEq, Repr

structure Gathered where
  groups : List (String × List String) := []
  edges : List (String × List Edge) := []
  cleanup : List String := []
  ungrouped : List String := []
  dummies : List String := []
  deriving DecidableEq, Repr

/-- Puts an underscore in place of each run of blanks; `inside` tells whether the last character was
blank. -/
def underscores (inside : Bool) : List Char → List Char
  | [] => []
  | c :: rest =>
    if Text.isBlank c then
      if inside then underscores true rest else '_' :: underscores true rest
    else c :: underscores false rest

def nameOf : Value → Except Failure String
  | .str s => .ok (String.ofList (underscores false s.toList))
  | v => .error (.wrongArguments ("expected string or bytes-like object, got '" ++ v.shape.name ++ "'"))

def cleanupGroup : String := "Cleanup_Rule"

def addTo (key : String) (a : α) : List (String × List α) → List (String × List α)
  | [] => [(key, [a])]
  | (k, as) :: rest => if k = key then (k, as ++ [a]) :: rest else (k, as) :: addTo key a rest

def addName (name : String) (names : List String) : List String :=
  if names.contains name then names else names ++ [name]

namespace Gathered

def grouped (rule : String) (g : Gathered) (group : Value) : Except Failure Gathered := do
  let group ← nameOf group
  if group = cleanupGroup then return { g with cleanup := addName rule g.cleanup }
  else return { g with groups := addTo group rule g.groups }

def mentions (v : Value) (key : String) : Bool := (v.field? key).isSome

def rule (g : Gathered) (v : Value) : Except Failure Gathered := do
  let name ← nameOf (← v.demand "name")
  let g := if mentions v "query" then g else { g with dummies := addName name g.dummies }
  match v.field? "groups" with
  | some groups => (← groups.each).foldlM (grouped name) g
  | none => return { g with ungrouped := addName name g.ungrouped }

def edge (g : Gathered) (v : Value) : Except Failure Gathered := do
  let source ← nameOf (← v.demand "from")
  let targets ← v.demand "to"
  let scope ← nameOf (← v.demand "scope")
  (← targets.each).foldlM (fun g target => do
    let target ← nameOf target
    return { g with edges := addTo source { target, scope } g.edges }) g

def rules (g : Gathered) (table : Value) : Except Failure Gathered := do
  (← (← table.demand "rules").each).foldlM rule g

def edgesOf (g : Gathered) (table : Value) : Except Failure Gathered := do
  (← (← table.demand "edges").each).foldlM edge g

end Gathered
end Rulewright.Draw
