import Rulewright.Rule.Filter

/-!
Rules: a query, the node it replaces and the replacement, with groups, holes and filters.
-/

namespace Rulewright

inductive Names where
  | given (v : Value)
  | set (members : List Value)
  deriving DecidableEq, Repr

namespace Names

def insert (members : List Value) (v : Value) : List Value :=
  if members.any (·.equals v) then members else members ++ [v]

def collect (members : List Value) : List Value → Except Failure (List Value)
  | [] => .ok members
  | .list _ :: _ => .error (.unhashable .list)
  | .dict _ :: _ => .error (.unhashable .dict)
  | v :: rest => collect (insert members v) rest

def ofValue (v : Value) : Except Failure Names := do
  return .set (← collect [] (← v.each))

def isSomething : Names → Bool
  | .given v => v.isSomething
  | .set members => !members.isEmpty

def json : Names → Except Failure String
  | .given v => .ok (Json.render Json.spaced v)
  | .set _ => .error (.notSerializable .set)

end Names

structure Rule where
  name : Value
  query : Value := .null
  replaceNode : Value := .null
  replace : Value := .null
  groups : Names := .set []
  holes : Names := .set []
  filters : List Filter := []
  isSeed : Value := .bool true
  deriving DecidableEq, Repr

namespace Rule

def fields : List String :=
  ["name", "query", "replace_node", "replace", "groups", "holes", "filters", "is_seed_rule"]

def filterSet (v : Value) : Except Failure (List Filter) := do
  let filters ← (← v.each).mapM Filter.ofTable
  return filters.mergeSort fun f g => f.toml ≤ g.toml

def ofTable (v : Value) : Except Failure Rule := do
  let name ← v.demand "name"
  let query ← v.lookup "query" .null
  let replaceNode ← v.lookup "replace_node" .null
  let replace ← v.lookup "replace" .null
  let groups ← Names.ofValue (← v.lookup "groups" (.list []))
  let holes ← Names.ofValue (← v.lookup "holes" (.list []))
  let filters ← filterSet (← v.lookup "filters" (.list []))
  let isSeed ← v.lookup "is_seed_rule" (.bool true)
  return { name, query, replaceNode, replace, groups, holes, filters, isSeed }

/-- A rule from a record that may only have the fields of a rule. Groups, holes and filters stay in
their order. -/
def ofRecord (v : Value) : Except Failure Rule :=
  match v with
  | .dict entries => do
    let filters ← (← (Entries.get? "filters" entries |>.getD (.list [])).each).mapM Filter.ofRecord
    if !entries.all (fields.contains ·.1) then throw .wrongFields
    match Entries.get? "name" entries with
    | none => throw .wrongFields
    | some name =>
      let value (key : String) (default : Value) := (Entries.get? key entries).getD default
      let names (key : String) := ((Entries.get? key entries).map Names.given).getD (.set [])
      return {
        name, query := value "query" .null, replaceNode := value "replace_node" .null
        replace := value "replace" .null, groups := names "groups", holes := names "holes", filters
        isSeed := value "is_seed_rule" (.bool true) }
  | _ => .error .wrongFields

def shortText (key : String) (v : Value) : String := key ++ " = \"" ++ v.shown ++ "\""

def namesLine (key : String) (names : Names) : Except Failure (List String) := do
  if names.isSomething then return [key ++ " = " ++ (← names.json)] else return []

def toml (r : Rule) : Except Failure String := do
  let front := [shortText "name" r.name] ++
    (if r.query.isSomething then [Filter.longText "query" r.query] else []) ++
    (if r.replaceNode.isSomething then [shortText "replace_node" r.replaceNode] else []) ++
    (if r.replace.isSomething then [Filter.longText "replace" r.replace] else [])
  let groups ← namesLine "groups" r.groups
  let holes ← namesLine "holes" r.holes
  let filters := r.filters.map Filter.toml
  let seed :=
    if r.isSeed.isSomething then []
    else ["is_seed_rule = " ++ String.ofList (r.isSeed.shown.toList.map Char.toLower)]
  return "[[rules]]\n" ++ "\n".intercalate (front ++ groups ++ holes ++ filters ++ seed)

end Rule
end Rulewright
