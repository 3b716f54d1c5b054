import Rulewright.Failure

/-!
Comparing and listing data: numbers are equal when they stand for the same number, and texts, lists and
tables can be gone through.
-/

namespace Rulewright.Value

def integer? : Value → Option Int
  | .bool b => some (if b then 1 else 0)
  | .int n => some n
  | .real x => x.toInt?
  | _ => none

def equals (a b : Value) : Bool :=
  match a.integer?, b.integer? with
  | some m, some n => m == n
  | _, _ => a == b

def each : Value → Except Failure (List Value)
  | .list items => .ok items
  | .str s => .ok (s.toList.map fun c => .str (String.singleton c))
  | .dict entries => .ok (entries.map fun e => .str e.1)
  | v => .error (.notIterable v.shape)

def demand (v : Value) (key : String) : Except Failure Value :=
  match v with
  | .dict entries =>
    match Entries.get? key entries with
    | some x => .ok x
    | none => .error (.missingKey (.str key))
  | .list _ => .error (.wrongIndex .list .str)
  | .str _ => .error (.wrongIndex .str .str)
  | v => .error (.notSubscriptable v.shape)

def lookup (v : Value) (key : String) (default : Value) : Except Failure Value :=
  match v with
  | .dict entries => .ok ((Entries.get? key entries).getD default)
  | v => .error (.noAttribute v.shape "get")

end Rulewright.Value
