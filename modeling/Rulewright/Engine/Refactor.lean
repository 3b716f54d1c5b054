import Rulewright.Engine.Run

/-!
Refactoring a snippet or a whole codebase with the rules of a TOML text. Whatever goes wrong is reported
as a failed refactoring.
-/

namespace Rulewright.Engine

def first : Value → Except Failure Value
  | .list (v :: _) => .ok v
  | .list [] => .error (.outOfRange .list)
  | .str s =>
    match s.toList with
    | c :: _ => .ok (.str (String.singleton c))
    | [] => .error (.outOfRange .str)
  | .dict _ => .error (.missingKey (.int 0))
  | v => .error (.notSubscriptable v.shape)

def substitutions (table : Value) : Except Failure Value := do
  first (← table.lookup "substitutions" (.list [.dict []]))

def reporting (act : EngineM α) : EngineM α := tryCatch act fun f => throw (.refactoring f)

def refactorSnippet (source language rules : Value) : EngineM Value :=
  reporting do
    let table ← liftExcept (Toml.load rules)
    let subs ← liftExcept (substitutions table)
    let graph ← liftExcept (Graph.ofTable table)
    let (code, _) ← runWithTimeout source language graph subs
    return code

def refactorCodebase (language path rules dryRun : Value) : EngineM (List Summary) :=
  reporting do
    let table ← liftExcept (Toml.load rules)
    let graph ← liftExcept (Graph.ofTable table)
    let program ← liftExcept graph.engine
    let subs ← liftExcept (substitutions table)
    let outcome ← execute
      { input := .codebase path, language, program := .graph program, dryRun := some dryRun
        substitutions := some subs, allowDirtyTree := true }
    return outcome.summaries

end Rulewright.Engine
