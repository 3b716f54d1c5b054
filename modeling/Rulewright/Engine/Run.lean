import Rulewright.Engine.Basic

/-!
Running the engine. What it does with a program is not known here: its outcomes are given, one after the
other, and every call is written down.
-/

namespace Rulewright.Engine

structure Summary where
  content : String := ""
  hits : List String := []
  edits : Nat := 0
  deriving DecidableEq, Repr

inductive Outcome where
  | done (summaries : List Summary) (written deleted : List String)
  | failed (words : String)
  | endless
  deriving DecidableEq, Repr

structure Script where
  outcomes : List Outcome := []
  calls : List Arguments := []
  deriving DecidableEq, Repr

abbrev EngineM := ExceptT Failure (StateM Script)

def execute (args : Arguments) : EngineM Outcome := do
  let s ← get
  set { outcomes := s.outcomes.drop 1, calls := s.calls ++ [args] : Script }
  match s.outcomes.head? with
  | some (.failed words) => throw (.external words)
  | some outcome => return outcome
  | none => return .done [] [] []

def Outcome.summaries : Outcome → List Summary
  | .done summaries _ _ => summaries
  | _ => []

def runSnippet (code language : Value) (g : Rulewright.Graph) (substitutions : Value) : EngineM (Value × Bool) :=
  tryCatch (do
    let graph ← liftExcept g.engine
    let outcome ← execute
      { input := .snippet code, language, program := .graph graph, dryRun := some (.bool true)
        substitutions := some substitutions }
    match outcome.summaries with
    | [] => return (code, true)
    | s :: _ => return (.str s.content, true))
    fun f => return (.str f.words, false)

def runWithTimeout (code language : Value) (g : Rulewright.Graph) (substitutions : Value) :
    EngineM (Value × Bool) := do
  let s ← get
  match s.outcomes with
  | .endless :: rest =>
    set { s with outcomes := rest }
    throw .timeout
  | _ => runSnippet code language g substitutions

end Rulewright.Engine
