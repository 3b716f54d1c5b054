import Rulewright.Engine.Run

/-!
The stage of the demos: an engine, the files it has written and deleted, and what was logged and printed.
-/

namespace Rulewright.Demo

structure Stage where
  engine : Engine.Script := {}
  written : List String := []
  deleted : List String := []
  logged : List String := []
  printed : List String := []

abbrev DemoM := ExceptT Failure (StateM Stage)

def log (text : String) : DemoM Unit := modify fun s => { s with logged := s.logged ++ [text] }

def print (text : String) : DemoM Unit := modify fun s => { s with printed := s.printed ++ [text] }

def execute (args : Engine.Arguments) : DemoM (List Engine.Summary) := do
  let s ← get
  let (r, engine) := (Engine.execute args).run s.engine
  set { s with engine }
  match ← liftExcept r with
  | .done summaries written deleted =>
    modify fun s => { s with written := s.written ++ written, deleted := s.deleted ++ deleted }
    return summaries
  | _ => return []

def changed (file : String) : DemoM Nat := return (← get).written.count file

def assert (b : Bool) : DemoM Unit := if b then pure () else throw .assertion

def configured (language codebase configuration : String) (substitutions : List (String × String))
    (cleanupComments : Bool) : Engine.Arguments :=
  { input := .codebase (.str codebase), language := .str language, program := .folder configuration
    substitutions := some (.dict (substitutions.map fun (k, v) => (k, .str v))), cleanupComments }

def expectChange (file : String) (args : Engine.Arguments) : DemoM Unit := do
  let old ← changed file
  let _ ← execute args
  assert (old < (← changed file))

end Rulewright.Demo
