import Rulewright.Failure
import Rulewright.Query.Writer

/-!
Making a query more general: a captured node becomes a wildcard, and the constraints on it and on the
nodes below it go. The text is changed by a pattern substitution tool, asked step by step.
-/

namespace Rulewright.Query

open Source (Node)

structure Substitution where
  text : String
  pattern : String
  replacement : String
  deriving DecidableEq, Repr

structure Narrowing where
  writer : Writer
  answers : List (Option String) := []
  asked : List Substitution := []

abbrev NarrowM := ExceptT Failure (StateM Narrowing)

def ask (pattern replacement : String) : NarrowM Unit :=
  modify fun s =>
    { writer := { s.writer with query := (s.answers.head?.join).getD s.writer.query }
      answers := s.answers.drop 1
      asked := s.asked ++ [{ text := s.writer.query, pattern, replacement }] }

def captureOf (n : Node) (w : Writer) : Option String :=
  (w.captures.find? fun c => c.2.place == n.place).map (·.1)

def forget (n : Node) : NarrowM Unit := do
  match captureOf n (← get).writer with
  | none => throw .exhausted
  | some name =>
    ask ("(#eq? " ++ name ++ " :[_])") ""
    modify fun s => { s with writer := { s.writer with captures := s.writer.captures.filter (·.1 != name) } }

mutual

def forgetTree : Node → NarrowM Unit
  | ⟨label, children⟩ => do
    forget ⟨label, children⟩
    forgetTrees children

def forgetTrees : List Node → NarrowM Unit
  | [] => pure ()
  | n :: rest => do
    forgetTrees rest
    if n.named then forgetTree n

end

def generalize (capture : String) : NarrowM Unit := do
  ask ("(:[[node_name]] :[_]) " ++ capture) ("(:[[node_name]]) " ++ capture)
  match (← get).writer.captures.find? (·.1 == capture) with
  | none => throw (.missingKey (.str capture))
  | some (_, n) => forgetTree n

end Rulewright.Query
