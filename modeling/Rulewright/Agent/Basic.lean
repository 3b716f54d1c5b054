import Rulewright.Chat.Basic
import Rulewright.Engine.Run
import Rulewright.Inference.Rule
import Rulewright.Inference.Template

/-!
An agent that infers rules from an example: source code before and after a change. It works with a
parser, the refactoring engine and a chat model, whose answers belong to the session.
-/

namespace Rulewright.Agent

open Source (Node Tree)
open Chat (Conversation Service)

structure State where
  source : String
  target : String
  language : Value := .str "java"
  hints : Value := .str ""
  chat : Option Conversation := none
  explanation : Value := .null
  rules : Value := .null

structure World where
  trees : List Tree := []
  captures : List Node := []
  engine : Engine.Script := {}
  service : Service := {}
  examples : String := ""
  inferred : Nat := 0

structure Session extends World where
  agent : State

abbrev AgentM := ExceptT Failure (StateM Session)

def parserName : Value → Except Failure Value
  | .str "kt" => .ok (.str "kotlin")
  | .list _ => .error (.unhashable .list)
  | .dict _ => .error (.unhashable .dict)
  | v => .ok v

def parse (code : String) : AgentM Node := do
  match (← get).trees.find? (·.source == code) with
  | some t => return t.root
  | none => throw .exhausted

def withEngine (act : Engine.EngineM α) : AgentM α := do
  let s ← get
  let (r, engine) := act.run s.engine
  set { s with engine }
  liftExcept r

def converse (c : Conversation) (act : Chat.DialogueM α) : AgentM (Except Failure α × Conversation) := do
  let s ← get
  let (r, d) := act.run { conversation := c, service := s.service }
  set { s with service := d.service }
  return (r, d.conversation)

def inferPair (p : Inference.Pair) : AgentM (String × Rule) := do
  modify fun s => { s with inferred := s.inferred + 1 }
  let s ← get
  match ← liftExcept (Inference.infer (s.trees.map (·.root)) (Inference.ruleName s.inferred) p.before p.after) with
  | some rule => return (p.name, rule)
  | none => throw (.noAttribute .null "name")

def ruleOf (rules : List (String × Rule)) (template : String) : Except Failure Value :=
  match rules.find? (·.1 == template) with
  | some (_, rule) => .ok rule.name
  | none => .error (.missingKey (.str template))

def edgeOf (rules : List (String × Rule)) (edge : String × List String) : Except Failure Value := do
  let source ← ruleOf rules edge.1
  let targets ← (edge.2.mergeSort (· ≤ ·)).mapM (ruleOf rules)
  return .dict [("from", source), ("to", .list targets), ("scope", .str "File")]

def inferGraph : AgentM Graph := do
  let agent := (← get).agent
  let source ← parse agent.source
  let target ← parse agent.target
  let templates ← liftExcept (Inference.parseTemplates source target)
  let rules ← templates.pairs.mapM inferPair
  let edges ← liftExcept (templates.edges.mapM (edgeOf rules))
  return { rules := rules.map (·.2), edges }

def inferStatically : AgentM String := do
  let graph ← inferGraph
  let text ← liftExcept graph.toml
  modify fun s => { s with agent := { s.agent with rules := .str text } }
  return text

end Rulewright.Agent
