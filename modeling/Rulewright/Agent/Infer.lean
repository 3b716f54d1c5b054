import Rulewright.Agent.Validate
import Rulewright.Diff.Unified
import Rulewright.Text.Lines

/-!
Letting the model improve the rules that were inferred: several conversations start with the same task,
and the first whose rules pass the check wins.
-/

namespace Rulewright.Agent

open Chat (Conversation)

def commentRule : Engine.PlainRule :=
  { name := "remove_comments", query := "(line_comment) @comment", replaceNode := "comment", replace := "" }

def removeComments (code : String) : AgentM String := do
  let language := (← get).agent.language
  let outcome ← withEngine (Engine.execute
    { input := .snippet (.str code), language, program := .rules [commentRule], dryRun := some (.bool true) })
  return (outcome.summaries.head?.map Engine.Summary.content).getD code

def samples : Nat := 15

def addAnswers : List Conversation → List String → Except Failure (List Conversation)
  | cs, [] => .ok cs
  | [], _ :: _ => .error (.outOfRange .list)
  | c :: cs, text :: texts => do return c.assistant text :: (← addAnswers cs texts)

def task (rules : Value) : AgentM Value := do
  let agent := (← get).agent
  let source ← parse agent.source
  let target ← parse agent.target
  return .dict [
    ("source_code", .str agent.source), ("source_tree", .str (source.outline 0 "")),
    ("target_tree", .str (target.outline 0 "")),
    ("diff", .str ("\n".intercalate (Diff.unified (Text.lines agent.source) (Text.lines agent.target)))),
    ("rules", rules), ("hints", agent.hints)]

def createChats (rules : Value) : AgentM (List Conversation) := do
  let source ← removeComments (← get).agent.source
  modify fun s => { s with agent := { s.agent with source } }
  let target ← removeComments (← get).agent.target
  modify fun s => { s with agent := { s.agent with target } }
  let holes ← task rules
  let first ← liftExcept (Chat.start (← get).examples holes [] Chat.defaultModel)
  match ← converse first (Chat.completion (.int samples) Chat.maxTries) with
  | (.error (.chat _), _) => return []
  | (.error f, _) => throw f
  | (.ok answers, _) => liftExcept (addAnswers (List.replicate samples first) answers)

inductive Turn where
  | rules (text : String)
  | next (c : Conversation)

def turn (c : Conversation) : AgentM Turn := do
  match ← converse c Chat.respond with
  | (.error (.chat _), c) => return .next c
  | (.error f, _) => throw f
  | (.ok answer, c) =>
    match ← ExceptT.lift (validate answer).run with
    | .ok verdict =>
      modify fun s => { s with agent := { s.agent with chat := some c, explanation := .str verdict.explanation } }
      return .rules verdict.rules
    | .error (.agent words) => return .next (c.user words)
    | .error (.chat _) => return .next c
    | .error f => throw f

def round : List Conversation → AgentM (String ⊕ List Conversation)
  | [] => return .inr []
  | c :: rest => do
    match ← turn c with
    | .rules text => return .inl text
    | .next c =>
      match ← round rest with
      | .inl text => return .inl text
      | .inr rest => return .inr (c :: rest)

def rounds : Nat → List Conversation → AgentM String
  | 0, _ => throw (.agent "Failed to generate a rule after 10 rounds of interaction with GPT-4.")
  | n + 1, cs => do
    match ← round cs with
    | .inl text => return text
    | .inr cs => rounds n cs

def infer : AgentM String := do
  let rules := (← get).agent.rules
  let chats ← tryCatch (createChats rules) fun f => throw (.agent f.words)
  rounds 10 chats

end Rulewright.Agent
