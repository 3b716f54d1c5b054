import Rulewright.Agent.Infer
import Rulewright.Chat.Controller
import Rulewright.Toml.Writer

/-!
Improving rules on request: for each rule the model decides what to do, and may add a filter. The result
has to pass the check.
-/

namespace Rulewright.Agent

open Source (Node Forest)
open Chat (Conversation)

abbrev ImproveM := ExceptT Failure (StateM (Conversation × Session))

def aside (act : AgentM α) : ImproveM α := do
  let (c, s) ← get
  let (r, s) := act.run s
  set (c, s)
  liftExcept r

def talk (act : Chat.Dialogue → Except Failure α × Chat.Dialogue) : ImproveM α := do
  let (c, s) ← get
  let (r, d) := act { conversation := c, service := s.service }
  set (d.conversation, { s with service := d.service })
  liftExcept r

def tell (text : String) : ImproveM Unit := modify fun (c, s) => (c.user text, s)

def enclosing (forest : Forest) (n : Node) : List Node :=
  (List.range n.place.length).filterMap fun i => forest.at? (n.place.take (n.place.length - i))

def option (i : Nat) (n : Node) : Except Failure String := do
  let w ← liftSource (Query.Writer.write true [n])
  return "\n\n=== Option " ++ toString i ++ " ===\n\nenclosing_node = \"\"\"" ++ w.query ++ "\"\"\"\n"

def options (i : Nat) : List Node → Except Failure String
  | [] => .ok ""
  | n :: rest => do return (← option i n) ++ (← options (i + 1) rest)

def choices (rule : Value) : AgentM String := do
  let _ ← liftExcept (rule.lookup "query" .null)
  let s ← get
  let _ ← parse s.agent.source
  let forest := s.trees.map (·.root)
  liftExcept (options 0 ((Source.nonoverlapping s.captures).flatMap (enclosing forest)))

def addFilter (wish : String) (rule : Value) : ImproveM (Value × String) := do
  let nodes ← aside (choices rule)
  tell (Chat.filterPrompt wish (← liftExcept (Toml.write rule)) nodes)
  let answer ← talk Chat.respond.run
  match tomlMarks.blocks answer with
  | [] => throw (.outOfRange .list)
  | block :: _ =>
    let new ← liftExcept (Toml.read block)
    match markdownMarks.blocks answer with
    | [] => throw (.outOfRange .list)
    | explanation :: _ => return (new, explanation)

def addFilterToChat (wish : String) (rule : Value) : AgentM (Value × String) := do
  match (← get).agent.chat with
  | none =>
    let _ ← choices rule
    throw (.noAttribute .null "append_improve_request")
  | some c =>
    let (r, (c, s)) := (addFilter wish rule).run (c, ← get)
    set { s with agent := { s.agent with chat := some c } }
    liftExcept r

def improveOne (wish : String) (rule : Value) : ImproveM (Value × List String) := do
  let text ← liftExcept (Toml.write rule)
  let _ ← talk (Chat.shouldImprove Chat.model wish text)
  let how ← talk (Chat.howToImprove Chat.model text)
  if how == "add filter" then
    let (new, explanation) ← addFilter wish rule
    return (new, [explanation])
  else return (rule, [])

def improveAll (wish : String) (rules : Value) : ImproveM String := do
  let list ← liftExcept (do (← rules.lookup "rules" (.list [])).each)
  let improved ← list.mapM (improveOne wish)
  let text ← liftExcept (improved.mapM fun r => Toml.write r.1)
  let explanation := "\n".intercalate (improved.flatMap (·.2))
  let verdict ← aside (validate ("<file_name_start>rules.toml<file_name_end> ```toml\n" ++ "\n".intercalate text ++
    "\n``` ```md\n" ++ explanation ++ "\n```"))
  modify fun (c, s) =>
    (c, { s with agent := { s.agent with chat := some c, explanation := .str explanation } })
  return verdict.rules

def improveWithin (wish : String) (rules : Value) : Nat → ImproveM String
  | 0 => throw (.agent "Unable to improve rule.")
  | tries + 1 => do
    match ← ExceptT.lift (improveAll wish rules).run with
    | .ok text => return text
    | .error f =>
      tell f.words
      improveWithin wish rules tries

def improve (wish : String) (rules : Value) : AgentM String := do
  match (← get).agent.chat with
  | none => throw (.agent "Improvement is only support for GPT inferred rules.")
  | some c =>
    let (r, (_, s)) := (improveWithin wish rules 15).run (c, ← get)
    set s
    liftExcept r

end Rulewright.Agent
