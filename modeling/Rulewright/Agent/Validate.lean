import Rulewright.Agent.Basic
import Rulewright.Agent.Block

/-!
Checking rules that the model suggests: they have to turn the source of the example into its target, up
to blanks.
-/

namespace Rulewright.Agent

def endlessWords : String :=
  "Piranha in infinite loop. Please add a filter or constraint the query. " ++
    "Remember you can only constraint queries with #eq, #not-eq, #match. " ++
    "Otherwise you need to use a [[rules.filters]] with contains or not_contains."

def failedWords (words : String) : String :=
  if Text.holds words "QueryError" then
    "One of the provided queries is not valid " ++ words ++ ". " ++
      "Do not use nodes you cannot see in the tree representation. " ++ "Make sure you parenthesis are balanced."
  else "Piranha failed to execute: " ++ words ++ "."

/-- Runs the engine on the source code with the rules of a table. The text of the graph is made for the
record, so it has to exist. -/
def run (table : Value) : AgentM String := do
  let rules ← liftExcept (table.lookup "rules" (.list []))
  if !rules.isSomething then throw (.agent "TOML does not include any rule specifications.")
  let graph ← liftExcept (Graph.ofTable table)
  let _ ← liftExcept graph.toml
  let agent := (← get).agent
  let (code, success) ←
    tryCatch (withEngine (Engine.runWithTimeout (.str agent.source) agent.language graph .null)) fun f =>
      match f with
      | .timeout => throw (.agent endlessWords)
      | f => throw f
  if success then return code.shown else throw (.agent (failedWords code.shown))

structure Verdict where
  file : String
  rules : String
  explanation : String

def validate (answer : String) : AgentM Verdict := do
  match tomlMarks.blocks answer with
  | [] =>
    throw (.agent ("No TOML block provided in the expected output format. " ++
      "Please provide a TOML block with the rule. ```toml ... ```"))
  | block :: _ =>
    match markdownMarks.blocks answer with
    | [] =>
      throw (.agent ("No explanation provided in the expected output format. " ++
        "Please provide an explanation as a markdown block. ```md ... ```"))
    | explanation :: _ =>
      let rules := Text.strip (Text.replaceAll block "parenthesized_expression" "condition")
      match Toml.read rules with
      | .error f => throw (.agent ("Could not create Piranha rule. The TOML block is not valid: " ++ f.words ++ ". "))
      | .ok table =>
        let code ← run table
        let target := (← get).agent.target
        if code.isEmpty then
          throw (.agent ("Piranha did not generate any refactored code. " ++
            "Either the query or the filters are incorrect. "))
        if Text.withoutBlanks code != Text.withoutBlanks target then
          throw (.agent ("The rule produced wrong code!!! Expected:\n" ++ target ++
            "\n\n but got:\n" ++ code ++ "\n\n"))
        return { file := (fileMarks.blocks answer).head?.getD "rule.toml", rules, explanation }

end Rulewright.Agent
