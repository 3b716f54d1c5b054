import Rulewright.Agent.Improve
import Rulewright.Engine.Refactor
import Rulewright.Service.Request

/-!
The server behind the playground. Clients connect and send events; what comes of an event is sent to all
of them.
-/

namespace Rulewright.Service

open Agent (World)

structure Message where
  name : String
  content : Value
  deriving DecidableEq, Repr

/-- The session of a client: the agent of its last inference. A client that connects once more leaves its
session behind. -/
structure Visit where
  client : Option Nat
  agent : Option Agent.State := none

structure Server where
  world : World
  visits : List Visit := []
  sent : List Message := []

abbrev ServerM := ExceptT Failure (StateM Server)

def emit (name : String) (content : Value) : ServerM Unit :=
  modify fun s => { s with sent := s.sent ++ [{ name, content }] }

def withEngine (act : Engine.EngineM α) : ServerM α := do
  let s ← get
  let (r, engine) := act.run s.world.engine
  set { s with world := { s.world with engine } }
  liftExcept r

def withAgent (agent : Agent.State) (act : Agent.AgentM α) : ServerM (α × Agent.State) := do
  let s ← get
  let (r, session) := act.run { s.world with agent }
  set { s with world := session.toWorld }
  return (← liftExcept r, session.agent)

def storeAgent (client : Nat) (agent : Agent.State) : ServerM Unit :=
  modify fun s => { s with
    visits := s.visits.map fun v => if v.client = some client then { v with agent := some agent } else v }

def withStoredAgent (client : Nat) (agent : Agent.State) (act : Agent.AgentM α) : ServerM (α × Agent.State) := do
  let s ← get
  let (r, session) := act.run { s.world with agent }
  set { s with world := session.toWorld }
  storeAgent client session.agent
  return (← liftExcept r, session.agent)

def isBadValue : Failure → Bool
  | .notAllowed _ _ _ => true
  | .outOfBounds _ => true
  | .badValue _ => true
  | .badToml _ => true
  | .source (.undecodable _) => true
  | .source .noCommonAncestor => true
  | _ => false

def isAgentFailure : Failure → Bool
  | .agent _ => true
  | f => isBadValue f

def isImproveFailure : Failure → Bool
  | .noAttribute _ _ => true
  | f => isAgentFailure f

def isRefactorFailure : Failure → Bool
  | .refactoring _ => true
  | f => isBadValue f

def RequestKind.knows : RequestKind → Failure → Bool
  | .infer => isAgentFailure
  | .improve => isImproveFailure
  | .refactor => isRefactorFailure
  | .snippet => isRefactorFailure

def reportError (name : String) (f : Failure) : ServerM Unit := emit name (.dict [("error", .str f.words)])

def RequestKind.report : RequestKind → Failure → ServerM Unit
  | .infer => reportError "infer_error"
  | .improve => reportError "infer_error"
  | .refactor => fun _ => emit "refactor_result" (.dict [("result", .bool false)])
  | .snippet => reportError "test_error"

def field (data : Entries) (name : String) : Value := (Entries.get? name data).getD .null

def refactorFolder (data : Value) : ServerM Unit := do
  let d ← liftExcept (RequestKind.refactor.read data)
  let _ ← withEngine
    (Engine.refactorCodebase (field d "language") (field d "folder_path") (field d "rules") (.bool false))
  emit "refactor_result" (.dict [("result", .bool true)])

def newAgent (d : Entries) : Agent.State :=
  { source := (field d "source_code").shown, target := (field d "target_code").shown, language := field d "language" }

def inferRules (client : Nat) (data : Value) : ServerM Unit := do
  let d ← liftExcept (RequestKind.infer.read data)
  let (text, agent) ← withAgent (newAgent d) Agent.inferStatically
  emit "infer_progress" (.dict [("rule", .str text)])
  let (rules, agent) ← withAgent agent Agent.infer
  storeAgent client agent
  emit "infer_success" (.dict [("rule", .str rules), ("gpt_output", agent.explanation)])

def improveRules (client : Nat) (data : Value) : ServerM Unit := do
  let d ← liftExcept (RequestKind.improve.read data)
  match ((← get).visits.find? (·.client = some client)).bind Visit.agent with
  | none => throw (.noAttribute .null "improve_rule")
  | some agent =>
    let (rules, agent) ←
      withStoredAgent client agent (Agent.improve (field d "requirements").shown (field d "rules"))
    emit "infer_result" (.dict [("rule", .list [.bool true, .str rules]), ("gpt_output", agent.explanation)])

def testRules (data : Value) : ServerM Unit := do
  let d ← liftExcept (RequestKind.snippet.read data)
  let code ← withEngine (Engine.refactorSnippet (field d "source_code") (field d "language") (field d "rules"))
  emit "test_result" (.dict [("refactored_code", code)])

def RequestKind.work (client : Nat) (data : Value) : RequestKind → ServerM Unit
  | .infer => inferRules client data
  | .improve => improveRules client data
  | .refactor => refactorFolder data
  | .snippet => testRules data

def RequestKind.serve (k : RequestKind) (client : Nat) (data : Value) : ServerM Unit :=
  tryCatch (k.work client data) fun f => if k.knows f then k.report f else throw f

inductive Event where
  | connect
  | disconnect
  | request (kind : RequestKind) (data : Value)
  | other
  deriving DecidableEq, Repr

def Event.ofName (name : String) (data : Value) : Event :=
  match name with
  | "connect" => .connect
  | "disconnect" => .disconnect
  | "refactor_codebase" => .request .refactor data
  | "infer_piranha" => .request .infer data
  | "improve_piranha" => .request .improve data
  | "test_rule" => .request .snippet data
  | _ => .other

def handle (client : Nat) : Event → ServerM Unit
  | .connect => modify fun s => { s with
      visits := s.visits.map (fun v => if v.client = some client then { v with client := none } else v) ++
        [{ client := some client }] }
  | .disconnect => modify fun s => { s with visits := s.visits.filter (·.client ≠ some client) }
  | .request kind data => kind.serve client data
  | .other => pure ()

def receive (client : Nat) (event : Event) : ServerM Unit := do
  if event = .connect || (← get).visits.any (·.client = some client) then handle client event
  else throw (.external "not connected")

def start (key : Value) : Except Failure String :=
  if key.isSomething then .ok "Starting server. Listening at: http://127.0.0.1:5000"
  else .error (.exit (.str "Please set the OPENAI_API_KEY environment variable to your OpenAI API key."))

end Rulewright.Service
