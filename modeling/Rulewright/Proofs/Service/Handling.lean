import Rulewright.Proofs.Agent.Improvement
import Rulewright.Proofs.Service.Reading

/-!
What the server does with a request, said once for each kind of request. A handler reads the data, does its work step by step and stops
at the first step that fails; then its client is told, or the failure is left to the caller. What rules are improved with is the text
of a request, which is no table of rules, so this work always fails.
-/

open List

namespace Rulewright

namespace Agent

theorem failsFor_text (wish text : String) (n : Nat) (p : Chat.Conversation × Session) :
    ∃ q, FailsFor wish (.str text) n p q ∧ q.2 = p.2 := by
  induction n generalizing p with
  | zero => exact ⟨p, .zero p, rfl⟩
  | succ n ih =>
    have first : (improveAll wish (.str text)).run p = (.error (.noAttribute .str "get"), p) := rfl
    obtain ⟨q, others, same⟩ := ih (p.1.user (Failure.words (.noAttribute .str "get")), p.2)
    exact ⟨q, .succ first others, same⟩

def refusal (agent : State) : String :=
  if agent.chat.isSome then "Unable to improve rule." else "Improvement is only support for GPT inferred rules."

theorem improve_text (wish text : String) (s : Session) : (improve wish (.str text)).run s = (.error (.agent (refusal s.agent)), s) := by
  cases chat : s.agent.chat with
  | none =>
    unfold improve
    rw [run_bind_ok run_get]
    rw [refusal, chat]
    rfl
  | some c =>
    obtain ⟨q, fails, same⟩ := failsFor_text wish text 15 (c, s)
    rw [improve_of_chat chat fails.exhausts, same, refusal, chat]
    rfl

end Agent

namespace Service

open Agent (Session)

def Server.session (s : Server) (agent : Agent.State) : Session := { s.world with agent }

def Server.agent? (s : Server) (client : Nat) : Option Agent.State := (s.visits.find? (·.client = some client)).bind Visit.agent

def stored (client : Nat) (agent : Agent.State) (visits : List Visit) : List Visit :=
  visits.map fun v => if v.client = some client then { v with agent := some agent } else v

section Steps

variable {α : Type} {s : Server} {agent : Agent.State} {a : α} {f : Failure} {t : Session} {act : Agent.AgentM α}

theorem run_emit (name : String) (content : Value) : (emit name content).run s = (.ok (), { s with sent := s.sent ++ [{ name, content }] }) :=
  rfl

theorem run_storeAgent (client : Nat) : (storeAgent client agent).run s = (.ok (), { s with visits := stored client agent s.visits }) := rfl

theorem run_withEngine {act : Engine.EngineM α} {r : Except Failure α} {engine : Engine.Script} (used : act.run s.world.engine = (r, engine)) :
    (withEngine act).run s = (r, { s with world := { s.world with engine } }) := by
  have known : act s.world.engine = (r, engine) := used
  unfold withEngine
  rw [run_bind_ok run_get]
  simp only [ExceptT.run, known]
  rfl

theorem run_withAgent_ok (done : act.run (s.session agent) = (.ok a, t)) :
    (withAgent agent act).run s = (.ok (a, t.agent), { s with world := t.toWorld }) := by
  have known : act { s.world with agent } = (.ok a, t) := done
  unfold withAgent
  rw [run_bind_ok run_get]
  simp only [ExceptT.run, known]
  rfl

theorem run_withAgent_error (failed : act.run (s.session agent) = (.error f, t)) :
    (withAgent agent act).run s = (.error f, { s with world := t.toWorld }) := by
  have known : act { s.world with agent } = (.error f, t) := failed
  unfold withAgent
  rw [run_bind_ok run_get]
  simp only [ExceptT.run, known]
  rfl

theorem run_withStoredAgent_error (client : Nat) (failed : act.run (s.session agent) = (.error f, t)) :
    (withStoredAgent client agent act).run s =
      (.error f, { s with world := t.toWorld, visits := stored client t.agent s.visits }) := by
  have known : act { s.world with agent } = (.error f, t) := failed
  unfold withStoredAgent
  rw [run_bind_ok run_get]
  simp only [ExceptT.run, known]
  rfl

end Steps

def progressed (text : String) : Message := { name := "infer_progress", content := .dict [("rule", .str text)] }

def succeeded (rules : String) (agent : Agent.State) : Message :=
  { name := "infer_success", content := .dict [("rule", .str rules), ("gpt_output", agent.explanation)] }

def RequestKind.told : RequestKind → Failure → Message
  | .infer, f => { name := "infer_error", content := .dict [("error", .str f.words)] }
  | .improve, f => { name := "infer_error", content := .dict [("error", .str f.words)] }
  | .refactor, _ => { name := "refactor_result", content := .dict [("result", .bool false)] }
  | .snippet, f => { name := "test_error", content := .dict [("error", .str f.words)] }

section Requests

variable (client : Nat) (data : Value) (s : Server)

inductive InferEnds : Except Failure Unit → Server → Prop
  | unread {f : Failure} (refused : RequestKind.infer.read data = .error f) : InferEnds (.error f) s
  | unbuilt {d : Entries} {f : Failure} {t : Session} (read : RequestKind.infer.read data = .ok d)
      (failed : Agent.inferStatically.run (s.session (newAgent d)) = (.error f, t)) : InferEnds (.error f) { s with world := t.toWorld }
  | unfinished {d : Entries} {text : String} {f : Failure} {t u : Session} (read : RequestKind.infer.read data = .ok d)
      (built : Agent.inferStatically.run (s.session (newAgent d)) = (.ok text, t)) (failed : Agent.infer.run t = (.error f, u)) :
      InferEnds (.error f) { s with world := u.toWorld, sent := s.sent ++ [progressed text] }
  | done {d : Entries} {text rules : String} {t u : Session} (read : RequestKind.infer.read data = .ok d)
      (built : Agent.inferStatically.run (s.session (newAgent d)) = (.ok text, t)) (inferred : Agent.infer.run t = (.ok rules, u)) :
      InferEnds (.ok ()) { world := u.toWorld, visits := stored client u.agent s.visits
                           sent := s.sent ++ [progressed text, succeeded rules u.agent] }

inductive ImproveEnds : Except Failure Unit → Server → Prop
  | unread {f : Failure} (refused : RequestKind.improve.read data = .error f) : ImproveEnds (.error f) s
  | agentless {d : Entries} (read : RequestKind.improve.read data = .ok d) (none : s.agent? client = none) :
      ImproveEnds (.error (.noAttribute .null "improve_rule")) s
  | unimproved {d : Entries} {agent : Agent.State} (read : RequestKind.improve.read data = .ok d) (found : s.agent? client = some agent) :
      ImproveEnds (.error (.agent (Agent.refusal agent))) { s with visits := stored client agent s.visits }

variable (k : RequestKind)

inductive EngineEnds {α : Type} (act : Entries → Engine.EngineM α) (message : α → Message) : Except Failure Unit → Server → Prop
  | unread {f : Failure} (refused : k.read data = .error f) : EngineEnds act message (.error f) s
  | failed {d : Entries} {f : Failure} {engine : Engine.Script} (read : k.read data = .ok d)
      (failed : (act d).run s.world.engine = (.error f, engine)) :
      EngineEnds act message (.error f) { s with world := { s.world with engine } }
  | done {d : Entries} {a : α} {engine : Engine.Script} (read : k.read data = .ok d) (used : (act d).run s.world.engine = (.ok a, engine)) :
      EngineEnds act message (.ok ()) { s with world := { s.world with engine }, sent := s.sent ++ [message a] }

theorem inferRules_ends : InferEnds client data s ((inferRules client data).run s).1 ((inferRules client data).run s).2 := by
  unfold inferRules
  cases read : RequestKind.infer.read data with
  | error f => exact .unread read
  | ok d =>
    rw [run_bind_ok (run_liftExcept rfl)]
    generalize built : Agent.inferStatically.run (s.session (newAgent d)) = o
    obtain ⟨r, t⟩ := o
    cases r with
    | error f =>
      rw [run_bind_error (run_withAgent_error built)]
      exact .unbuilt read built
    | ok text =>
      rw [run_bind_ok (run_withAgent_ok built)]
      rw [run_bind_ok (run_emit _ _)]
      generalize inferred : Agent.infer.run t = o
      obtain ⟨r, u⟩ := o
      cases r with
      | error f =>
        rw [run_bind_error (run_withAgent_error inferred)]
        exact .unfinished read built inferred
      | ok rules =>
        rw [run_bind_ok (run_withAgent_ok inferred)]
        rw [run_bind_ok (run_storeAgent client), run_emit, append_assoc]
        exact .done read built inferred

theorem rules_of_read {d : Entries} (read : RequestKind.improve.read data = .ok d) : ∃ text, field d "rules" = .str text := by
  obtain ⟨entries, -, -, -, improves⟩ := read_ok read
  obtain ⟨_, _, rules, -, -, -, rfl⟩ := improves rfl
  exact ⟨rules, by rfl⟩

theorem improveRules_ends : ImproveEnds client data s ((improveRules client data).run s).1 ((improveRules client data).run s).2 := by
  unfold improveRules
  cases read : RequestKind.improve.read data with
  | error f => exact .unread read
  | ok d =>
    rw [run_bind_ok (run_liftExcept rfl), run_bind_ok run_get]
    cases found : s.agent? client with
    | none =>
      unfold Server.agent? at found
      rw [found]
      exact .agentless read found
    | some agent =>
      obtain ⟨text, same⟩ := rules_of_read data read
      have failed := run_withStoredAgent_error client (Agent.improve_text (field d "requirements").shown text (s.session agent))
      have known := found
      unfold Server.agent? at known
      rw [known, same]
      rw [run_bind_error failed]
      exact .unimproved read found

theorem engine_ends {α : Type} (act : Entries → Engine.EngineM α) (message : α → Message) {x : ServerM Unit}
    (steps : x = do
      let d ← liftExcept (k.read data)
      let a ← withEngine (act d)
      emit (message a).name (message a).content) : EngineEnds data s k act message (x.run s).1 (x.run s).2 := by
  subst steps
  cases read : k.read data with
  | error f => exact .unread read
  | ok d =>
    rw [run_bind_ok (run_liftExcept rfl)]
    generalize used : (act d).run s.world.engine = o
    obtain ⟨r, engine⟩ := o
    cases r with
    | error f =>
      rw [run_bind_error (run_withEngine used)]
      exact .failed read used
    | ok a =>
      rw [run_bind_ok (run_withEngine used)]
      exact .done read used

theorem refactorFolder_ends :
    EngineEnds data s .refactor
      (fun d => Engine.refactorCodebase (field d "language") (field d "folder_path") (field d "rules") (.bool false))
      (fun _ => { name := "refactor_result", content := .dict [("result", .bool true)] })
      ((refactorFolder data).run s).1 ((refactorFolder data).run s).2 := engine_ends data s .refactor _ _ rfl

theorem testRules_ends :
    EngineEnds data s .snippet (fun d => Engine.refactorSnippet (field d "source_code") (field d "language") (field d "rules"))
      (fun code => { name := "test_result", content := .dict [("refactored_code", code)] })
      ((testRules data).run s).1 ((testRules data).run s).2 := engine_ends data s .snippet _ _ rfl

end Requests

def Server.IsConnected (s : Server) (client : Nat) : Prop := ∃ v ∈ s.visits, v.client = some client

section Serving

variable {k : RequestKind} {client : Nat} {data : Value} {s t : Server} {f : Failure}

theorem run_report (k : RequestKind) (f : Failure) : (k.report f).run s = (.ok (), { s with sent := s.sent ++ [k.told f] }) := by
  cases k <;> rfl

theorem serve_done (done : (k.work client data).run s = (.ok (), t)) : (k.serve client data).run s = (.ok (), t) := run_tryCatch_ok done

theorem serve_told (failed : (k.work client data).run s = (.error f, t)) (tells : k.Tells f) :
    (k.serve client data).run s = (.ok (), { t with sent := t.sent ++ [k.told f] }) := by
  unfold RequestKind.serve
  rw [run_tryCatch_error failed, if_pos tells, run_report]

theorem serve_untold (failed : (k.work client data).run s = (.error f, t)) (untold : ¬k.Tells f) :
    (k.serve client data).run s = (.error f, t) := by
  unfold RequestKind.serve
  rw [run_tryCatch_error failed, if_neg untold]
  rfl

theorem run_receive (event : Event) (allowed : event = .connect ∨ s.IsConnected client) :
    (receive client event).run s = (handle client event).run s := by
  unfold receive
  rw [run_bind_ok run_get, if_pos]
  rw [Bool.or_eq_true, decide_eq_true_eq, any_eq_true]
  rcases allowed with connects | ⟨v, inside, same⟩
  · exact .inl connects
  · exact .inr ⟨v, inside, by simpa using same⟩

theorem run_receive_unknown {event : Event} (other : event ≠ .connect) (unknown : ¬s.IsConnected client) :
    (receive client event).run s = (.error (.external "not connected"), s) := by
  unfold receive
  rw [run_bind_ok run_get, if_neg]
  · rfl
  · rw [Bool.or_eq_true, decide_eq_true_eq, any_eq_true]
    rintro (same | ⟨v, inside, same⟩)
    · exact other same
    · exact unknown ⟨v, inside, by simpa using same⟩

theorem isConnected_of_agent {agent : Agent.State} (found : s.agent? client = some agent) : s.IsConnected client := by
  obtain ⟨v, first, -⟩ := Option.bind_eq_some_iff.mp found
  exact ⟨v, mem_of_find?_eq_some first, by simpa using find?_some first⟩

end Serving

end Service
end Rulewright
