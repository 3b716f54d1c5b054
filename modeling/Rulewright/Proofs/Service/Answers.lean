import Rulewright.Proofs.Service.Handling
import Rulewright.Proofs.Service.Inferring

/-!
Answers to requests. A request is answered if its handler returns and sends one closing message, at most after a word on the progress of
an inference. That happens exactly if the client is told about whatever makes the work fail, and this depends on what was sent, on the
rules in it, and for an inference on the parser and on the answers of the model (`request_answered_iff`).
-/

open List

namespace Rulewright.Service

open Agent (Session)

def RequestKind.endings : RequestKind → List String
  | .infer => ["infer_success", "infer_error"]
  | .improve => ["infer_result", "infer_error"]
  | .refactor => ["refactor_result"]
  | .snippet => ["test_result", "test_error"]

def RequestKind.IsProgress (k : RequestKind) (messages : List Message) : Prop :=
  messages = [] ∨ k = .infer ∧ ∃ text, messages = [progressed text]

def Answered (k : RequestKind) (s : Server) (o : Except Failure Unit × Server) : Prop :=
  o.1 = .ok () ∧ ∃ progress last, o.2.sent = s.sent ++ progress ++ [last] ∧ k.IsProgress progress ∧ last.name ∈ k.endings

def Unanswered (k : RequestKind) (s : Server) (o : Except Failure Unit × Server) : Prop :=
  ∃ f progress, o.1 = .error f ∧ ¬k.Tells f ∧ o.2.sent = s.sent ++ progress ∧ k.IsProgress progress

def RequestKind.CanWork (s : Server) (entries : Entries) : RequestKind → Prop
  | .infer => Agent.CanInfer (s.session (newAgent entries))
  | .improve => Tidies entries
  | .refactor => True
  | .snippet => True

def Answerable (s : Server) (k : RequestKind) (data : Value) : Prop :=
  ∃ entries, k.HasFields data entries ∧ Typed entries k.fields ∧ (k.Valid entries → k.CanWork s entries)

section Messages

variable {k : RequestKind} {client : Nat} {data : Value} {s t : Server} {r : Except Failure Unit} {f : Failure}

def Sends (k : RequestKind) (s : Server) (r : Except Failure Unit) (t : Server) : Prop :=
  ∃ progress, k.IsProgress progress ∧
    ((r = .ok () ∧ ∃ last, t.sent = s.sent ++ progress ++ [last] ∧ last.name ∈ k.endings) ∨ (∃ f, r = .error f) ∧ t.sent = s.sent ++ progress)

theorem sends_nothing (sent : t.sent = s.sent) : Sends k s (.error f) t := ⟨[], .inl rfl, .inr ⟨⟨f, rfl⟩, by rw [sent, append_nil]⟩⟩

theorem EngineEnds.sends {α : Type} {act : Entries → Engine.EngineM α} {message : α → Message} (ends : EngineEnds data s k act message r t)
    (closes : ∀ a, (message a).name ∈ k.endings) : Sends k s r t := by
  cases ends with
  | unread refused => exact sends_nothing rfl
  | failed read failed => exact sends_nothing rfl
  | @done d a engine read used => exact ⟨[], .inl rfl, .inl ⟨rfl, message a, by rw [append_nil], closes a⟩⟩

theorem work_sends (k : RequestKind) (client : Nat) (data : Value) (s : Server) :
    Sends k s ((k.work client data).run s).1 ((k.work client data).run s).2 := by
  cases k with
  | infer =>
    have ends := inferRules_ends client data s
    change Sends .infer s ((inferRules client data).run s).1 ((inferRules client data).run s).2
    generalize (inferRules client data).run s = o at ends
    obtain ⟨r, t⟩ := o
    cases ends with
    | unread refused => exact sends_nothing rfl
    | unbuilt read failed => exact sends_nothing rfl
    | @unfinished d text f t u read built failed => exact ⟨[progressed text], .inr ⟨rfl, text, rfl⟩, .inr ⟨⟨f, rfl⟩, rfl⟩⟩
    | @done d text rules t u read built inferred =>
      exact ⟨[progressed text], .inr ⟨rfl, text, rfl⟩, .inl ⟨rfl, succeeded rules u.agent, by rw [append_assoc]; rfl, mem_cons_self⟩⟩
  | improve =>
    have ends := improveRules_ends client data s
    change Sends .improve s ((improveRules client data).run s).1 ((improveRules client data).run s).2
    generalize (improveRules client data).run s = o at ends
    obtain ⟨r, t⟩ := o
    cases ends with
    | unread refused => exact sends_nothing rfl
    | agentless read none => exact sends_nothing rfl
    | unimproved read found => exact sends_nothing rfl
  | refactor => exact (refactorFolder_ends data s).sends fun _ => mem_cons_self
  | snippet => exact (testRules_ends data s).sends fun _ => mem_cons_self

theorem told_mem_endings (k : RequestKind) (f : Failure) : (k.told f).name ∈ k.endings := by
  cases k <;> simp [RequestKind.told, RequestKind.endings]

theorem serve_answered_iff (k : RequestKind) (client : Nat) (data : Value) (s : Server) :
    (Answered k s ((k.serve client data).run s) ↔ FailsOnlyIn k.Tells (k.work client data) s) ∧
      (¬FailsOnlyIn k.Tells (k.work client data) s → Unanswered k s ((k.serve client data).run s)) := by
  have sends := work_sends k client data s
  generalize ran : (k.work client data).run s = o at sends
  obtain ⟨r, t⟩ := o
  obtain ⟨progress, fine, ⟨rfl, last, sent, closes⟩ | ⟨⟨f, rfl⟩, sent⟩⟩ := sends
  · rw [serve_done ran]
    have fails : FailsOnlyIn k.Tells (k.work client data) s := failsOnlyIn_ok ran
    exact ⟨iff_of_true ⟨rfl, progress, last, sent, fine, closes⟩ fails, fun wrong => absurd fails wrong⟩
  · rw [failsOnlyIn_error_iff ran]
    by_cases tells : k.Tells f
    · rw [serve_told ran tells]
      refine ⟨iff_of_true ⟨rfl, progress, k.told f, ?_, fine, told_mem_endings k f⟩ tells, fun wrong => absurd tells wrong⟩
      rw [sent]
    · rw [serve_untold ran tells]
      refine ⟨iff_of_false (fun answered => ?_) tells, fun _ => ⟨f, progress, rfl, tells, sent, fine⟩⟩
      cases answered.1

end Messages

section Work

variable {client : Nat} {data : Value} {s : Server}

theorem reporting_fails {α : Type} {act : Engine.EngineM α} {engine engine' : Engine.Script} {f : Failure}
    (failed : (Engine.reporting act).run engine = (.error f, engine')) : ∃ cause, f = .refactoring cause := by
  unfold Engine.reporting at failed
  generalize ran : act.run engine = o
  obtain ⟨r, e⟩ := o
  cases r with
  | ok a =>
    rw [run_tryCatch_ok ran] at failed
    cases failed
  | error cause =>
    rw [run_tryCatch_error ran] at failed
    cases failed
    exact ⟨cause, rfl⟩

theorem EngineEnds.fails_iff {k : RequestKind} {α : Type} {act : Entries → Engine.EngineM α} {message : α → Message} {x : ServerM Unit}
    (ends : EngineEnds data s k act message (x.run s).1 (x.run s).2)
    (tells : ∀ d f engine engine', (act d).run engine = (.error f, engine') → k.Tells f) :
    FailsOnlyIn k.Tells x s ↔ FailsOnly k.Tells (k.read data) := by
  generalize ran : x.run s = o at ends
  obtain ⟨r, t⟩ := o
  cases ends with
  | @unread f refused =>
    rw [failsOnlyIn_error_iff ran, refused]
    exact ⟨failsOnly_error, fun fails => fails f rfl⟩
  | failed read failed =>
    rw [failsOnlyIn_error_iff ran, read]
    exact iff_of_true (tells _ _ _ _ failed) (failsOnly_ok _)
  | done read used =>
    rw [read]
    exact iff_of_true (failsOnlyIn_ok ran) (failsOnly_ok _)

theorem improveRules_fails_iff : FailsOnlyIn RequestKind.improve.Tells (improveRules client data) s ↔
    FailsOnly RequestKind.improve.Tells (RequestKind.improve.read data) := by
  have ends := improveRules_ends client data s
  generalize ran : (improveRules client data).run s = o at ends
  obtain ⟨r, t⟩ := o
  cases ends with
  | @unread f refused =>
    rw [failsOnlyIn_error_iff ran, refused]
    exact ⟨failsOnly_error, fun fails => fails f rfl⟩
  | agentless read none =>
    rw [failsOnlyIn_error_iff ran, read]
    exact iff_of_true rfl (failsOnly_ok _)
  | unimproved read found =>
    rw [failsOnlyIn_error_iff ran, read]
    exact iff_of_true rfl (failsOnly_ok _)

theorem inferRules_fails_iff : FailsOnlyIn RequestKind.infer.Tells (inferRules client data) s ↔
    FailsOnly RequestKind.infer.Tells (RequestKind.infer.read data) ∧
      ∀ d, RequestKind.infer.read data = .ok d → Agent.CanInfer (s.session (newAgent d)) := by
  have ends := inferRules_ends client data s
  generalize ran : (inferRules client data).run s = o at ends
  obtain ⟨r, t⟩ := o
  -- what is left to show once the request was read
  have once {d : Entries} (read : RequestKind.infer.read data = .ok d)
      (same : FailsOnlyIn RequestKind.infer.Tells (inferRules client data) s ↔ Agent.CanInfer (s.session (newAgent d))) :
      FailsOnlyIn RequestKind.infer.Tells (inferRules client data) s ↔ FailsOnly RequestKind.infer.Tells (RequestKind.infer.read data) ∧
        ∀ d, RequestKind.infer.read data = .ok d → Agent.CanInfer (s.session (newAgent d)) := by
    rw [same, read]
    refine ⟨fun can => ⟨failsOnly_ok d, fun d' read' => ?_⟩, fun can => can.2 d rfl⟩
    cases read'
    exact can
  cases ends with
  | @unread f refused =>
    rw [failsOnlyIn_error_iff ran, refused]
    refine ⟨fun tells => ⟨failsOnly_error tells, fun d wrong => ?_⟩, fun fails => fails.1 f rfl⟩
    cases wrong
  | unbuilt read failed =>
    refine once read ?_
    rw [← Agent.canInfer_iff, failsOnlyIn_error_iff ran, failsOnlyIn_error_iff (run_bind_error failed)]
  | unfinished read built failed =>
    refine once read ?_
    rw [← Agent.canInfer_iff, failsOnlyIn_error_iff ran, failsOnlyIn_error_iff ((run_bind_ok built).trans failed)]
  | done read built inferred =>
    refine once read ?_
    rw [← Agent.canInfer_iff]
    exact iff_of_true (failsOnlyIn_ok ran) (failsOnlyIn_ok ((run_bind_ok built).trans inferred))

theorem newAgent_taken (entries : Entries) : newAgent (RequestKind.infer.taken entries) = newAgent entries := by
  have same : ∀ e ∈ RequestKind.infer.fields, field (RequestKind.infer.taken entries) e.1 = field entries e.1 := fun e => field_taken
  simp only [newAgent, same ("source_code", .text) (by decide), same ("target_code", .text) (by decide),
    same ("language", .language) (by decide)]

theorem work_fails_iff (k : RequestKind) (client : Nat) (data : Value) (s : Server) :
    FailsOnlyIn k.Tells (k.work client data) s ↔ Answerable s k data := by
  cases k with
  | infer =>
    refine inferRules_fails_iff.trans ?_
    rw [read_fails_iff]
    constructor
    · rintro ⟨⟨entries, has, typed, -⟩, can⟩
      refine ⟨entries, has, typed, fun valid => ?_⟩
      rw [RequestKind.CanWork, ← newAgent_taken]
      exact can _ (read_of_valid (by decide) has valid)
    · rintro ⟨entries, has, typed, can⟩
      refine ⟨⟨entries, has, typed, fun wrong => by cases wrong⟩, fun d read => ?_⟩
      obtain ⟨others, has', valid, taken, -⟩ := read_ok read
      obtain rfl := has.unique has'
      rw [taken (by decide)]
      exact can valid
  | improve =>
    refine improveRules_fails_iff.trans (read_fails_iff.trans ?_)
    simp only [Answerable, RequestKind.CanWork, true_imp_iff]
  | refactor =>
    refine (EngineEnds.fails_iff (x := refactorFolder data) (refactorFolder_ends data s) ?_).trans (read_fails_iff.trans ?_)
    · intro d f engine engine' failed
      obtain ⟨cause, rfl⟩ := reporting_fails failed
      rfl
    · simp [Answerable, RequestKind.CanWork]
  | snippet =>
    refine (EngineEnds.fails_iff (x := testRules data) (testRules_ends data s) ?_).trans (read_fails_iff.trans ?_)
    · intro d f engine engine' failed
      obtain ⟨cause, rfl⟩ := reporting_fails failed
      rfl
    · simp [Answerable, RequestKind.CanWork]

end Work

def loneServer (world : Agent.World) : Server := { world, visits := [{ client := some 0 }] }

def snippetData : Value := .dict [("language", .str "java"), ("source_code", .str "a"), ("rules", .str "[[rules]]\nname = \"r\"\n")]

def numberedData : Value := .dict [("language", .str "java"), ("folder_path", .int 5), ("rules", .str "[[rules]]\nname = \"r\"\n")]

def danglingWorld : Agent.World := (Agent.templateSession "// 1 -> 3").toWorld

def danglingData : Value := .dict [("source_code", .str "before"), ("target_code", .str "after"), ("language", .str "java")]

def unwritableData : Value :=
  .dict [("language", .str "java"), ("requirements", .str "wish"), ("rules", .str "[[rules]]\nname = \"\\u0001\"\n")]

theorem not_answered_of_failure {k : RequestKind} {s : Server} {o : Except Failure Unit × Server} (failed : (Agent.failure? o.1).isSome) :
    ¬Answered k s o := by
  rintro ⟨done, -⟩
  rw [done] at failed
  cases failed

end Rulewright.Service
