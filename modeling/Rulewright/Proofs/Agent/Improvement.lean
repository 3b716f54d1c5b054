import Rulewright.Agent.Improve
import Rulewright.Proofs.Agent.Acceptance

/-!
Rounds of an improvement. Whatever is said about the rules, and whether it helps or not, the agent stays as it is until a round ends
with rules that pass the check (`improvement_returns_or_keeps_agent`).
-/

namespace Rulewright.Agent

open Chat (Conversation Dialogue)

section Copies

variable {α : Type} {p q : Conversation × Session} {r : Except Failure α} {act : AgentM α}

abbrev agentOf (p : Conversation × Session) : State := p.2.agent

theorem run_aside {t : Session} (done : act.run p.2 = (r, t)) : (aside act).run p = (r, (p.1, t)) := by
  have known : act p.2 = (r, t) := done
  unfold aside
  rw [run_bind_ok run_get]
  simp only [ExceptT.run] at known ⊢
  simp only [known]
  rfl

theorem run_talk {act : Dialogue → Except Failure α × Dialogue} {d : Dialogue}
    (done : act { conversation := p.1, service := p.2.service } = (r, d)) :
    (talk act).run p = (r, (d.conversation, { p.2 with service := d.service })) := by
  unfold talk
  rw [run_bind_ok run_get]
  simp only [done]
  rfl

theorem keeps_aside {γ : Type} {view : Conversation × Session → γ} (kept : ∀ c, Keeps (fun s => view (c, s)) act) :
    Keeps view (aside act) := by
  intro p
  exact kept p.1 p.2

theorem keeps_talk (act : Dialogue → Except Failure α × Dialogue) : Keeps agentOf (talk act) := by
  intro p
  rw [run_talk (Prod.eta (act _)).symm]

theorem keeps_tell (text : String) : Keeps agentOf (tell text) := fun _ => rfl

theorem keeps_choices {γ : Type} (view : Session → γ) (rule : Value) : Keeps view (choices rule) := by
  have parsed (code : String) : Keeps view (parse code) := by
    refine keeps_get.bind fun s => ?_
    split
    · exact keeps_pure _
    · exact keeps_throw _
  exact (keeps_lift _).bind fun _ => keeps_get.bind fun s => (parsed _).bind fun _ => keeps_lift _

theorem keeps_addFilter (wish : String) (rule : Value) : Keeps agentOf (addFilter wish rule) := by
  refine (keeps_aside fun _ => keeps_choices _ rule).bind fun nodes => (keeps_lift _).bind fun text => ?_
  refine (keeps_tell _).bind fun _ => (keeps_talk _).bind fun answer => ?_
  split
  · exact keeps_throw _
  · refine (keeps_lift _).bind fun new => ?_
    split
    · exact keeps_throw _
    · exact keeps_pure _

theorem keeps_improveOne (wish : String) (rule : Value) : Keeps agentOf (improveOne wish rule) := by
  refine (keeps_lift _).bind fun text => (keeps_talk _).bind fun _ => (keeps_talk _).bind fun how => ?_
  exact .ite ((keeps_addFilter wish rule).bind fun _ => keeps_pure _) (keeps_pure _)

end Copies

def listed (rules : Value) : Except Failure (List Value) := do (← rules.lookup "rules" (.list [])).each

def explanations (improved : List (Value × List String)) : String := "\n".intercalate (improved.flatMap (·.2))

def submission (texts : List String) (explanation : String) : String :=
  "<file_name_start>rules.toml<file_name_end> ```toml\n" ++ "\n".intercalate texts ++ "\n``` ```md\n" ++ explanation ++ "\n```"

structure Accepted (wish : String) (rules : Value) (p : Conversation × Session) (block : String) (t : Session) : Prop where
  ends : ∃ list improved texts d u verdict v, listed rules = .ok list ∧
    (list.mapM (improveOne wish)).run p = (.ok improved, (d, u)) ∧
    (improved.mapM fun r => Toml.write r.1) = .ok texts ∧
    (validate (submission texts (explanations improved))).run u = (.ok verdict, v) ∧ verdict.rules = block ∧
    t = { v with agent := { v.agent with chat := some d, explanation := .str (explanations improved) } }

inductive FailsFor (wish : String) (rules : Value) : Nat → Conversation × Session → Conversation × Session → Prop
  | zero (p : Conversation × Session) : FailsFor wish rules 0 p p
  | succ {n : Nat} {p r : Conversation × Session} {c : Conversation} {s : Session} {f : Failure}
      (first : (improveAll wish rules).run p = (.error f, (c, s))) (others : FailsFor wish rules n (c.user f.words, s) r) :
      FailsFor wish rules (n + 1) p r

section Rounds

variable {wish : String} {rules : Value} {p q : Conversation × Session} {block : String} {t s : Session} {n : Nat} {f : Failure}

theorem improveAll_ok (done : (improveAll wish rules).run p = (.ok block, q)) : Accepted wish rules p block q.2 := by
  obtain ⟨list, _, found, done⟩ := run_bind_cases done
  obtain ⟨known, rfl⟩ := run_liftExcept_cases found
  obtain ⟨improved, ⟨d, u⟩, went, done⟩ := run_bind_cases done
  obtain ⟨texts, _, written, done⟩ := run_bind_cases done
  obtain ⟨printed, rfl⟩ := run_liftExcept_cases written
  obtain ⟨verdict, _, checked, done⟩ := run_bind_cases done
  generalize tested : (validate (submission texts (explanations improved))).run u = o
  obtain ⟨r, v⟩ := o
  have same := (run_aside (p := (d, u)) tested).symm.trans checked
  cases same
  cases done
  exact ⟨list, improved, texts, d, u, verdict, v, known, went, printed, tested, rfl, rfl⟩

theorem Accepted.agent (accepted : Accepted wish rules p block t) :
    ∃ d explanation, t.agent = { p.2.agent with chat := some d, explanation := .str explanation } := by
  obtain ⟨list, improved, texts, d, u, verdict, v, -, went, -, checked, -, rfl⟩ := accepted.ends
  have first : ((list.mapM (improveOne wish)).run p).2.2.agent = p.2.agent := Keeps.mapM (keeps_improveOne wish) p
  have second : ((validate (submission texts (explanations improved))).run u).2.agent = u.agent := keepsAgent_validate _ u
  rw [went] at first
  rw [checked] at second
  exact ⟨d, explanations improved, by rw [second, first]⟩

theorem keepsOnFailure_improveAll (wish : String) (rules : Value) : KeepsOnFailure agentOf (improveAll wish rules) := by
  refine (keeps_lift _).before fun list => (Keeps.mapM (keeps_improveOne wish)).before fun improved => ?_
  refine (keeps_lift _).before fun texts => (keeps_aside fun _ => keeps_validate _ (fun _ _ => rfl) _).before fun verdict => ?_
  -- what is left cannot fail
  intro p e q failed
  cases failed

theorem FailsFor.agent (fails : FailsFor wish rules n p q) : agentOf q = agentOf p := by
  induction fails with
  | zero p => rfl
  | succ first others ih =>
    have kept := keepsOnFailure_improveAll wish rules _ _ _ first
    exact ih.trans kept

theorem FailsFor.accepts (fails : FailsFor wish rules n p q) {r : Conversation × Session} (last : (improveAll wish rules).run q = (.ok block, r))
    (more : Nat) : (improveWithin wish rules (n + (more + 1))).run p = (.ok block, r) := by
  induction fails with
  | zero p =>
    rw [Nat.zero_add, improveWithin, run_bind_ok (run_lift last)]
    rfl
  | succ first others ih =>
    rw [Nat.succ_add, improveWithin, run_bind_ok (run_lift first)]
    exact ih last

theorem FailsFor.exhausts (fails : FailsFor wish rules n p q) :
    (improveWithin wish rules n).run p = (.error (.agent "Unable to improve rule."), q) := by
  induction fails with
  | zero p => rfl
  | succ first others ih =>
    rw [improveWithin, run_bind_ok (run_lift first)]
    exact ih

theorem rounds_fail_or_accept (wish : String) (rules : Value) (n : Nat) (p : Conversation × Session) :
    (∃ q, FailsFor wish rules n p q) ∨ ∃ k q block r, k < n ∧ FailsFor wish rules k p q ∧ (improveAll wish rules).run q = (.ok block, r) := by
  induction n generalizing p with
  | zero => exact .inl ⟨p, .zero p⟩
  | succ n ih =>
    generalize done : (improveAll wish rules).run p = o
    obtain ⟨result, c, s⟩ := o
    cases result with
    | ok block => exact .inr ⟨0, p, block, (c, s), Nat.succ_pos n, .zero p, done⟩
    | error f =>
      rcases ih (c.user f.words, s) with ⟨q, fails⟩ | ⟨k, q, block, r, less, fails, last⟩
      · exact .inl ⟨q, .succ done fails⟩
      · exact .inr ⟨k + 1, q, block, r, by omega, .succ done fails, last⟩

theorem improve_of_chat {c : Conversation} {r : Except Failure String} (chat : s.agent.chat = some c)
    (done : (improveWithin wish rules 15).run (c, s) = (r, q)) : (improve wish rules).run s = (r, q.2) := by
  have known : improveWithin wish rules 15 (c, s) = (r, q) := done
  unfold improve
  rw [run_bind_ok run_get]
  simp only [chat]
  rw [run_bind_ok run_get]
  simp only [ExceptT.run, known]
  rfl

theorem improve_cases (s : Session) (wish : String) (rules : Value) :
    (s.agent.chat = none ∧ (improve wish rules).run s = (.error (.agent "Improvement is only support for GPT inferred rules."), s)) ∨
      (∃ c p, s.agent.chat = some c ∧ FailsFor wish rules 15 (c, s) p ∧
        (improve wish rules).run s = (.error (.agent "Unable to improve rule."), p.2)) ∨
      ∃ c k p block t, s.agent.chat = some c ∧ k < 15 ∧ FailsFor wish rules k (c, s) p ∧ Accepted wish rules p block t ∧
        (improve wish rules).run s = (.ok block, t) := by
  cases chat : s.agent.chat with
  | none =>
    refine .inl ⟨rfl, ?_⟩
    unfold improve
    rw [run_bind_ok run_get]
    simp only [chat]
    rfl
  | some c =>
    rcases rounds_fail_or_accept wish rules 15 (c, s) with ⟨p, fails⟩ | ⟨k, p, block, q, less, fails, last⟩
    · exact .inr (.inl ⟨c, p, rfl, fails, improve_of_chat chat fails.exhausts⟩)
    · have done : (improveWithin wish rules 15).run (c, s) = (.ok block, q) := by
        obtain ⟨more, rest⟩ : ∃ more, 15 = k + (more + 1) := ⟨14 - k, by omega⟩
        rw [rest]
        exact fails.accepts last more
      exact .inr (.inr ⟨c, k, p, block, q.2, rfl, less, fails, improveAll_ok last, improve_of_chat chat done⟩)

end Rounds

end Rulewright.Agent
