import Rulewright.Chat.Controller
import Rulewright.Proofs.Agent.Endurance
import Mathlib.Data.List.Chain

/-!
The log of a conversation. It begins with the task and only grows at its end, and the model never speaks twice in a row: it is asked
only when somebody else has the last word. So an answer that was given is found again without asking (`log_of_operations`).
-/

open List

namespace Rulewright.Chat

open Agent (Continues Answers afterRequest run_request respond_cases respond_run completion_conversation)

inductive Operation where
  | answer
  | tell (text : String)
  | askForFilter (wish rule nodes : String)
  | sample (samples : Value)
  deriving DecidableEq, Repr

def Operation.after (d : Dialogue) : Operation → Dialogue
  | .answer => (respond.run d).2
  | .tell text => model.tell text d
  | .askForFilter wish rule nodes => model.tell (filterPrompt wish rule nodes) d
  | .sample samples => ((completion samples maxTries).run d).2

def Dialogue.after (d : Dialogue) (operations : List Operation) : Dialogue := operations.foldl Operation.after d

def opened (c : Conversation) (service : Service) (first : Option String) : Dialogue :=
  { conversation := first.elim c c.assistant, service }

structure IsLog (task : String) (messages : List Message) : Prop where
  begins : messages.head? = some ⟨"user", task⟩
  turns : messages.IsChain fun a b => ¬(a.role = "assistant" ∧ b.role = "assistant")

section Logs

variable {task role text examples : String} {c : Conversation} {d e : Dialogue}

theorem IsLog.say (log : IsLog task c.messages) (content : String)
    (free : role = "assistant" → ∀ last, c.messages.getLast? = some last → last.role ≠ "assistant") :
    IsLog task (c.say role content).messages := by
  refine ⟨?_, isChain_append.mpr ⟨log.turns, .singleton _, ?_⟩⟩
  · simp [Conversation.say, head?_append, log.begins]
  · intro last ends message new
    rw [head?_cons, Option.mem_some_iff] at new
    subst new
    rintro ⟨before, now⟩
    exact free now last ends before

theorem isLog_tell (log : IsLog task d.conversation.messages) (text : String) :
    IsLog task (model.tell text d).conversation.messages :=
  log.say text fun wrong => absurd wrong (by decide)

theorem isLog_respond (log : IsLog task d.conversation.messages) : IsLog task (respond.run d).2.conversation.messages := by
  rcases respond_cases d with ⟨text, -, done⟩ | ⟨text, e, free, added, done⟩ | ⟨f, e, -, same, done⟩
  · rw [done]
    exact log
  · rw [done, added]
    exact log.say text fun _ => free
  · rw [done, same]
    exact log

theorem isLog_after (log : IsLog task d.conversation.messages) (operation : Operation) :
    IsLog task (operation.after d).conversation.messages := by
  cases operation with
  | answer => exact isLog_respond log
  | tell text => exact isLog_tell log text
  | askForFilter wish rule nodes => exact isLog_tell log _
  | sample samples =>
    rw [Operation.after, completion_conversation]
    exact log

theorem continues_after (d : Dialogue) (operation : Operation) : Continues d.conversation (operation.after d).conversation := by
  cases operation with
  | answer => exact (respond_run (Prod.eta (respond.run d)).symm).1
  | tell text => exact .say _ _ _
  | askForFilter wish rule nodes => exact .say _ _ _
  | sample samples =>
    rw [Operation.after, completion_conversation]
    exact .refl _

theorem isLog_run (log : IsLog task d.conversation.messages) (operations : List Operation) :
    IsLog task (d.after operations).conversation.messages := by
  induction operations generalizing d with
  | nil => exact log
  | cons operation rest ih => exact ih (isLog_after log operation)

theorem continues_run (d : Dialogue) (operations : List Operation) : Continues d.conversation (d.after operations).conversation := by
  induction operations generalizing d with
  | nil => exact .refl _
  | cons operation rest ih => exact (continues_after d operation).trans (ih _)

theorem respond_of_answers (answered : Answers d.conversation text) : respond.run d = (.ok text, d) := by
  unfold respond
  rw [run_bind_ok run_get]
  simp only [show d.conversation.messages.getLast? = some ⟨"assistant", text⟩ from answered]
  rfl

theorem isLog_opened {holes temperature : Value} {kind : Value}
    (started : startChecked examples holes [] temperature kind = .ok c) (service : Service) (first : Option String) :
    ∃ h, Holes.ofTable holes = .ok h ∧ IsLog (opening examples h) (opened c service first).conversation.messages := by
  obtain ⟨-, -, started⟩ := bind_cases started
  obtain ⟨-, -, started⟩ := bind_cases started
  obtain ⟨h, filled, started⟩ := bind_cases started
  cases started
  have log : IsLog (opening examples h) [⟨"user", opening examples h⟩] := ⟨rfl, .singleton _⟩
  refine ⟨h, filled, ?_⟩
  cases first with
  | none => exact log
  | some text =>
    refine IsLog.say (c := ⟨[⟨"user", opening examples h⟩], kind⟩) log text fun _ last ends => ?_
    cases ends
    exact (by decide : "user" ≠ "assistant")

end Logs

def Service.replyAt (s : Service) (i : Nat) : Reply := s.replies[i]?.getD .busy

def Service.Denies (s : Service) (tries : Nat) (f : Failure) : Prop :=
  (f = .chat "Failed to get completion from GPT." ∧ ∀ i < tries, s.replyAt i = .busy) ∨
    ∃ k words, k < tries ∧ f = .external words ∧ (∀ i < k, s.replyAt i = .busy) ∧ s.replyAt k = .broken words

section Denials

variable {s later : Service} {tries : Nat} {f : Failure}

theorem replyAt_zero (s : Service) : s.replyAt 0 = s.replies.head?.getD .busy := by
  rw [Service.replyAt, head?_eq_getElem?]

theorem replyAt_later (d : Dialogue) (samples : Value) (i : Nat) :
    (afterRequest d samples).service.replyAt i = d.service.replyAt (i + 1) := by
  simp [Service.replyAt, afterRequest]

theorem denies_succ (shifted : ∀ i, later.replyAt i = s.replyAt (i + 1)) (busy : s.replyAt 0 = .busy) :
    s.Denies (tries + 1) f ↔ later.Denies tries f := by
  have all (n : Nat) : (∀ i < n + 1, s.replyAt i = .busy) ↔ ∀ i < n, later.replyAt i = .busy := by
    simp only [shifted, Nat.forall_lt_succ_left, busy, true_and]
  unfold Service.Denies
  rw [all]
  refine or_congr Iff.rfl ⟨?_, ?_⟩
  · rintro ⟨k, words, less, same, before, breaks⟩
    cases k with
    | zero =>
      rw [busy] at breaks
      cases breaks
    | succ k => exact ⟨k, words, by omega, same, (all k).mp before, (shifted k).trans breaks⟩
  · rintro ⟨k, words, less, same, before, breaks⟩
    exact ⟨k + 1, words, by omega, same, (all k).mpr before, (shifted k).symm.trans breaks⟩

theorem denies_broken {words : String} (breaks : s.replyAt 0 = .broken words) : s.Denies (tries + 1) f ↔ f = .external words := by
  constructor
  · rintro (⟨-, busy⟩ | ⟨k, words', -, rfl, before, here⟩)
    · rw [busy 0 (Nat.succ_pos _)] at breaks
      cases breaks
    · cases k with
      | zero =>
        rw [breaks] at here
        cases here
        rfl
      | succ k =>
        rw [before 0 (Nat.succ_pos _)] at breaks
        cases breaks
  · rintro rfl
    exact .inr ⟨0, words, Nat.succ_pos _, rfl, by simp, breaks⟩

theorem not_denies_choices {texts : List String} (given : s.replyAt 0 = .choices texts) : ¬s.Denies (tries + 1) f := by
  rintro (⟨-, busy⟩ | ⟨k, words, -, -, before, breaks⟩)
  · rw [busy 0 (Nat.succ_pos _)] at given
    cases given
  · cases k with
    | zero =>
      rw [given] at breaks
      cases breaks
    | succ k =>
      rw [before 0 (Nat.succ_pos _)] at given
      cases given

theorem completion_fails_iff (samples : Value) (tries : Nat) (d : Dialogue) (f : Failure) :
    ((completion samples tries).run d).1 = .error f ↔ d.service.Denies tries f := by
  induction tries generalizing d with
  | zero =>
    constructor
    · intro failed
      cases failed
      exact .inl ⟨rfl, by simp⟩
    · rintro (⟨rfl, -⟩ | ⟨k, -, less, -⟩)
      · rfl
      · exact absurd less (Nat.not_lt_zero k)
  | succ tries ih =>
    have now := replyAt_zero d.service
    rw [completion, run_bind_ok (run_request samples d), ← now]
    cases reply : d.service.replyAt 0 with
    | choices texts => exact ⟨fun wrong => (by cases wrong), fun denied => absurd denied (not_denies_choices reply)⟩
    | busy =>
      rw [denies_succ (replyAt_later d samples) reply]
      exact ih _
    | broken words =>
      rw [denies_broken reply]
      constructor
      · intro failed
        cases failed
        rfl
      · rintro rfl
        rfl

end Denials

/-- A conversation that starts without earlier messages, whatever is done with it and whatever the service says: its messages are a log
that begins with the task, and stay when more is done. An answer is what the model then said last, and asking for it once more leaves
the conversation and the service as they are. A failure to answer adds nothing, and neither do completions, which fail exactly if the
service is busy three times or breaks before. -/
theorem log_of_operations (examples : String) (holes temperature kind : Value) (c : Conversation) (service : Service)
    (first : Option String) (operations : List Operation)
    (started : startChecked examples holes [] temperature kind = .ok c) :
    ∃ h d, Holes.ofTable holes = .ok h ∧ d = (opened c service first).after operations ∧
      IsLog (opening examples h) d.conversation.messages ∧
      (∀ more, d.conversation.messages <+: (d.after more).conversation.messages) ∧
      (∀ text e, respond.run d = (.ok text, e) →
        e.conversation.messages.getLast? = some ⟨"assistant", text⟩ ∧ respond.run e = (.ok text, e)) ∧
      (∀ f e, respond.run d = (.error f, e) → e.conversation = d.conversation) ∧
      ∀ samples, ((completion samples maxTries).run d).2.conversation = d.conversation ∧
        ∀ f, ((completion samples maxTries).run d).1 = .error f ↔ d.service.Denies 3 f := by
  obtain ⟨h, filled, log⟩ := isLog_opened started service first
  refine ⟨h, _, filled, rfl, isLog_run log operations, fun more => (continues_run _ more).messages, ?_, ?_, ?_⟩
  · intro text e answered
    have ends := (respond_run answered).2 text rfl
    exact ⟨ends, respond_of_answers ends⟩
  · intro f e failed
    rcases respond_cases ((opened c service first).after operations) with ⟨_, -, done⟩ | ⟨_, _, -, -, done⟩ | ⟨_, e', -, same, done⟩
    · rw [failed] at done
      cases done
    · rw [failed] at done
      cases done
    · rw [failed] at done
      cases done
      exact same
  · intro samples
    exact ⟨completion_conversation _ _ _, completion_fails_iff samples maxTries _⟩

def hintedHoles : Value :=
  .dict [("source_code", .str ""), ("source_tree", .str ""), ("target_tree", .str ""), ("diff", .str ""), ("rules", .null),
    ("hints", .str "look closely")]

def hintedChat : Conversation := (startChecked "" hintedHoles [] (.int 1) (.str "gpt-4")).toOption.getD ⟨[], .null⟩

theorem hintedChat_started : startChecked "" hintedHoles [] (.int 1) (.str "gpt-4") = .ok hintedChat := rfl

/-- The model has answered, is told more, answers after a busy moment, and then the service breaks. -/
theorem hintedChat_log :
    ∃ h d, Holes.ofTable hintedHoles = .ok h ∧
      d = (opened hintedChat { replies := [.busy, .choices ["second"], .broken "closed"] } (some "first")).after
        [.answer, .tell "no", .answer, .askForFilter "w" "r" "n", .sample (.int 2)] ∧
      d.conversation.messages.map Message.role = ["user", "assistant", "user", "assistant", "user"] ∧
      IsLog (opening "" h) d.conversation.messages := by
  obtain ⟨h, d, filled, rfl, log, -⟩ := log_of_operations "" hintedHoles (.int 1) (.str "gpt-4") hintedChat
    { replies := [.busy, .choices ["second"], .broken "closed"] } (some "first")
    [.answer, .tell "no", .answer, .askForFilter "w" "r" "n", .sample (.int 2)] hintedChat_started
  exact ⟨h, _, filled, rfl, by decide +kernel, log⟩

end Rulewright.Chat
