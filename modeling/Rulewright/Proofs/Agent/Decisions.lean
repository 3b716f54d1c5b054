import Rulewright.Proofs.Agent.Endurance
import Rulewright.Proofs.Agent.Improvement

/-!
What becomes of a decision. For each rule of an improvement the model decides whether the rule needs changes, but nothing depends on
its decision: how to change the rule is the next question in every case, and what happens to the rule is up to the answer to that.
-/

open List

namespace Rulewright.Agent

open Chat
open Chat (Conversation Dialogue)

structure GrowsTo (d e : Dialogue) : Prop where
  said : Continues d.conversation e.conversation
  asked : d.service.asked <+: e.service.asked

section Growing

variable {d e f : Dialogue} {options : List String}

theorem GrowsTo.refl (d : Dialogue) : GrowsTo d d := ⟨.refl _, prefix_rfl⟩

theorem GrowsTo.trans (first : GrowsTo d e) (second : GrowsTo e f) : GrowsTo d f :=
  ⟨first.said.trans second.said, first.asked.trans second.asked⟩

theorem afterRequest_grows (d : Dialogue) (samples : Value) : GrowsTo d (afterRequest d samples) :=
  ⟨.refl _, prefix_append _ _⟩

theorem tell_grows (text : String) (d : Dialogue) : GrowsTo d (model.tell text d) := ⟨.say _ _ _, prefix_rfl⟩

theorem completion_sends (samples : Value) (tries : Nat) (d : Dialogue) :
    GrowsTo (afterRequest d samples) ((completion samples (tries + 1)).run d).2 := by
  induction tries generalizing d with
  | zero =>
    rw [completion, run_bind_ok (run_request samples d)]
    cases d.service.replies.head?.getD .busy <;> exact .refl _
  | succ tries ih =>
    rw [completion, run_bind_ok (run_request samples d)]
    cases d.service.replies.head?.getD .busy with
    | choices texts => exact .refl _
    | busy => exact (afterRequest_grows _ samples).trans (ih _)
    | broken words => exact .refl _

theorem respond_run_of_user {text : String} (ends : d.conversation.messages.getLast? = some ⟨"user", text⟩) :
    GrowsTo (afterRequest d (.int 1)) (respond.run d).2 := by
  have sent := completion_sends (.int 1) 2 d
  unfold respond
  rw [run_bind_ok run_get]
  simp only [ends]
  show GrowsTo _ (((completion (.int 1) maxTries) >>= _).run d).2
  generalize asked : (completion (.int 1) maxTries).run d = o
  rw [show (completion (.int 1) (2 + 1)).run d = o from asked] at sent
  obtain ⟨r, e⟩ := o
  cases r with
  | error g =>
    rw [run_bind_error asked]
    exact sent
  | ok texts =>
    rw [run_bind_ok asked]
    cases texts with
    | nil => exact sent
    | cons text others => exact sent.trans ⟨.say _ _ _, prefix_rfl⟩

theorem answer_sends (text : String) (d : Dialogue) :
    GrowsTo (afterRequest (model.tell text d) (.int 1)) (model.answer (model.tell text d)).2 := by
  have ends : (model.tell text d).conversation.messages.getLast? = some ⟨"user", text⟩ := by
    simp [model, Conversation.user, Conversation.say]
  exact respond_run_of_user ends

theorem selectWithin_after (options : List String) (total tries : Nat) (d : Dialogue) :
    (selectWithin model options total (tries + 1) d).2 = (model.answer d).2 ∨
      ∃ text, (selectWithin model options total (tries + 1) d).2 =
        (selectWithin model options total tries (model.tell text (model.answer d).2)).2 := by
  rw [selectWithin]
  generalize model.answer d = o
  obtain ⟨r, e⟩ := o
  cases r with
  | error f => exact .inl rfl
  | ok text =>
    dsimp only
    cases Json.read true text with
    | ok v => exact .inl rfl
    | error f =>
      dsimp only
      split
      · exact .inl rfl
      · exact .inr ⟨_, rfl⟩

theorem selectWithin_grows (options : List String) (total tries : Nat) (text : String) (d : Dialogue) :
    GrowsTo (model.tell text d) (selectWithin model options total tries (model.tell text d)).2 := by
  induction tries generalizing text d with
  | zero => exact .refl _
  | succ tries ih =>
    have answered := (afterRequest_grows _ _).trans (answer_sends text d)
    rcases selectWithin_after options total tries (model.tell text d) with ends | ⟨more, goes⟩
    · rw [ends]
      exact answered
    · rw [goes]
      exact (answered.trans (tell_grows more _)).trans (ih more _)

theorem select_sends (task : String) (options : List String) (d : Dialogue) :
    GrowsTo (afterRequest (model.tell task d) (.int 1)) (select model task options d).2 := by
  have answered := answer_sends task d
  unfold select
  rcases selectWithin_after options 3 2 (model.tell task d) with ends | ⟨more, goes⟩
  · rw [ends]
    exact answered
  · rw [goes]
    exact (answered.trans (tell_grows more _)).trans (selectWithin_grows options 3 2 more _)

theorem selectWithin_ok {total tries : Nat} {choice : String}
    (done : (selectWithin model options total tries d).1 = .ok choice) : choice ∈ options := by
  induction tries generalizing d with
  | zero => cases done
  | succ tries ih =>
    rw [selectWithin] at done
    generalize model.answer d = o at done
    obtain ⟨r, e⟩ := o
    cases r with
    | error f => cases done
    | ok text =>
      dsimp only at done
      cases read : Json.read true text with
      | ok v =>
        rw [read] at done
        obtain ⟨answer, -, done⟩ := bind_cases (show chosen options v = .ok choice from done)
        split at done
        · split at done
          · rename_i listed
            cases done
            simpa using listed
          · cases done
        · cases done
      | error f =>
        rw [read] at done
        dsimp only at done
        split at done
        · cases done
        · exact ih done

end Growing

structure Sends (p q : Conversation × Session) (text : String) : Prop where
  said : p.1.messages ++ [⟨"user", text⟩] <+: q.1.messages
  asked : ∃ request : Chat.Request, request.last = text ∧ request.messages = p.1.messages.length + 1 ∧
    p.2.service.asked ++ [request] <+: q.2.service.asked

def optionQuestion (rule : String) : String :=
  "You opted to improve this rule:\n" ++ rule ++ "\nChoose an improvement option and state your reasoning and selection. Response format: " ++
    answerFormFor (Text.join "/" improvements) ++ "."

def ComesTo (wish : String) (rules : Value) (s : Session) (start : Conversation × Session) (before : List Value) (rule : Value)
    (p : Conversation × Session) : Prop :=
  ∃ c k after done, s.agent.chat = some c ∧ k < 15 ∧ FailsFor wish rules k (c, s) start ∧ listed rules = .ok (before ++ rule :: after) ∧
    (before.mapM (improveOne wish)).run start = (.ok done, p)

def Decides (wish text : String) (p : Conversation × Session) (answer : String) (q : Conversation × Session) : Prop :=
  (talk (shouldImprove model wish text)).run p = (.ok answer, q)

def Chooses (text : String) (p : Conversation × Session) (how : String) (q : Conversation × Session) : Prop :=
  (talk (howToImprove model text)).run p = (.ok how, q)

def LeftAlone (wish : String) (rule : Value) (p q : Conversation × Session) : Prop :=
  (improveOne wish rule).run p = (.ok (rule, []), q)

section Saying

variable {wish text answer how nodes : String} {rules rule : Value} {s v : Session} {start p q r u : Conversation × Session} {before : List Value}

abbrev dialogueOf (p : Conversation × Session) : Dialogue := { conversation := p.1, service := p.2.service }

theorem GrowsTo.sends (grows : GrowsTo (afterRequest (model.tell text (dialogueOf p)) (.int 1)) (dialogueOf q)) : Sends p q text := by
  refine ⟨grows.said.messages, _, ?_, ?_, grows.asked⟩
  · simp [model, Conversation.user, Conversation.say]
  · simp [model, Conversation.user, Conversation.say]

theorem Sends.ne (sends : Sends p q text) : p ≠ q := by
  rintro rfl
  have longer := sends.said.length_le
  rw [length_append, length_singleton] at longer
  omega

theorem dialogueOf_talk {α : Type} (act : Dialogue → Except Failure α × Dialogue) (p : Conversation × Session) :
    dialogueOf ((talk act).run p).2 = (act (dialogueOf p)).2 := by
  rw [run_talk (Prod.eta (act (dialogueOf p))).symm]

theorem choices_state {result : Except Failure String} (found : (choices rule).run s = (result, v)) : v = s := by
  have kept := keeps_choices id rule s
  rw [found] at kept
  exact kept

theorem addFilter_grows (found : (choices rule).run u.2 = (.ok nodes, v)) (written : Toml.write rule = .ok text) :
    GrowsTo (afterRequest (model.tell (filterPrompt wish text nodes) (dialogueOf u)) (.int 1))
      (dialogueOf ((addFilter wish rule).run u).2) := by
  obtain rfl := choices_state found
  have told : (tell (filterPrompt wish text nodes)).run u = (.ok (), (u.1.user (filterPrompt wish text nodes), u.2)) := rfl
  unfold addFilter
  rw [run_bind_ok (run_aside found), run_bind_ok (run_liftExcept written), run_bind_ok told, view_bind dialogueOf]
  · exact answer_sends (filterPrompt wish text nodes) (dialogueOf u)
  · intro answer
    split
    · exact keeps_throw _
    · refine (keeps_lift _).bind fun new => ?_
      split
      · exact keeps_throw _
      · exact keeps_pure _

theorem addFilter_only_grows (written : Toml.write rule = .ok text) :
    GrowsTo (dialogueOf u) (dialogueOf ((addFilter wish rule).run u).2) := by
  generalize found : (choices rule).run u.2 = o
  obtain ⟨result, v⟩ := o
  cases result with
  | ok nodes => exact ((tell_grows _ _).trans (afterRequest_grows _ _)).trans (addFilter_grows found written)
  | error e =>
    obtain rfl := choices_state found
    unfold addFilter
    rw [run_bind_error (run_aside found)]
    exact .refl _

def pursue (wish : String) (rule : Value) (text : String) : ImproveM (Value × List String) := do
  let how ← talk (howToImprove model text)
  if how == "add filter" then
    let (new, explanation) ← addFilter wish rule
    return (new, [explanation])
  else return (rule, [])

theorem run_improveOne (written : Toml.write rule = .ok text) (decides : Decides wish text p answer q) :
    (improveOne wish rule).run p = (pursue wish rule text).run q := by
  unfold improveOne
  rw [run_bind_ok (run_liftExcept written), run_bind_ok decides]
  rfl

theorem run_pursue_filter (chosen : Chooses text q "add filter" u) :
    (pursue wish rule text).run q =
      (addFilter wish rule >>= fun added => pure (added.1, [added.2]) : ImproveM (Value × List String)).run u := by
  unfold pursue
  rw [run_bind_ok chosen]
  rfl

theorem run_pursue_other (chosen : Chooses text q how u) (other : how ≠ "add filter") :
    (pursue wish rule text).run q = (.ok (rule, []), u) := by
  unfold pursue
  rw [run_bind_ok chosen]
  simp only [beq_iff_eq, other, if_false]
  rfl

theorem pursue_sends (written : Toml.write rule = .ok text) (q : Conversation × Session) :
    Sends q ((pursue wish rule text).run q).2 (optionQuestion text) := by
  have asked := select_sends (optionQuestion text) improvements (dialogueOf q)
  change GrowsTo _ (howToImprove model text (dialogueOf q)).2 at asked
  rw [← dialogueOf_talk] at asked
  apply GrowsTo.sends
  generalize done : (talk (howToImprove model text)).run q = o at asked
  obtain ⟨result, u⟩ := o
  cases result with
  | error e =>
    unfold pursue
    rw [run_bind_error done]
    exact asked
  | ok how =>
    by_cases filter : how = "add filter"
    · subst filter
      rw [run_pursue_filter done, view_bind dialogueOf _ fun _ => keeps_pure _]
      exact asked.trans (addFilter_only_grows written)
    · rw [run_pursue_other done filter]
      exact asked

theorem run_mapM_at {α β : Type} {f : α → ImproveM β} {before after : List α} {a : α} {b : β} {done all : List β}
    (earlier : (before.mapM f).run start = (.ok done, p)) (here : (f a).run p = (.ok b, q))
    (whole : ((before ++ a :: after).mapM f).run start = (.ok all, r)) : all[before.length]? = some b := by
  have length : done.length = before.length := (run_mapM_cases earlier).length_eq.symm
  rw [mapM_append, run_bind_ok earlier, mapM_cons] at whole
  obtain ⟨late, _, rest, whole⟩ := run_bind_cases whole
  rw [run_bind_ok here] at rest
  obtain ⟨others, _, -, rest⟩ := run_bind_cases rest
  cases rest
  cases whole
  rw [← length, getElem?_append_right (Nat.le_refl _), Nat.sub_self]
  rfl

theorem pursue_filter_sends (written : Toml.write rule = .ok text) (chosen : Chooses text q "add filter" u)
    (found : (choices rule).run u.2 = (.ok nodes, v)) :
    Sends u ((pursue wish rule text).run q).2 (filterPrompt wish text nodes) := by
  apply GrowsTo.sends
  rw [run_pursue_filter chosen, view_bind dialogueOf _ fun _ => keeps_pure _]
  exact addFilter_grows found written

theorem pursue_stays_iff (chosen : Chooses text q how u) :
    (pursue wish rule text).run q = (.ok (rule, []), u) ↔ how ≠ "add filter" := by
  constructor
  · intro stays filter
    subst filter
    rw [run_pursue_filter chosen] at stays
    obtain ⟨added, _, -, ends⟩ := run_bind_cases stays
    cases ends
  · exact run_pursue_other chosen

theorem decides_mem (decides : Decides wish text p answer q) : answer = "yes" ∨ answer = "no" := by
  have done : (shouldImprove model wish text (dialogueOf p)).1 = .ok answer := by
    exact congrArg Prod.fst decides
  have listed : answer ∈ ["yes", "no"] := selectWithin_ok done
  simpa using listed

end Saying

def contentSession : Session :=
  { agent := { source := "a", target := "b", chat := some (answeredChat "done") }
    service := { replies := [.choices ["\x7b\"answer\": \"no\"\x7d"], .choices ["\x7b\"answer\": \"give up\"\x7d"]] } }

def contentRule : Value := .dict [("name", .str "r")]

def contentRules : Value := .dict [("rules", .list [contentRule])]

def contentStart : Conversation × Session := (answeredChat "done", contentSession)

def contentDecided : Conversation × Session := ((talk (shouldImprove model "wish" "name = \"r\"\n")).run contentStart).2

theorem contentSession_comes : ComesTo "wish" contentRules contentSession contentStart [] contentRule contentStart :=
  ⟨answeredChat "done", 0, [], [], rfl, by decide, .zero _, rfl, rfl⟩

theorem contentRule_written : Toml.write contentRule = .ok "name = \"r\"\n" := toOption_eq_some (by decide +kernel)

theorem contentSession_decides : Decides "wish" "name = \"r\"\n" contentStart "no" contentDecided := by
  have known : ((talk (shouldImprove model "wish" "name = \"r\"\n")).run contentStart).1.toOption = some "no" := by decide +kernel
  exact eq_of_fst (toOption_eq_some known)

end Rulewright.Agent
