import Rulewright.Proofs.Agent.Acceptance
import Rulewright.Proofs.Rule.Building

/-!
How inference ends. Turn after turn a conversation goes on: nobody answers, or the answer is refused and the model is told why. So ten
rounds end with rules or with the agent's own error, as long as every answer can be used: the table it suggests makes a graph with a
text. An answer that cannot be used ends the run with an error that nobody reports.
-/

open List

namespace Rulewright.Agent

open Chat
open Chat (Conversation Dialogue Service Reply)

def suggested? (answer : String) : Option Value :=
  match tomlMarks.blocks answer, markdownMarks.blocks answer with
  | block :: _, _ :: _ => (Toml.read (Text.strip (Text.replaceAll block "parenthesized_expression" "condition"))).toOption
  | _, _ => none

def IsUsableTable (table : Value) : Prop :=
  ∃ rules, table.lookup "rules" (.list []) = .ok rules ∧ (rules.isSomething = true → Graph.IsSound table)

def IsUsable (answer : String) : Prop := ∀ table, suggested? answer = some table → IsUsableTable table

def Accounted {α : Type} (x : AgentM α) (s : Session) : Prop :=
  (∃ a t, x.run s = (.ok a, t)) ∨ ∃ words t, x.run s = (.error (.agent words), t)

section Usable

variable {α β : Type} {x : AgentM α} {f : α → AgentM β} {s t : Session} {table : Value} {answer : String}

theorem accounted_pure (a : α) : Accounted (pure a) s := .inl ⟨a, s, rfl⟩

theorem accounted_throw (words : String) : Accounted (throw (.agent words) : AgentM α) s := .inr ⟨words, s, rfl⟩

theorem Accounted.bind (first : Accounted x s) (next : ∀ a t, x.run s = (.ok a, t) → Accounted (f a) t) : Accounted (x >>= f) s := by
  rcases first with ⟨a, t, done⟩ | ⟨words, t, failed⟩
  · rw [Accounted, run_bind_ok done]
    exact next a t done
  · exact .inr ⟨words, t, run_bind_error failed⟩

theorem run_handled {σ : Type} (y : ExceptT Failure (StateM σ) α) (g : Failure → α) (u : σ) :
    ∃ a v, (tryCatch y fun e => pure (g e)).run u = (.ok a, v) := by
  generalize tried : y.run u = o
  obtain ⟨r, v⟩ := o
  cases r with
  | ok a => exact ⟨a, v, run_tryCatch_ok tried⟩
  | error e => exact ⟨g e, v, run_tryCatch_error tried⟩

theorem runWithTimeout_cases (source language : Value) (graph : Graph) (engine : Engine.Script) :
    (∃ v engine', (Engine.runWithTimeout source language graph .null).run engine = (.ok v, engine')) ∨
      ∃ engine', (Engine.runWithTimeout source language graph .null).run engine = (.error .timeout, engine') := by
  unfold Engine.runWithTimeout
  rw [run_bind_ok run_get]
  split
  · exact .inr ⟨_, rfl⟩
  · left
    exact run_handled _ _ _

theorem run_usable (usable : IsUsableTable table) (s : Session) : Accounted (run table) s := by
  obtain ⟨rules, found, sound⟩ := usable
  unfold run
  rw [Accounted, run_bind_ok (run_liftExcept found)]
  cases something : rules.isSomething with
  | false => exact accounted_throw _
  | true =>
    obtain ⟨graph, text, made, printed⟩ := graph_ok_iff.mpr (sound something)
    simp only [Bool.not_true, Bool.false_eq_true, if_false]
    rw [run_bind_ok (run_liftExcept made), run_bind_ok (run_liftExcept printed), run_bind_ok run_get]
    refine Accounted.bind ?_ ?_
    · rcases runWithTimeout_cases (.str s.agent.source) s.agent.language graph s.engine with ⟨v, engine, used⟩ | ⟨engine, used⟩
      · exact .inl ⟨v, _, run_tryCatch_ok (run_withEngine used)⟩
      · exact .inr ⟨endlessWords, _, run_tryCatch_error (run_withEngine used)⟩
    · intro r t _
      obtain ⟨code, success⟩ := r
      cases success with
      | true => exact accounted_pure _
      | false => exact accounted_throw _

theorem run_unusable (unusable : ¬IsUsableTable table) : ∃ f, f.IsMismatch ∧ ∀ s, (run table).run s = (.error f, s) := by
  cases found : table.lookup "rules" (.list []) with
  | error f =>
    refine ⟨f, mismatch_lookup _ _ _ f found, ?_⟩
    intro s
    unfold run
    rw [found]
    exact run_bind_error rfl
  | ok rules =>
    have something : rules.isSomething := by
      rw [← Bool.not_eq_false]
      intro nothing
      exact unusable ⟨rules, found, fun wrong => by rw [nothing] at wrong; cases wrong⟩
    have unsound : ¬∃ g text, Graph.ofTable table = .ok g ∧ g.toml = .ok text := by
      rw [graph_ok_iff]
      intro sound
      exact unusable ⟨rules, found, fun _ => sound⟩
    cases made : Graph.ofTable table with
    | error f =>
      refine ⟨f, mismatch_graph _ f made, ?_⟩
      intro s
      unfold run
      rw [run_bind_ok (run_liftExcept found), something, made]
      exact run_bind_error rfl
    | ok graph =>
      cases printed : graph.toml with
      | ok text => exact absurd ⟨graph, text, made, printed⟩ unsound
      | error f =>
        refine ⟨f, mismatch_graphText _ f printed, ?_⟩
        intro s
        unfold run
        rw [run_bind_ok (run_liftExcept found), something, made]
        have failed : (liftExcept graph.toml : AgentM String).run s = (.error f, s) := by
          rw [printed]
          rfl
        exact (run_bind_ok (run_liftExcept rfl)).trans (run_bind_error failed)

theorem validate_usable (usable : IsUsable answer) (s : Session) : Accounted (validate answer) s := by
  unfold validate
  split
  · exact accounted_throw _
  · rename_i block others blocks
    split
    · exact accounted_throw _
    · rename_i explanation more explained
      dsimp only
      split
      · exact accounted_throw _
      · rename_i table read
        have known : suggested? answer = some table := by
          rw [suggested?, blocks, explained]
          exact congrArg Except.toOption read
        apply (run_usable (usable table known) s).bind
        intro code t _
        apply Accounted.bind (.inl ⟨t, t, run_get⟩)
        intro u v _
        split
        · exact (accounted_throw _).bind fun _ _ wrong => by cases wrong
        · split
          · exact (accounted_throw _).bind fun _ _ wrong => by cases wrong
          · exact accounted_pure _

theorem validate_unusable (unusable : ¬IsUsable answer) : ∃ f, f.IsMismatch ∧ ∀ s, (validate answer).run s = (.error f, s) := by
  unfold IsUsable at unusable
  push Not at unusable
  obtain ⟨table, known, wrong⟩ := unusable
  obtain ⟨f, own, failed⟩ := run_unusable wrong
  refine ⟨f, own, ?_⟩
  intro s
  unfold suggested? at known
  split at known
  · rename_i block others explanation more blocks explained
    have read := toOption_eq_some known
    simp only [validate, blocks, explained, read]
    exact run_bind_error (failed s)
  · cases known

end Usable

def answerIn? : Reply → Option String
  | .choices (text :: _) => some text
  | _ => none

def Talks (service : Service) : Prop := ∀ reply ∈ service.replies, reply = .busy ∨ (answerIn? reply).isSome = true

def lastAnswer? (c : Conversation) : Option String := (c.messages.getLast?.filter (·.role == "assistant")).map Chat.Message.content

def sayable (service : Service) (chats : List Conversation) : List String :=
  service.replies.filterMap answerIn? ++ chats.filterMap lastAnswer?

section Talking

variable {d : Dialogue} {s : Session} {c : Conversation}

theorem Talks.later {service later : Service} (talks : Talks service) (rest : later.replies <:+ service.replies) : Talks later :=
  fun reply inside => talks reply (rest.subset inside)

def Told (d : Dialogue) (result : Except Failure (List String) × Dialogue) : Prop :=
  ∃ e, e.service.replies <:+ d.service.replies ∧ e.conversation = d.conversation ∧
    ((∃ text more, result = (.ok (text :: more), e) ∧ text ∈ d.service.replies.filterMap answerIn?) ∨
      ∃ words, result = (.error (.chat words), e))

theorem completion_talks (talks : Talks d.service) (samples : Value) (tries : Nat) : Told d ((completion samples tries).run d) := by
  induction tries generalizing d with
  | zero => exact ⟨d, suffix_rfl, rfl, .inr ⟨_, rfl⟩⟩
  | succ tries ih =>
    have shorter : (afterRequest d samples).service.replies <:+ d.service.replies := drop_suffix _ _
    rw [completion, run_bind_ok (run_request samples d)]
    -- a service that is busy, or has nothing ready, is asked again
    have busy : Told d ((completion samples tries).run (afterRequest d samples)) := by
      obtain ⟨e, rest, same, outcome⟩ := ih (talks.later shorter)
      refine ⟨e, rest.trans shorter, same, outcome.imp_left ?_⟩
      rintro ⟨text, more, done, ready⟩
      exact ⟨text, more, done, (shorter.sublist.filterMap _).subset ready⟩
    cases ready : d.service.replies with
    | nil => exact busy
    | cons reply others =>
      rcases talks reply (by rw [ready]; exact mem_cons_self) with rfl | said
      · exact busy
      · obtain ⟨text, known⟩ := Option.isSome_iff_exists.mp said
        cases reply with
        | choices texts =>
          cases texts with
          | nil => cases known
          | cons first more =>
            cases known
            refine ⟨afterRequest d samples, shorter, rfl, .inl ⟨text, more, rfl, ?_⟩⟩
            simp [ready, answerIn?]
        | busy => cases known
        | broken words => cases known

theorem respond_talks (talks : Talks d.service) (begun : d.conversation.messages ≠ []) :
    ∃ e, e.service.replies <:+ d.service.replies ∧
      ((∃ answer, respond.run d = (.ok answer, e) ∧ answer ∈ sayable d.service [d.conversation]) ∨
        ∃ words, respond.run d = (.error (.chat words), e) ∧ e.conversation = d.conversation) := by
  obtain ⟨last, ends⟩ : ∃ last, d.conversation.messages.getLast? = some last := Option.isSome_iff_exists.mp (by simpa using begun)
  unfold respond
  rw [run_bind_ok run_get]
  simp only [ends]
  split
  · rename_i assistant
    refine ⟨d, suffix_rfl, .inl ⟨last.content, rfl, ?_⟩⟩
    apply mem_append_right
    simp [lastAnswer?, ends, Option.filter, assistant]
  · obtain ⟨e, rest, same, ⟨text, more, done, ready⟩ | ⟨words, failed⟩⟩ := completion_talks talks (.int 1) maxTries
    · rw [run_bind_ok done]
      exact ⟨{ e with conversation := e.conversation.assistant text }, rest, .inl ⟨text, rfl, mem_append_left _ ready⟩⟩
    · rw [run_bind_error failed]
      exact ⟨e, rest, .inr ⟨words, rfl, same⟩⟩

theorem run_converse (act : Chat.DialogueM String) (s : Session) (c : Conversation) :
    (converse c act).run s = (.ok ((act.run { conversation := c, service := s.service }).1,
      (act.run { conversation := c, service := s.service }).2.conversation),
      { s with service := (act.run { conversation := c, service := s.service }).2.service }) := rfl

def Hears (s : Session) (c : Conversation) (answer : String) (d : Conversation) (t : Session) : Prop :=
  (converse c respond).run s = (.ok (.ok answer, d), t)

def IsSilent (s : Session) (c : Conversation) (t : Session) : Prop :=
  ∃ words, (converse c respond).run s = (.ok (.error (.chat words), c), t)

theorem converse_talks (talks : Talks s.service) (begun : c.messages ≠ []) :
    ∃ t : Session, t.service.replies <:+ s.service.replies ∧
      ((∃ answer d, Hears s c answer d t ∧ answer ∈ sayable s.service [c]) ∨ IsSilent s c t) := by
  obtain ⟨e, rest, ⟨answer, said, ready⟩ | ⟨words, silent, same⟩⟩ :=
    respond_talks (d := { conversation := c, service := s.service }) talks begun
  · refine ⟨{ s with service := e.service }, rest, .inl ⟨answer, e.conversation, ?_, ready⟩⟩
    rw [Hears, run_converse, said]
  · refine ⟨{ s with service := e.service }, rest, .inr ⟨words, ?_⟩⟩
    rw [run_converse, silent, same]

end Talking

inductive GoesOn (s : Session) (c : Conversation) (t : Session) : Conversation → Prop
  | unanswered (silent : IsSilent s c t) : GoesOn s c t c
  | refused {answer words : String} {d : Conversation} {u : Session} (heard : Hears s c answer d u)
      (checked : (validate answer).run u = (.error (.agent words), t)) : GoesOn s c t (d.user words)

inductive RoundGoesOn : List Conversation → Session → List Conversation → Session → Prop
  | nil (s : Session) : RoundGoesOn [] s [] s
  | cons {c d : Conversation} {cs ds : List Conversation} {s t u : Session} (first : GoesOn s c t d) (others : RoundGoesOn cs t ds u) :
      RoundGoesOn (c :: cs) s (d :: ds) u

inductive RoundsGoOn : Nat → List Conversation → Session → List Conversation → Session → Prop
  | zero (cs : List Conversation) (s : Session) : RoundsGoOn 0 cs s cs s
  | succ {n : Nat} {cs ds es : List Conversation} {s t u : Session} (first : RoundGoesOn cs s ds t) (others : RoundsGoOn n ds t es u) :
      RoundsGoOn (n + 1) cs s es u

def Reaches (n : Nat) (chats : List Conversation) (s : Session) (c : Conversation) (u : Session) : Prop :=
  ∃ k cs t before between after, k < n ∧ RoundsGoOn k chats s cs t ∧ cs = before ++ c :: after ∧ RoundGoesOn before t between u

section Going

variable {s t u : Session} {c d : Conversation} {cs ds before between after chats : List Conversation} {n k : Nat} {rules answer : String} {f : Failure}

theorem GoesOn.run (goes : GoesOn s c t d) : (turn c).run s = (.ok (.next d), t) := by
  unfold turn
  cases goes with
  | unanswered silent =>
    obtain ⟨words, failed⟩ := silent
    rw [run_bind_ok failed]
    rfl
  | refused heard checked =>
    rw [run_bind_ok heard]
    dsimp only
    rw [run_bind_ok (run_lift checked)]
    rfl

theorem RoundGoesOn.run (goes : RoundGoesOn cs s ds t) : (round cs).run s = (.ok (.inr ds), t) := by
  induction goes with
  | nil s => rfl
  | cons first others ih =>
    unfold round
    rw [run_bind_ok first.run]
    dsimp only
    rw [run_bind_ok ih]
    rfl

theorem RoundsGoOn.run (goes : RoundsGoOn k cs s ds t) (n : Nat) : (rounds (k + n) cs).run s = (rounds n ds).run t := by
  induction goes with
  | zero cs s => rw [Nat.zero_add]
  | @succ k cs ds es s t u first others ih =>
    rw [Nat.succ_add, rounds, run_bind_ok first.run]
    exact ih

theorem round_stops {r : Except Failure String} (goes : RoundGoesOn before s between u) (stopped : (turn c).run u = (r.map .rules, t)) :
    (round (before ++ c :: after)).run s = (r.map .inl, t) := by
  induction goes with
  | nil s =>
    rw [nil_append, round]
    cases r with
    | ok rules => rw [run_bind_ok stopped]; rfl
    | error f => rw [run_bind_error stopped]; rfl
  | cons first others ih =>
    rw [cons_append, round, run_bind_ok first.run]
    dsimp only
    cases r with
    | ok rules => rw [run_bind_ok (ih stopped)]; rfl
    | error f => rw [run_bind_error (ih stopped)]; rfl

theorem Reaches.stops {r : Except Failure String} (reached : Reaches n chats s c u) (stopped : (turn c).run u = (r.map .rules, t)) :
    (rounds n chats).run s = (r, t) := by
  obtain ⟨k, cs, v, before, between, after, less, earlier, rfl, goes⟩ := reached
  obtain ⟨m, rfl⟩ : ∃ m, n = k + (m + 1) := ⟨n - k - 1, by omega⟩
  rw [earlier.run, rounds]
  cases r with
  | ok rules =>
    rw [run_bind_ok (round_stops goes stopped)]
    rfl
  | error f => rw [run_bind_error (round_stops goes stopped)]

theorem turn_mismatch (heard : Hears u c answer d t) (unusable : ¬IsUsable answer) :
    ∃ f, f.IsMismatch ∧ (turn c).run u = (.error f, t) := by
  obtain ⟨f, mismatch, failed⟩ := validate_unusable unusable
  refine ⟨f, mismatch, ?_⟩
  unfold turn
  rw [run_bind_ok heard]
  dsimp only
  rw [run_bind_ok (run_lift (failed t))]
  cases f with
  | agent words => exact mismatch.elim
  | chat words => exact mismatch.elim
  | _ => rfl

def Stops (u : Session) (c : Conversation) : Prop := ∀ d t, ¬GoesOn u c t d

theorem round_goes_or_stops (cs : List Conversation) (s : Session) :
    (∃ ds t, RoundGoesOn cs s ds t) ∨ ∃ before between c after u, cs = before ++ c :: after ∧ RoundGoesOn before s between u ∧ Stops u c := by
  induction cs generalizing s with
  | nil => exact .inl ⟨[], s, .nil s⟩
  | cons c cs ih =>
    by_cases goes : ∃ d t, GoesOn s c t d
    · obtain ⟨d, t, goes⟩ := goes
      rcases ih t with ⟨ds, u, others⟩ | ⟨before, between, e, after, u, rfl, others, stops⟩
      · exact .inl ⟨d :: ds, u, .cons goes others⟩
      · exact .inr ⟨c :: before, d :: between, e, after, u, rfl, .cons goes others, stops⟩
    · exact .inr ⟨[], [], c, cs, s, rfl, .nil s, fun d t next => goes ⟨d, t, next⟩⟩

theorem Reaches.succ (first : RoundGoesOn cs s ds t) (reached : Reaches n ds t c u) : Reaches (n + 1) cs s c u := by
  obtain ⟨k, es, v, before, between, after, less, earlier, same, goes⟩ := reached
  exact ⟨k + 1, es, v, before, between, after, by omega, .succ first earlier, same, goes⟩

theorem rounds_go_or_stop (n : Nat) (chats : List Conversation) (s : Session) :
    (∃ ds t, RoundsGoOn n chats s ds t) ∨ ∃ c u, Reaches n chats s c u ∧ Stops u c := by
  induction n generalizing s chats with
  | zero => exact .inl ⟨chats, s, .zero chats s⟩
  | succ n ih =>
    rcases round_goes_or_stops chats s with ⟨ds, t, first⟩ | ⟨before, between, c, after, u, whole, goes, stops⟩
    · rcases ih ds t with ⟨es, v, others⟩ | ⟨c, u, reached, stops⟩
      · exact .inl ⟨es, v, .succ first others⟩
      · exact .inr ⟨c, u, reached.succ first, stops⟩
    · exact .inr ⟨c, u, ⟨0, chats, s, before, between, after, Nat.succ_pos n, .zero chats s, whole, goes⟩, stops⟩

end Going

structure Ready (s : Session) (chats : List Conversation) : Prop where
  talks : Talks s.service
  begun : ∀ c ∈ chats, c.messages ≠ []

def Ends (u : Session) (c : Conversation) : Prop :=
  (∃ rules t, (turn c).run u = (.ok (.rules rules), t)) ∨ ∃ answer d t, Hears u c answer d t ∧ ¬IsUsable answer

section Runs

variable {s t u t' : Session} {c d d' : Conversation} {cs ds chats : List Conversation} {n : Nat} {answer answer' : String}

theorem hears_eq (heard : Hears s c answer d t) (also : Hears s c answer' d' t') :
    answer' = answer := by
  rw [Hears, heard] at also
  cases also
  rfl

theorem GoesOn.replies (talks : Talks s.service) (begun : c.messages ≠ []) (goes : GoesOn s c t d) :
    t.service.replies <:+ s.service.replies := by
  have rest : ((converse c respond).run s).2.service.replies <:+ s.service.replies := by
    obtain ⟨v, rest, ⟨answer, d, heard, -⟩ | ⟨words, silent⟩⟩ := converse_talks talks begun
    · rwa [heard]
    · rwa [silent]
  cases goes with
  | unanswered silent =>
    obtain ⟨words, failed⟩ := silent
    rwa [failed] at rest
  | @refused answer words d u heard checked =>
    rw [heard] at rest
    have same : ((validate answer).run u).2.service = u.service := keeps_validate (fun s => s.service) (fun _ _ => rfl) answer u
    rw [checked] at same
    rwa [same]

theorem GoesOn.begun (begun : c.messages ≠ []) (goes : GoesOn s c t d) : d.messages ≠ [] := by
  cases goes with
  | unanswered silent => exact begun
  | refused heard checked => simp [Conversation.user, Conversation.say]

theorem GoesOn.lastAnswer (goes : GoesOn s c t d) : lastAnswer? d = none ∨ d = c := by
  cases goes with
  | unanswered silent => exact .inr rfl
  | refused heard checked =>
    left
    simp [lastAnswer?, Conversation.user, Conversation.say, Option.filter]

def Heeds (s : Session) (c : Conversation) : Prop := (∃ t, IsSilent s c t) ∨ ∃ answer d t, Hears s c answer d t ∧ IsUsable answer

theorem turn_heeded (heeds : Heeds s c) : (∃ d t, GoesOn s c t d) ∨ ∃ rules t, (turn c).run s = (.ok (.rules rules), t) := by
  rcases heeds with ⟨t, silent⟩ | ⟨answer, d, u, heard, usable⟩
  · exact .inl ⟨c, t, .unanswered silent⟩
  · rcases validate_usable usable u with ⟨verdict, t, checked⟩ | ⟨words, t, checked⟩
    · refine .inr ⟨verdict.rules, { t with agent := { t.agent with chat := some d, explanation := .str verdict.explanation } }, ?_⟩
      unfold turn
      rw [run_bind_ok heard]
      dsimp only
      rw [run_bind_ok (run_lift checked)]
      rfl
    · exact .inl ⟨_, t, .refused heard checked⟩

theorem turn_total (talks : Talks s.service) (begun : c.messages ≠ []) : (∃ d t, GoesOn s c t d) ∨ Ends s c := by
  obtain ⟨u, rest, ⟨answer, d, heard, -⟩ | silent⟩ := converse_talks talks begun
  · by_cases usable : IsUsable answer
    · exact (turn_heeded (.inr ⟨answer, d, u, heard, usable⟩)).imp_right .inl
    · exact .inr (.inr ⟨answer, d, u, heard, usable⟩)
  · exact .inl ⟨c, u, .unanswered silent⟩

theorem Ready.turn (ready : Ready s (c :: cs)) (goes : GoesOn s c t d) : Ready t cs :=
  ⟨ready.talks.later (goes.replies ready.talks (ready.begun c mem_cons_self)), fun c inside => ready.begun c (mem_cons_of_mem _ inside)⟩

def Readied (s : Session) (cs : List Conversation) (t : Session) (ds : List Conversation) : Prop :=
  Ready t ds ∧ t.service.replies <:+ s.service.replies ∧ ds.filterMap lastAnswer? ⊆ cs.filterMap lastAnswer?

theorem RoundGoesOn.ready (ready : Ready s cs) (goes : RoundGoesOn cs s ds t) : Readied s cs t ds := by
  induction goes with
  | nil s => exact ⟨ready, suffix_rfl, Subset.refl _⟩
  | @cons c d cs ds s t u first others ih =>
    have begun := ready.begun c mem_cons_self
    obtain ⟨later, shorter, known⟩ := ih (ready.turn first)
    refine ⟨⟨later.talks, ?_⟩, shorter.trans (first.replies ready.talks begun), ?_⟩
    · intro e inside
      rcases mem_cons.mp inside with rfl | inside
      · exact first.begun begun
      · exact later.begun e inside
    · -- after a refused answer the conversation ends with the reason, which is no answer
      rcases first.lastAnswer with none | rfl
      · rw [filterMap_cons_none none, filterMap_cons]
        split
        · exact known
        · exact subset_cons_of_subset _ known
      · rw [filterMap_cons, filterMap_cons]
        split
        · exact known
        · exact cons_subset_cons _ known

theorem RoundsGoOn.ready (ready : Ready s cs) (goes : RoundsGoOn n cs s ds t) : Readied s cs t ds := by
  induction goes with
  | zero cs s => exact ⟨ready, suffix_rfl, Subset.refl _⟩
  | succ first others ih =>
    obtain ⟨next, shorter, known⟩ := first.ready ready
    obtain ⟨last, shorter', known'⟩ := ih next
    exact ⟨last, shorter'.trans shorter, Subset.trans known' known⟩

theorem Reaches.ready (ready : Ready s chats) (reached : Reaches n chats s c u) :
    Talks u.service ∧ c.messages ≠ [] ∧ u.service.replies <:+ s.service.replies ∧
      ∀ text, lastAnswer? c = some text → text ∈ chats.filterMap lastAnswer? := by
  obtain ⟨k, cs, v, before, between, after, -, earlier, rfl, goes⟩ := reached
  obtain ⟨next, shorter, known⟩ := earlier.ready ready
  have front : Ready v before := ⟨next.talks, fun c inside => next.begun c (mem_append_left _ inside)⟩
  obtain ⟨later, shorter', -⟩ := goes.ready front
  have inside : c ∈ before ++ c :: after := mem_append_right _ mem_cons_self
  exact ⟨later.talks, next.begun c inside, shorter'.trans shorter, fun text ends => known (mem_filterMap.mpr ⟨c, inside, ends⟩)⟩

theorem rounds_total (ready : Ready s chats) (n : Nat) :
    (∃ ds t, RoundsGoOn n chats s ds t) ∨ ∃ c u, Reaches n chats s c u ∧ Ends u c := by
  rcases rounds_go_or_stop n chats s with goes | ⟨c, u, reached, stops⟩
  · exact .inl goes
  · obtain ⟨talks, begun, -⟩ := reached.ready ready
    rcases turn_total talks begun with ⟨d, t, goes⟩ | ends
    · exact absurd goes (stops d t)
    · exact .inr ⟨c, u, reached, ends⟩

theorem Reaches.sayable (ready : Ready s chats) (reached : Reaches n chats s c u) (heard : Hears u c answer d t) :
    answer ∈ Agent.sayable s.service chats := by
  obtain ⟨talks, begun, shorter, known⟩ := reached.ready ready
  obtain ⟨w, -, ⟨answer', e, heard', said⟩ | ⟨words, silent⟩⟩ := converse_talks talks begun
  · obtain rfl := hears_eq heard heard'
    rcases mem_append.mp said with ready | last
    · exact mem_append_left _ ((shorter.sublist.filterMap _).subset ready)
    · obtain ⟨_, only, ends⟩ := mem_filterMap.mp last
      rw [mem_singleton.mp only] at ends
      exact mem_append_right _ (known answer' ends)
  · rw [Hears, silent] at heard
    cases heard

end Runs

def exhaustedWords : String := "Failed to generate a rule after 10 rounds of interaction with GPT-4."

def Returns (chats : List Conversation) (s : Session) : Prop :=
  ∃ c u rules t, Reaches 10 chats s c u ∧ (turn c).run u = (.ok (.rules rules), t) ∧ (rounds 10 chats).run s = (.ok rules, t)

def GivesUp (chats : List Conversation) (s : Session) : Prop :=
  ∃ ds t, RoundsGoOn 10 chats s ds t ∧ (rounds 10 chats).run s = (.error (.agent exhaustedWords), t)

theorem suggestingSession_usable : ∀ answer ∈ sayable suggestingSession.service suggestingChats, IsUsable answer := by
  have named (name : String) : IsUsableTable (.dict [("rules", .list [.dict [("name", .str name)]])]) := by
    refine ⟨_, rfl, fun _ => ⟨_, rfl, ⟨_, _, rfl, rfl, ?_⟩, [], rfl, by simp⟩⟩
    intro item inside
    rw [mem_singleton] at inside
    subst inside
    exact ⟨_, rfl, rfl, rfl, rfl, [], rfl, by simp⟩
  have said : sayable suggestingSession.service suggestingChats =
      ["```toml\n[[rules]]\nname = \"second\"\n```\n```md\nworks\n```", "```toml\n[[rules]]\nname = \"first\"\n```\n```md\nfails\n```"] := by
    decide +kernel
  have second : suggested? "```toml\n[[rules]]\nname = \"second\"\n```\n```md\nworks\n```" =
      some (.dict [("rules", .list [.dict [("name", .str "second")]])]) := by decide +kernel
  have first : suggested? "```toml\n[[rules]]\nname = \"first\"\n```\n```md\nfails\n```" =
      some (.dict [("rules", .list [.dict [("name", .str "first")]])]) := by decide +kernel
  rw [said]
  intro answer inside table known
  rcases mem_cons.mp inside with rfl | inside
  · rw [second] at known
    cases known
    exact named _
  · rw [mem_singleton] at inside
    subst inside
    rw [first] at known
    cases known
    exact named _

def failure? {α : Type} : Except Failure α → Option (Bool × String)
  | .ok _ => none
  | .error f => some (f.isReported, f.words)

def bareSession : Session := { agent := { source := "a", target := "b" } }

def answeredChat (answer : String) : Conversation := { messages := [⟨"assistant", answer⟩], model := defaultModel }

def namelessChat : Conversation := answeredChat "```toml\n[[rules]]\nquery = \"(identifier) @x\"\n```\n```md\nfinds names\n```"

def groupedChat : Conversation := answeredChat "```toml\n[[rules]]\nname = \"r\"\ngroups = [\"g\"]\n```\n```md\nfinds names\n```"

theorem not_ends_of_unreported {s : Session} {chats : List Conversation} {words : String}
    (failed : failure? ((rounds 10 chats).run s).1 = some (false, words)) : ¬(Returns chats s ∨ GivesUp chats s) := by
  rintro (⟨_, _, rules, t, -, -, done⟩ | ⟨_, t, -, done⟩)
  · rw [done] at failed
    cases failed
  · rw [done] at failed
    cases failed

end Rulewright.Agent
