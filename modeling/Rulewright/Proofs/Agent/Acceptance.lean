import Rulewright.Agent.Infer
import Rulewright.Proofs.Runs

/-!
Rules that an agent accepts. A round asks each conversation in turn, and a suggestion is taken only if the engine turns the
source of the example into its target with it (`accepted_rules_are_checked`). Until then the agent stays as it is and every
conversation only grows.
-/

open List

namespace Rulewright.Agent

open Text Chat
open Chat (Conversation Dialogue)

structure Marks.Cuts (m : Marks) (text front body back : List Char) : Prop where
  whole : text = front ++ (m.opening ++ (body ++ (m.closing ++ back)))
  allowed : m.notBefore = [] ∨ ¬m.notBefore <+: body ++ (m.closing ++ back)
  nearest : ∀ body' back', body ++ (m.closing ++ back) = body' ++ (m.closing ++ back') → body.length ≤ body'.length

def Marks.First (m : Marks) (text body : List Char) : Prop :=
  ∃ front back, m.Cuts text front body back ∧
    ∀ front' body' back', m.Cuts text front' body' back' → front.length ≤ front'.length

section Blocks

variable {sep cs front back rest : List Char} {m : Marks}

theorem cutOnce_some (cut : cutOnce sep cs = some (front, back)) :
    cs = front ++ (sep ++ back) ∧ ∀ front' back', cs = front' ++ (sep ++ back') → front.length ≤ front'.length := by
  induction cs generalizing front with
  | nil =>
    unfold cutOnce at cut
    split at cut
    · rename_i empty
      cases cut
      exact ⟨by simp [List.isEmpty_iff.mp empty], fun _ _ _ => Nat.zero_le _⟩
    · cases cut
  | cons c rest ih =>
    unfold cutOnce at cut
    split at cut
    · rename_i here
      cases cut
      obtain ⟨tail, whole⟩ := isPrefixOf_iff_prefix.mp here
      refine ⟨?_, fun _ _ _ => Nat.zero_le _⟩
      rw [← whole, drop_left, nil_append]
    · rename_i elsewhere
      obtain ⟨⟨front, back⟩, later, same⟩ := Option.map_eq_some_iff.mp cut
      cases same
      obtain ⟨whole, nearest⟩ := ih later
      refine ⟨by rw [whole]; rfl, fun front' back' other => ?_⟩
      cases front' with
      | nil => exact absurd ( isPrefixOf_iff_prefix.mpr ⟨back', other.symm⟩) elsewhere
      | cons d front' =>
        have := nearest front' back' (List.cons.inj other).2
        simpa using this

theorem cutOnce_none (uncut : cutOnce sep cs = none) (front back : List Char) : cs ≠ front ++ (sep ++ back) := by
  induction cs generalizing front with
  | nil =>
    unfold cutOnce at uncut
    split at uncut
    · cases uncut
    · rename_i some
      intro whole
      have empty := append_eq_nil_iff.mp (append_eq_nil_iff.mp whole.symm).2
      exact some (List.isEmpty_iff.mpr empty.1)
  | cons c rest ih =>
    unfold cutOnce at uncut
    split at uncut
    · cases uncut
    · rename_i elsewhere
      intro whole
      cases front with
      | nil => exact elsewhere ( isPrefixOf_iff_prefix.mpr ⟨back, whole.symm⟩)
      | cons d front => exact ih (Option.map_eq_none_iff.mp uncut) front (List.cons.inj whole).2

theorem after?_iff :
    m.after? cs = some rest ↔ cs = m.opening ++ rest ∧ (m.notBefore = [] ∨ ¬m.notBefore <+: rest) := by
  unfold Marks.after?
  constructor
  · intro found
    split at found
    · rename_i here
      obtain ⟨tail, rfl⟩ := isPrefixOf_iff_prefix.mp here
      rw [drop_left] at found
      dsimp only at found
      split at found
      · cases found
      · rename_i allowed
        cases found
        refine ⟨rfl, ?_⟩
        by_cases free : m.notBefore = []
        · exact .inl free
        · exact .inr fun forbidden => allowed (by simp [free, forbidden])
    · cases found
  · rintro ⟨rfl, allowed⟩
    rcases allowed with free | allowed <;> simp_all

theorem cuts_here (body back : List Char) :
    m.Cuts cs [] body back ↔ (m.after? cs).bind (cutOnce m.closing) = some (body, back) := by
  rw [Option.bind_eq_some_iff]
  constructor
  · rintro ⟨whole, allowed, nearest⟩
    refine ⟨body ++ (m.closing ++ back), after?_iff.mpr ⟨by simpa using whole, allowed⟩, ?_⟩
    cases cut : cutOnce m.closing (body ++ (m.closing ++ back)) with
    | none => exact absurd rfl (cutOnce_none cut body back)
    | some e =>
      obtain ⟨body', back'⟩ := e
      obtain ⟨same, first⟩ := cutOnce_some cut
      have length := Nat.le_antisymm (nearest body' back' same) (first body back rfl)
      obtain ⟨rfl, tails⟩ := append_inj same length
      rw [append_cancel_left tails]
  · rintro ⟨rest, found, cut⟩
    obtain ⟨rfl, allowed⟩ := after?_iff.mp found
    obtain ⟨rfl, first⟩ := cutOnce_some cut
    exact ⟨by simp, allowed, first⟩

theorem blocksFrom_first {fuel : Nat} {block : String} {others : List String}
    (found : m.blocksFrom fuel cs = block :: others) : m.First cs block.toList := by
  induction fuel generalizing cs with
  | zero => cases found
  | succ fuel ih =>
    cases cs with
    | nil => cases found
    | cons c rest =>
      rw [Marks.blocksFrom] at found
      split at found
      · rename_i body back here
        cases found
        rw [String.toList_ofList]
        exact ⟨[], back, (cuts_here body back).mpr here, fun _ _ _ _ => Nat.zero_le _⟩
      · rename_i elsewhere
        obtain ⟨front, back, ⟨whole, allowed, nearest⟩, least⟩ := ih found
        refine ⟨c :: front, back, ⟨by rw [whole]; rfl, allowed, nearest⟩, fun front' body' back' cuts => ?_⟩
        cases front' with
        | nil =>
          rw [(cuts_here body' back').mp cuts] at elsewhere
          cases elsewhere
        | cons d front' =>
          have := least front' body' back' ⟨(List.cons.inj cuts.whole).2, cuts.allowed, cuts.nearest⟩
          simpa using this

end Blocks

structure Continues (c d : Conversation) : Prop where
  messages : c.messages <+: d.messages
  model : d.model = c.model

def Answers (d : Conversation) (answer : String) : Prop := d.messages.getLast? = some ⟨"assistant", answer⟩

theorem Continues.refl (c : Conversation) : Continues c c := ⟨prefix_rfl, rfl⟩

theorem Continues.trans {c d e : Conversation} (first : Continues c d) (second : Continues d e) : Continues c e :=
  ⟨first.messages.trans second.messages, second.model.trans first.model⟩

theorem Continues.say (c : Conversation) (role content : String) : Continues c (c.say role content) :=
  ⟨prefix_append _ _, rfl⟩

def afterRequest (d : Dialogue) (samples : Value) : Dialogue :=
  { d with service := {
      replies := d.service.replies.drop 1
      asked := d.service.asked ++ [{
        model := d.conversation.model, samples, messages := d.conversation.messages.length
        last := (d.conversation.messages.getLast?.map Chat.Message.content).getD "" }] } }

theorem run_request (samples : Value) (d : Dialogue) :
    (request samples).run d = (.ok (d.service.replies.head?.getD .busy), afterRequest d samples) := rfl

theorem completion_conversation (samples : Value) (tries : Nat) (d : Dialogue) :
    ((completion samples tries).run d).2.conversation = d.conversation := by
  induction tries generalizing d with
  | zero => rfl
  | succ tries ih =>
    rw [completion, run_bind_ok (run_request samples d)]
    cases d.service.replies.head?.getD .busy with
    | choices texts => rfl
    | busy => exact ih _
    | broken words => rfl

theorem completion_error {samples : Value} {tries : Nat} {d e : Dialogue} {f : Failure}
    (failed : (completion samples tries).run d = (.error f, e)) : (∃ words, f = .chat words) ∨ ∃ words, f = .external words := by
  induction tries generalizing d with
  | zero =>
    cases failed
    exact .inl ⟨_, rfl⟩
  | succ tries ih =>
    rw [completion, run_bind_ok (run_request samples d)] at failed
    cases said : d.service.replies.head?.getD .busy <;> rw [said] at failed
    case choices texts => cases failed
    case busy => exact ih failed
    case broken words =>
      cases failed
      exact .inr ⟨words, rfl⟩

theorem respond_cases (d : Dialogue) :
    (∃ text, Answers d.conversation text ∧ respond.run d = (.ok text, d)) ∨
      (∃ text e, (∀ last, d.conversation.messages.getLast? = some last → last.role ≠ "assistant") ∧
        e.conversation = d.conversation.assistant text ∧ respond.run d = (.ok text, e)) ∨
      ∃ f e, ((∃ words, f = .chat words) ∨ (∃ words, f = .external words) ∨ f = .outOfRange .list) ∧
        e.conversation = d.conversation ∧ respond.run d = (.error f, e) := by
  unfold respond
  rw [run_bind_ok run_get]
  cases ends : d.conversation.messages.getLast? with
  | none => exact .inr (.inr ⟨_, d, .inr (.inr rfl), rfl, rfl⟩)
  | some last =>
    dsimp only
    split
    · rename_i assistant
      refine .inl ⟨last.content, ?_, rfl⟩
      rw [Answers, ends, ← show last.role = "assistant" by simpa using assistant]
    · rename_i other
      have kept := completion_conversation (.int 1) maxTries d
      generalize asked : (completion (.int 1) maxTries).run d = o at kept
      obtain ⟨texts, between⟩ := o
      cases texts with
      | error f =>
        rw [run_bind_error asked]
        exact .inr (.inr ⟨f, between, (completion_error asked).imp_right .inl, kept, rfl⟩)
      | ok texts =>
        rw [run_bind_ok asked]
        cases texts with
        | nil => exact .inr (.inr ⟨_, between, .inr (.inr rfl), kept, rfl⟩)
        | cons text others =>
          refine .inr (.inl ⟨text, { between with conversation := between.conversation.assistant text }, ?_, by rw [kept], rfl⟩)
          intro message same
          cases same
          simpa using other

theorem respond_run {d e : Dialogue} {r : Except Failure String} (run : respond.run d = (r, e)) :
    Continues d.conversation e.conversation ∧ ∀ answer, r = .ok answer → Answers e.conversation answer := by
  rcases respond_cases d with ⟨text, answered, done⟩ | ⟨text, e', -, added, done⟩ | ⟨f, e', -, same, done⟩
  · rw [done] at run
    cases run
    refine ⟨.refl _, fun answer known => ?_⟩
    cases known
    exact answered
  · rw [done] at run
    cases run
    refine ⟨added ▸ .say _ _ _, fun answer known => ?_⟩
    cases known
    simp [Answers, added, Conversation.assistant, Conversation.say]
  · rw [done] at run
    cases run
    exact ⟨same ▸ .refl _, fun _ known => by cases known⟩

def KeepsAgent {α : Type} (x : AgentM α) : Prop := ∀ s, (x.run s).2.agent = s.agent

section Keeps

variable {γ : Type} (view : Session → γ)

theorem keeps_run (apart : ∀ s engine, view { s with engine } = view s) (table : Value) : Keeps view (run table) := by
  have used {α : Type} (act : Engine.EngineM α) : Keeps view (withEngine act) := fun s => apart s _
  refine (keeps_lift _).bind fun rules => ?_
  refine .ite ((keeps_throw _).bind fun _ => ?_) ?_ <;>
  · refine (keeps_lift _).bind fun graph => (keeps_lift _).bind fun _ => keeps_get.bind fun s => ?_
    refine ((used _).tryCatch fun f => ?_).bind fun r => .ite (keeps_pure _) (keeps_throw _)
    split <;> exact keeps_throw _

theorem keeps_validate (apart : ∀ s engine, view { s with engine } = view s) (answer : String) : Keeps view (validate answer) := by
  unfold validate
  split
  · exact keeps_throw _
  · split
    · exact keeps_throw _
    · dsimp only
      split
      · exact keeps_throw _
      · refine (keeps_run view apart _).bind fun code => keeps_get.bind fun s => ?_
        refine .ite ((keeps_throw _).bind fun _ => ?_) ?_ <;>
        · exact .ite ((keeps_throw _).bind fun _ => keeps_pure _) (keeps_pure _)

theorem keepsAgent_run (table : Value) : KeepsAgent (run table) := keeps_run (fun s => s.agent) (fun _ _ => rfl) table

theorem keepsAgent_validate (answer : String) : KeepsAgent (validate answer) := keeps_validate (fun s => s.agent) (fun _ _ => rfl) answer

end Keeps

section Checked

variable {s t : Session} {table : Value} {answer source code : String} {engine : Engine.Script}

theorem run_withEngine {α : Type} {act : Engine.EngineM α} {r : Except Failure α}
    (done : act.run s.engine = (r, engine)) : (withEngine act).run s = (r, { s with engine }) := by
  have known : act s.engine = (r, engine) := done
  unfold withEngine
  rw [run_bind_ok run_get]
  simp only [ExceptT.run, known]
  rfl

def trial (source : String) (language : Value) (program : Engine.Graph) : Engine.Arguments :=
  { input := .snippet (.str source), language, program := .graph program, dryRun := some (.bool true)
    substitutions := some .null }

theorem runWithTimeout_ok {language v : Value} {graph : Graph} {engine' : Engine.Script}
    (done : (Engine.runWithTimeout (.str source) language graph .null).run engine = (.ok (v, true), engine')) :
    ∃ code program, v = .str code ∧ graph.engine = .ok program ∧
      engine'.calls = engine.calls ++ [trial source language program] := by
  unfold Engine.runWithTimeout at done
  rw [run_bind_ok run_get] at done
  split at done
  · cases done
  · rcases run_tryCatch_cases done with first | ⟨f, between, -, handled⟩
    · obtain ⟨program, _, lifted, second⟩ := run_bind_cases first
      obtain ⟨known, rfl⟩ := run_liftExcept_cases lifted
      obtain ⟨outcome, between, called, last⟩ := run_bind_cases second
      have calls : between.calls = engine.calls ++ [trial source language program] := by
        unfold Engine.execute at called
        rw [run_bind_ok run_get] at called
        split at called <;> cases called <;> rfl
      cases summaries : outcome.summaries with
      | nil =>
        rw [summaries] at last
        cases last
        exact ⟨source, program, rfl, known, calls⟩
      | cons summary others =>
        rw [summaries] at last
        cases last
        exact ⟨summary.content, program, rfl, known, calls⟩
    · cases handled

theorem run_ok (done : (run table).run s = (.ok code, t)) :
    ∃ rules graph, table.field? "rules" = some rules ∧ rules.isSomething ∧ Graph.ofTable table = .ok graph ∧
      (Engine.runWithTimeout (.str s.agent.source) s.agent.language graph .null).run s.engine =
        (.ok (.str code, true), t.engine) := by
  obtain ⟨rules, _, looked, rest⟩ := run_bind_cases done
  obtain ⟨found, rfl⟩ := run_liftExcept_cases looked
  cases something : rules.isSomething with
  | false =>
    rw [something] at rest
    cases rest
  | true =>
    rw [something] at rest
    have listed : table.field? "rules" = some rules := by
      cases table with
      | dict entries =>
        cases entry : Entries.get? "rules" entries with
        | none =>
          rw [Value.lookup, entry] at found
          cases found
          cases something
        | some v =>
          rw [Value.lookup, entry] at found
          cases found
          exact entry
      | _ => cases found
    obtain ⟨graph, _, lifted, rest⟩ := run_bind_cases rest
    obtain ⟨made, rfl⟩ := run_liftExcept_cases lifted
    obtain ⟨_, _, written, rest⟩ := run_bind_cases rest
    obtain ⟨-, rfl⟩ := run_liftExcept_cases written
    rw [run_bind_ok run_get] at rest
    generalize used : (Engine.runWithTimeout (.str s.agent.source) s.agent.language graph .null).run s.engine = o
    obtain ⟨r, engine⟩ := o
    have called := run_withEngine used
    cases r with
    | error f =>
      -- whatever the engine's failure is, a failure stays
      obtain ⟨_, _, caught, -⟩ := run_bind_cases rest
      rw [run_tryCatch_error called] at caught
      split at caught <;> cases caught
    | ok r =>
      obtain ⟨v, success⟩ := r
      rw [run_bind_ok (run_tryCatch_ok called)] at rest
      cases success with
      | false => cases rest
      | true =>
        obtain ⟨shown, -, rfl, -⟩ := runWithTimeout_ok used
        cases rest
        exact ⟨rules, graph, listed, something, made, used⟩

end Checked

structure Passes (agent : State) (answer rules explanation : String) (before after : Engine.Script) : Prop where
  block : ∃ block : String, tomlMarks.First answer.toList block.toList ∧
    rules = strip (replaceAll block "parenthesized_expression" "condition")
  explained : markdownMarks.First answer.toList explanation.toList
  works : ∃ table listed graph program code, Toml.read rules = .ok table ∧ table.field? "rules" = some listed ∧
    listed.isSomething = true ∧ Graph.ofTable table = .ok graph ∧ graph.engine = .ok program ∧
    (Engine.runWithTimeout (.str agent.source) agent.language graph .null).run before = (.ok (.str code, true), after) ∧
    after.calls = before.calls ++ [trial agent.source agent.language program] ∧ code ≠ "" ∧
    withoutBlanks code = withoutBlanks agent.target

theorem validate_ok {s t : Session} {answer : String} {v : Verdict} (done : (validate answer).run s = (.ok v, t)) :
    Passes s.agent answer v.rules v.explanation s.engine t.engine := by
  unfold validate at done
  split at done
  · cases done
  · rename_i block others blocks
    split at done
    · cases done
    · rename_i explanation more explanations
      dsimp only at done
      split at done
      · cases done
      · rename_i table read
        obtain ⟨code, between, ran, rest⟩ := run_bind_cases done
        obtain ⟨listed, graph, found, something, made, used⟩ := run_ok ran
        obtain ⟨shown, program, same, known, calls⟩ := runWithTimeout_ok used
        rw [run_bind_ok run_get] at rest
        have target : between.agent.target = s.agent.target := by
          have := keepsAgent_run table s
          rw [ran] at this
          rw [this]
        cases empty : code.isEmpty with
        | true =>
          rw [empty] at rest
          cases rest
        | false =>
          rw [empty] at rest
          cases differ : (withoutBlanks code != withoutBlanks between.agent.target) with
          | true =>
            rw [differ] at rest
            cases rest
          | false =>
            rw [differ] at rest
            cases rest
            refine ⟨⟨block, blocksFrom_first blocks, rfl⟩, blocksFrom_first explanations,
              table, listed, graph, program, code, read, found, something, made, known, used, calls, ?_, ?_⟩
            · rintro rfl
              cases empty
            · rw [← target]
              simpa using differ

def Accepts (agent : State) (c : Conversation) (rules : String) (t : Session) : Prop :=
  ∃ d answer explanation before, Continues c d ∧ Answers d answer ∧
    Passes agent answer rules explanation before t.engine ∧
    t.agent = { agent with chat := some d, explanation := .str explanation }

section Rounds

variable {s t : Session} {c d : Conversation} {cs ds : List Conversation} {rules : String}

theorem converse_respond {r : Except Failure String} (talked : (converse c respond).run s = (.ok (r, d), t)) :
    Continues c d ∧ (∀ answer, r = .ok answer → Answers d answer) ∧ t.agent = s.agent := by
  unfold converse at talked
  rw [run_bind_ok run_get] at talked
  generalize said : respond.run { conversation := c, service := s.service } = o
  obtain ⟨r', e⟩ := o
  have known : respond { conversation := c, service := s.service } = (r', e) := said
  simp only [ExceptT.run, known] at talked
  cases talked
  obtain ⟨grown, ends⟩ := respond_run said
  exact ⟨grown, ends, rfl⟩

theorem turn_ok {result : Turn} (done : (turn c).run s = (.ok result, t)) :
    (∃ d, result = .next d ∧ Continues c d ∧ t.agent = s.agent) ∨ ∃ rules, result = .rules rules ∧ Accepts s.agent c rules t := by
  obtain ⟨⟨r, d⟩, between, talked, rest⟩ := run_bind_cases done
  obtain ⟨grown, ends, same⟩ := converse_respond talked
  cases r with
  | error f =>
    cases f with
    | chat words =>
      cases rest
      exact .inl ⟨d, rfl, grown, same⟩
    | _ => cases rest
  | ok answer =>
    generalize checked : (validate answer).run between = o
    obtain ⟨r, last⟩ := o
    have kept := keepsAgent_validate answer between
    rw [checked] at kept
    rw [run_bind_ok (run_lift checked)] at rest
    cases r with
    | ok verdict =>
      cases rest
      have passes := validate_ok checked
      rw [same] at passes
      have still : last.agent = s.agent := kept.trans same
      refine .inr ⟨verdict.rules, rfl, d, answer, verdict.explanation, between.engine, grown, ends answer rfl, passes, ?_⟩
      simp only [still]
    | error f =>
      cases f with
      | agent words =>
        cases rest
        exact .inl ⟨_, rfl, grown.trans (.say d "user" words), kept.trans same⟩
      | chat words =>
        cases rest
        exact .inl ⟨d, rfl, grown, kept.trans same⟩
      | _ => cases rest

theorem round_ok {result : String ⊕ List Conversation} (done : (round cs).run s = (.ok result, t)) :
    (∃ ds, result = .inr ds ∧ List.Forall₂ Continues cs ds ∧ t.agent = s.agent) ∨
      ∃ rules, result = .inl rules ∧ ∃ c ∈ cs, Accepts s.agent c rules t := by
  induction cs generalizing s t result with
  | nil =>
    cases done
    exact .inl ⟨[], rfl, .nil, rfl⟩
  | cons c cs ih =>
    obtain ⟨outcome, between, turned, rest⟩ := run_bind_cases done
    rcases turn_ok turned with ⟨d, rfl, grown, same⟩ | ⟨text, rfl, taken⟩
    · obtain ⟨others, last, went, rest⟩ := run_bind_cases rest
      rcases ih went with ⟨ds, rfl, each, still⟩ | ⟨text, rfl, c', inside, accepts⟩
      · cases rest
        exact .inl ⟨_, rfl, .cons grown each, still.trans same⟩
      · cases rest
        exact .inr ⟨text, rfl, c', mem_cons_of_mem _ inside, same ▸ accepts⟩
    · cases rest
      exact .inr ⟨text, rfl, c, mem_cons_self, taken⟩

theorem Accepts.earlier {agent : State} (accepts : Accepts agent d rules t) (grown : Continues c d) :
    Accepts agent c rules t := by
  obtain ⟨e, answer, explanation, before, more, rest⟩ := accepts
  exact ⟨e, answer, explanation, before, grown.trans more, rest⟩

theorem rounds_ok {n : Nat} (done : (rounds n cs).run s = (.ok rules, t)) : ∃ c ∈ cs, Accepts s.agent c rules t := by
  induction n generalizing s cs with
  | zero => cases done
  | succ n ih =>
    obtain ⟨result, between, went, rest⟩ := run_bind_cases done
    rcases round_ok went with ⟨ds, rfl, each, same⟩ | ⟨text, rfl, found⟩
    · obtain ⟨d, inside, accepts⟩ := ih rest
      obtain ⟨c, member, grown⟩ := forall₂_mem_right each inside
      exact ⟨c, member, (same ▸ accepts).earlier grown⟩
    · cases rest
      exact found

end Rounds

def suggestingSession : Session :=
  { engine := { outcomes := [.failed "QueryError", .done [{ content := " b" }] [] []] }
    service := { replies := [.choices ["```toml\n[[rules]]\nname = \"second\"\n```\n```md\nworks\n```"]] }
    agent := { source := "a", target := "b" } }

def suggestingChats : List Conversation :=
  [{ messages := [⟨"assistant", "```toml\n[[rules]]\nname = \"first\"\n```\n```md\nfails\n```"⟩], model := defaultModel },
    { messages := [⟨"user", "?"⟩], model := defaultModel }]

def suggestedRules : String := "[[rules]]\nname = \"second\""

theorem suggestingSession_returns : ((rounds 10 suggestingChats).run suggestingSession).1.toOption = some suggestedRules := by
  decide +kernel

end Rulewright.Agent
