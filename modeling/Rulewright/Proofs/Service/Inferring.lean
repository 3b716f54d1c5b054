import Rulewright.Proofs.Agent.Endurance
import Rulewright.Proofs.Agent.StaticGraph
import Rulewright.Proofs.Service.Reading

/-!
Inference for a client, and how it can fail without the client being told. The parser may have no tree for the code, an edge may lead
to something that is no template, and in the conversations the service may break or the model answer what cannot be used. All other
failures are about values that are bad, or the agent reports them.
-/

open List

namespace Rulewright

open Inference

namespace Source

abbrev FailsOnNodes {α : Type} (x : Except Error α) : Prop := FailsOnly (· ≠ Error.noNodes) x

theorem text_fails (n : Node) : FailsOnNodes n.text := by
  unfold Node.text
  split
  · exact failsOnly_ok _
  · exact failsOnly_error (by simp)

theorem unified_fails (leaveOut : List Node) (n : Node) : FailsOnNodes (n.unified leaveOut) := by
  refine (Node.unified.mutual_induct leaveOut (fun n => FailsOnNodes (n.unified leaveOut))
    (fun ns => FailsOnNodes (unifiedAll leaveOut ns)) ?_ ?_ ?_ ?_ ?_).1 n
  · intro label children left
    rw [Node.unified.eq_def]
    dsimp only
    rw [if_pos left]
    exact failsOnly_ok _
  · intro label stays
    rw [Node.unified, if_neg stays]
    exact text_fails _
  · intro label n rest stays below
    rw [Node.unified, if_neg stays]
    exact below.bind fun _ => failsOnly_ok _
  · exact failsOnly_ok _
  · intro n rest first others
    exact first.bind fun _ => others.bind fun _ => failsOnly_ok _

theorem differs_fails (n m : Node) : FailsOnNodes (n.differs m) :=
  (unified_fails [] n).bind fun _ => (unified_fails [] m).bind fun _ => failsOnly_ok _

theorem countDiffering_fails (ns ms : List Node) : FailsOnNodes (countDiffering ns ms) := by
  induction ns generalizing ms with
  | nil => exact failsOnly_ok _
  | cons n ns ih =>
    cases ms with
    | nil => exact failsOnly_ok _
    | cons m ms => exact (differs_fails n m).bind fun _ => (ih ms).bind fun _ => failsOnly_ok _

theorem findChange_fails (n m : Node) : FailsOnNodes (findChange n m) := by
  have counted (label : Label) (children : List Node) (after : Node)
      (below : FailsOnNodes (findChangeIn (⟨label, children⟩, after) children after.namedChildren)) :
      FailsOnNodes (findChange ⟨label, children⟩ after) := by
    have narrowed (differing : Nat) : FailsOnNodes (if differing == 1 && children.length == after.children.length then
        findChangeIn (⟨label, children⟩, after) children after.namedChildren else pure (⟨label, children⟩, after)) :=
      .ite below (failsOnly_ok _)
    exact .ite ((countDiffering_fails _ _).bind narrowed) ((failsOnly_ok 0).bind narrowed)
  refine (findChange.mutual_induct (fun n m => FailsOnNodes (findChange n m))
    (fun whole ns ms => FailsOnNodes (findChangeIn whole ns ms)) ?_ ?_ ?_ ?_ ?_).1 n m
  · intro label children after _ below
    exact counted label children after below
  · intro label children after _ below
    exact counted label children after below
  · intro whole n ns m ms named first others
    rw [findChangeIn, if_pos named]
    exact (differs_fails n m).bind fun _ => .ite first others
  · intro whole n ns m ms other rest
    rw [findChangeIn, if_neg other]
    exact rest
  · intro ns whole ms ends
    rw [findChangeIn]
    · exact failsOnly_ok _
    · exact ends

end Source

namespace Query.Writer

open Source (Node FailsOnNodes)

theorem demand_fails (w : Writer) (name : String) (n : Node) : FailsOnNodes (w.demand name n) :=
  .ite ((Source.text_fails n).bind fun _ => failsOnly_ok _) (failsOnly_ok _)

theorem capture_fails (w : Writer) (n : Node) : FailsOnNodes (w.capture n) := (demand_fails _ _ n).bind fun _ => failsOnly_ok _

theorem pattern_fails (depth : Int) (mark : String) (w : Writer) (n : Node) : FailsOnNodes (w.pattern depth mark n) := by
  refine (pattern.mutual_induct (fun depth mark w n => FailsOnNodes (w.pattern depth mark n))
    (fun depth w ns => FailsOnNodes (w.patterns depth ns)) ?_ ?_ ?_ ?_).1 depth mark w n
  · intro depth mark w label children below
    exact below.bind fun inner => (capture_fails _ _).bind fun _ => failsOnly_ok _
  · intro depth w
    exact failsOnly_ok _
  · intro depth w n rest named first others
    rw [patterns, if_pos named]
    exact first.bind fun p => (others p.2).bind fun _ => failsOnly_ok _
  · intro depth w n rest other others
    rw [patterns, if_neg other]
    exact others

theorem write_fails (n : Node) : FailsOnNodes (write false [n]) := by
  refine FailsOnly.bind ?_ fun _ => failsOnly_ok _
  exact (pattern_fails 0 "" {} n).bind fun _ => failsOnly_ok _

theorem tag_fails (w : Writer) (text : String) : FailsOnNodes (w.tag text) := by
  unfold tag
  induction w.longestFirst generalizing text with
  | nil => exact failsOnly_ok _
  | cons c rest ih => exact (Source.unified_fails [] c.2).bind fun _ => ih _

end Query.Writer

namespace Inference

open Source (Node Forest FailsOnNodes)

abbrev FailsOnValues {α : Type} (x : Except Failure α) : Prop := FailsOnly (fun f => Service.isBadValue f = true) x

theorem liftSource_fails {α : Type} {x : Except Source.Error α} (fails : FailsOnNodes x) : FailsOnValues (liftSource x) := by
  intro f failed
  cases known : x with
  | ok a =>
    rw [known] at failed
    cases failed
  | error e =>
    rw [known] at failed
    cases failed
    cases e with
    | undecodable u => rfl
    | noNodes => exact absurd rfl (fails _ known)
    | noCommonAncestor => rfl

theorem sources_fails (nodes : List Node) : FailsOnValues (sources nodes) :=
  (liftSource_fails (.mapM (Source.unified_fails []))).bind fun _ => failsOnly_ok _

theorem ruleFor_fails (name : String) (n : Node) (text : String) : FailsOnValues (ruleFor name n text) :=
  (liftSource_fails (Query.Writer.write_fails n)).bind fun w => (liftSource_fails (w.tag_fails text)).bind fun _ => failsOnly_ok _

theorem ancestor_fails (forest : Forest) {nodes : List Node} (filled : nodes ≠ []) :
    FailsOnNodes (Source.lowestCommonAncestor forest nodes) := by
  unfold Source.lowestCommonAncestor
  rw [if_neg (by simpa using filled)]
  split
  · exact failsOnly_error (by simp)
  · exact failsOnly_ok _

theorem infer_fails (forest : Forest) (name : String) {before : List Node} (after : List Node) (filled : before ≠ []) :
    FailsOnValues (infer forest name before after) := by
  unfold infer
  split
  · exact absurd rfl filled
  · exact absurd rfl filled
  · refine FailsOnly.bind ?_ fun _ => failsOnly_ok _
    unfold create
    split
    · exact (liftSource_fails (Source.findChange_fails _ _)).bind fun _ => (sources_fails _).bind fun _ => ruleFor_fails _ _ _
    · exact (sources_fails _).bind fun _ => ruleFor_fails _ _ _
    · refine (liftSource_fails (ancestor_fails forest filled)).bind fun above => ?_
      exact (liftSource_fails (Source.unified_fails _ above)).bind fun _ => (sources_fails _).bind fun _ => ruleFor_fails _ _ _

theorem visit_fails (t : Templates) (n : Node) : FailsOnValues (t.visit n) := by
  unfold Templates.visit
  split
  · refine (liftSource_fails (Source.text_fails n)).bind fun text => ?_
    unfold Templates.comment
    split
    · split
      · exact failsOnly_ok _
      · exact failsOnly_error rfl
    · exact .ite (failsOnly_ok _) (failsOnly_ok _)
  · split <;> exact failsOnly_ok _

theorem parseTemplates_fails (source target : Node) : FailsOnValues (parseTemplates source target) := by
  have walks (t : Templates) (n : Node) : FailsOnValues (t.walk n) := by
    rw [walk_eq]
    exact .foldlM visit_fails _ _
  exact (walks _ _).bind fun _ => (walks _ _).bind fun _ => failsOnly_ok _

end Inference

namespace Agent

open Source (Node)
open Inference (Pair)
open Chat (Conversation)
open Service (RequestKind)

def Inferable (s : Session) (pairs : List Pair) : Prop :=
  ∀ i p, pairs[i]? = some p → ∃ o, Inference.infer (s.trees.map (·.root)) (Inference.ruleName (s.inferred + i + 1)) p.before p.after = .ok o

def Dangles (s : Session) (source target : Node) : Prop :=
  ∃ t, parseTemplates source target = .ok t ∧ Inferable s t.pairs ∧ ¬EndsKnown source t.edges

def IsTied (s : Session) : Prop :=
  ∃ source target, (parse s.agent.source).run s = (.ok source, s) ∧ (parse s.agent.target).run s = (.ok target, s) ∧ ¬Dangles s source target

section Static

variable {s : Session} {source target : Node} {pairs : List Pair}

theorem parse_cases (s : Session) (code : String) :
    (∃ n, (parse code).run s = (.ok n, s)) ∨ (parse code).run s = (.error .exhausted, s) := by
  unfold parse
  rw [run_bind_ok run_get]
  cases s.trees.find? (·.source == code) with
  | none => exact .inr rfl
  | some tree => exact .inl ⟨tree.root, rfl⟩

theorem inferPairs_fails (filled : ∀ p ∈ pairs, p.before ≠ []) (lost : ¬Inferable s pairs) :
    ∃ f t, Service.isBadValue f ∧ (pairs.mapM inferPair).run s = (.error f, t) := by
  induction pairs generalizing s with
  | nil => exact absurd (fun i p found => by cases found) lost
  | cons p rest ih =>
    let next : Session := { s with inferred := s.inferred + 1 }
    rw [mapM_cons]
    cases first : Inference.infer (s.trees.map (·.root)) (Inference.ruleName (s.inferred + 1)) p.before p.after with
    | error f =>
      refine ⟨f, next, infer_fails _ _ _ (filled p mem_cons_self) f first, run_bind_error ?_⟩
      unfold inferPair
      rw [run_bind_ok (run_modify _), run_bind_ok run_get]
      rw [first]
      rfl
    | ok o =>
      obtain ⟨query, node, replace, rfl, one⟩ := run_inferPair (filled p mem_cons_self) first
      have lostLater : ¬Inferable next rest := by
        intro later
        apply lost
        intro i p found
        cases i with
        | zero =>
          cases found
          exact ⟨_, first⟩
        | succ i =>
          have returned := later i p found
          rwa [show next.inferred + i + 1 = s.inferred + (i + 1) + 1 from by simp only [next]; omega] at returned
      obtain ⟨f, t, bad, failed⟩ := ih (fun p inside => filled p (mem_cons_of_mem _ inside)) lostLater
      exact ⟨f, t, bad, by rw [run_bind_ok one, run_bind_error failed]⟩

theorem edges_ok_iff {rules : List Rule} (edges : List (String × List String)) (order : pairs.map Pair.name = templateNames source)
    (length : rules.length = pairs.length) :
    Succeeds (edges.mapM (edgeOf ((pairs.map Pair.name).zip rules))) ↔ EndsKnown source edges := by
  refine succeeds_mapM_iff.trans (forall₂_congr fun e inside => ⟨?_, fun known => ?_⟩)
  · rintro ⟨v, one⟩ x member
    exact order ▸ (edgeOf_ok one).known x member
  · cases found : edgeOf ((pairs.map Pair.name).zip rules) e with
    | ok v => exact ⟨v, rfl⟩
    | error f =>
      obtain ⟨x, member, -, missing⟩ := edgeOf_error length found
      exact absurd (order ▸ known x member) missing

section

variable (before : (parse s.agent.source).run s = (.ok source, s))
include before

theorem inferGraph_ends (after : (parse s.agent.target).run s = (.ok target, s)) :
    (¬Dangles s source target ∧ ∃ g t text, inferGraph.run s = (.ok g, t) ∧ g.toml = .ok text) ∨
      (¬Dangles s source target ∧ ∃ f t, Service.isBadValue f ∧ inferGraph.run s = (.error f, t)) ∨
      Dangles s source target ∧ ∃ x t, inferGraph.run s = (.error (.missingKey (.str x)), t) := by
  unfold inferGraph
  rw [run_bind_ok run_get, run_bind_ok before, run_bind_ok after]
  cases parsed : parseTemplates source target with
  | error f =>
    refine .inr (.inl ⟨?_, f, s, parseTemplates_fails _ _ f parsed, run_bind_error rfl⟩)
    rintro ⟨t, parsed', -⟩
    rw [parsed] at parsed'
    cases parsed'
  | ok t =>
    have dangles_iff : Dangles s source target ↔ Inferable s t.pairs ∧ ¬EndsKnown source t.edges := by
      simp only [Dangles, parsed, Except.ok.injEq, exists_eq_left']
    rw [dangles_iff, run_bind_ok (run_liftExcept rfl)]
    obtain ⟨order, filled⟩ := parseTemplates_pairs parsed
    by_cases inferred : Inferable s t.pairs
    · obtain ⟨rules, named, length, -, plain⟩ := run_inferPairs filled inferred
      rw [run_bind_ok named, map_snd_zip (by simp [length])]
      have drawable := edges_ok_iff t.edges order length
      cases drawn : t.edges.mapM (edgeOf ((t.pairs.map Pair.name).zip rules)) with
      | ok edges =>
        have known := drawable.mp ⟨edges, drawn⟩
        obtain ⟨text, written⟩ := graph_text (g := { rules, edges }) plain ((mapM_ok_iff.mp drawn).imp fun _ _ => edgeOf_ok)
        exact .inl ⟨fun dangling => dangling.2 known, { rules, edges }, _, text, rfl, written⟩
      | error f =>
        obtain ⟨e, inside, lost⟩ := mapM_error drawn
        obtain ⟨x, member, rfl, missing⟩ := edgeOf_error length lost
        exact .inr (.inr ⟨⟨inferred, fun known => missing (order ▸ known e inside x member)⟩, x, _, run_bind_error rfl⟩)
    · obtain ⟨f, u, bad, failed⟩ := inferPairs_fails filled inferred
      exact .inr (.inl ⟨fun dangling => inferred dangling.1, f, u, bad, run_bind_error failed⟩)

theorem inferStatically_ends (after : (parse s.agent.target).run s = (.ok target, s)) :
    (¬Dangles s source target ∧ ∃ text t, inferStatically.run s = (.ok text, t)) ∨
      (¬Dangles s source target ∧ ∃ f t, Service.isBadValue f ∧ inferStatically.run s = (.error f, t)) ∨
      Dangles s source target ∧ ∃ x t, inferStatically.run s = (.error (.missingKey (.str x)), t) := by
  unfold inferStatically
  rcases inferGraph_ends before after with ⟨tied, g, t, text, built, written⟩ | ⟨tied, f, t, bad, failed⟩ | ⟨dangling, x, t, failed⟩
  · refine .inl ⟨tied, text, { t with agent := { t.agent with rules := .str text } }, ?_⟩
    rw [run_bind_ok built, run_bind_ok (run_liftExcept written)]
    rfl
  · exact .inr (.inl ⟨tied, f, t, bad, run_bind_error failed⟩)
  · exact .inr (.inr ⟨dangling, x, t, run_bind_error failed⟩)

theorem isTied_iff (after : (parse s.agent.target).run s = (.ok target, s)) : IsTied s ↔ ¬Dangles s source target := by
  refine ⟨?_, fun tied => ⟨source, target, before, after, tied⟩⟩
  rintro ⟨n, m, before', after', tied⟩
  rw [before] at before'
  rw [after] at after'
  cases before'
  cases after'
  exact tied

end

theorem inferStatically_fails_iff (s : Session) : FailsOnlyIn RequestKind.infer.Tells inferStatically s ↔ IsTied s := by
  have unparsed (failed : inferGraph.run s = (.error .exhausted, s)) (untied : ¬IsTied s) :
      FailsOnlyIn RequestKind.infer.Tells inferStatically s ↔ IsTied s := by
    have ends : inferStatically.run s = (.error .exhausted, s) := run_bind_error failed
    rw [failsOnlyIn_error_iff ends]
    exact iff_of_false (fun told => by cases told) untied
  rcases parse_cases s s.agent.source with ⟨source, before⟩ | before
  · rcases parse_cases s s.agent.target with ⟨target, after⟩ | after
    · rw [isTied_iff before after]
      rcases inferStatically_ends before after with ⟨tied, text, t, done⟩ | ⟨tied, f, t, bad, failed⟩ | ⟨dangling, x, t, failed⟩
      · exact iff_of_true (failsOnlyIn_ok done) tied
      · exact iff_of_true ((failsOnlyIn_error_iff failed).mpr (Service.tells_badValue .infer bad)) tied
      · refine iff_of_false (fun fails => ?_) (not_not.mpr dangling)
        cases (failsOnlyIn_error_iff failed).mp fails
    · refine unparsed ?_ ?_
      · unfold inferGraph
        rw [run_bind_ok run_get, run_bind_ok before, run_bind_error after]
      · rintro ⟨n, m, -, wrong, -⟩
        rw [after] at wrong
        cases wrong
  · refine unparsed ?_ ?_
    · unfold inferGraph
      rw [run_bind_ok run_get, run_bind_error before]
    · rintro ⟨n, m, wrong, -⟩
      rw [before] at wrong
      cases wrong

end Static

section Conversations

variable {s : Session} {c : Conversation} {chats : List Conversation} {n : Nat}

theorem mismatch_untold {f : Failure} (mismatch : f.IsMismatch) : ¬RequestKind.infer.Tells f := by
  intro told
  cases f with
  | missingKey | notIterable | notSubscriptable | wrongIndex | unhashable | notSerializable | noAttribute | wrongType => cases told
  | _ => exact mismatch.elim

theorem turn_unheeded (unheeded : ¬Heeds s c) : ∃ f t, ¬RequestKind.infer.Tells f ∧ (turn c).run s = (.error f, t) := by
  have run := run_converse Chat.respond s c
  have answered {text : String} {d : Conversation} {t : Session} (heard : Hears s c text d t) :
      ∃ f t, ¬RequestKind.infer.Tells f ∧ (turn c).run s = (.error f, t) := by
    obtain ⟨f, mismatch, failed⟩ := turn_mismatch heard fun usable => unheeded (.inr ⟨text, d, t, heard, usable⟩)
    exact ⟨f, t, mismatch_untold mismatch, failed⟩
  rcases respond_cases { conversation := c, service := s.service } with ⟨text, -, done⟩ | ⟨text, e, -, -, done⟩ | ⟨f, e, kind, same, done⟩
  · rw [done] at run
    exact answered run
  · rw [done] at run
    exact answered run
  · rw [done] at run
    unfold turn
    rw [run_bind_ok run]
    rcases kind with ⟨words, rfl⟩ | ⟨words, rfl⟩ | rfl
    · refine absurd (.inl ⟨{ s with service := e.service }, words, ?_⟩) unheeded
      rw [run, same]
    · exact ⟨.external words, _, fun told => (by cases told), rfl⟩
    · exact ⟨.outOfRange .list, _, fun told => (by cases told), rfl⟩

theorem rounds_fails_iff : FailsOnlyIn RequestKind.infer.Tells (rounds n chats) s ↔ ∀ c u, Reaches n chats s c u → Heeds u c := by
  constructor
  · intro fails c u reached
    by_contra unheeded
    obtain ⟨f, t, untold, failed⟩ := turn_unheeded unheeded
    exact untold (fails f t (reached.stops failed))
  · intro heeds
    rcases rounds_go_or_stop n chats s with ⟨ds, t, goes⟩ | ⟨c, u, reached, stops⟩
    · exact (failsOnlyIn_error_iff (goes.run 0)).mpr rfl
    · rcases turn_heeded (heeds c u reached) with ⟨d, t, goes⟩ | ⟨rules, t, taken⟩
      · exact absurd goes (stops d t)
      · exact failsOnlyIn_ok (reached.stops taken)

theorem infer_fails_iff : FailsOnlyIn RequestKind.infer.Tells infer s ↔
    ∀ chats t, (createChats s.agent.rules).run s = (.ok chats, t) → ∀ c u, Reaches 10 chats t c u → Heeds u c := by
  unfold infer
  generalize created : (createChats s.agent.rules).run s = o
  obtain ⟨r, t⟩ := o
  cases r with
  | error f =>
    have failed : (tryCatch (createChats s.agent.rules) fun f => throw (.agent f.words) : AgentM (List Conversation)).run s =
        (.error (.agent f.words), t) := run_tryCatch_error created
    simp only [FailsOnlyIn, run_bind_ok run_get, run_bind_error failed]
    refine ⟨fun _ chats t wrong => (by cases wrong), fun _ e u same => ?_⟩
    cases same
    rfl
  | ok chats =>
    have done : (tryCatch (createChats s.agent.rules) fun f => throw (.agent f.words) : AgentM (List Conversation)).run s =
        (.ok chats, t) := run_tryCatch_ok created
    simp only [FailsOnlyIn, run_bind_ok run_get, run_bind_ok done]
    refine rounds_fails_iff.trans ⟨fun heeds chats u same => ?_, fun heeds => heeds chats t rfl⟩
    cases same
    exact heeds

end Conversations

structure CanInfer (s : Session) : Prop where
  tied : IsTied s
  heeds : ∀ text t, inferStatically.run s = (.ok text, t) → ∀ chats u, (createChats (.str text)).run t = (.ok chats, u) →
    ∀ c v, Reaches 10 chats u c v → Heeds v c

theorem inferStatically_rules {s t : Session} {text : String} (done : inferStatically.run s = (.ok text, t)) : t.agent.rules = .str text := by
  obtain ⟨g, s₁, -, done⟩ := run_bind_cases done
  obtain ⟨text', s₂, -, done⟩ := run_bind_cases done
  cases done
  rfl

theorem canInfer_iff (s : Session) : FailsOnlyIn RequestKind.infer.Tells (do let _ ← inferStatically; infer) s ↔ CanInfer s := by
  rw [failsOnlyIn_bind_iff, inferStatically_fails_iff]
  constructor
  · rintro ⟨tied, later⟩
    refine ⟨tied, fun text t done => ?_⟩
    rw [← inferStatically_rules done]
    exact infer_fails_iff.mp (later text t done)
  · rintro ⟨tied, heeds⟩
    refine ⟨tied, fun text t done => infer_fails_iff.mpr ?_⟩
    rw [inferStatically_rules done]
    exact heeds text t done

end Agent

end Rulewright
