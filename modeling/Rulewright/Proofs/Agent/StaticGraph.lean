import Rulewright.Agent.Basic
import Rulewright.Proofs.Inference.Templates
import Mathlib

/-!
The graph that static inference builds: one rule for each template of the source, in order, and the edges of the comments
with rules in the place of templates (`inferStatically_builds_graph`). The only failure left, once the templates are read
and each rule is inferred, is an edge at a name that is no template.
-/

open List

namespace Rulewright

variable {edge : String × List String}

open Inference (ruleName parseTemplates templateNames)

def Rule.plain (name query node replace : String) : Rule :=
  { name := .str name, query := .str query, replaceNode := .str node, replace := .str replace }

theorem Rule.plain_toml (name query node replace : String) : ∃ text, (Rule.plain name query node replace).toml = .ok text :=
  ⟨_, rfl⟩

namespace Inference

open Source (Node Forest)

variable {forest : Forest} {name text : String} {before after : List Node} {r : Rule}

theorem ruleFor_ok {n : Node} (made : ruleFor name n text = .ok r) :
    ∃ query node replace, r = Rule.plain name query node replace := by
  obtain ⟨w, -, made⟩ := bind_cases made
  obtain ⟨replace, -, made⟩ := bind_cases made
  cases made
  exact ⟨_, _, _, rfl⟩

theorem create_cases (made : create forest name before after = .ok r) : ∃ n text, ruleFor name n text = .ok r := by
  unfold create at made
  split at made
  · obtain ⟨changed, -, made⟩ := bind_cases made
    obtain ⟨text, -, made⟩ := bind_cases made
    exact ⟨_, _, made⟩
  · obtain ⟨text, -, made⟩ := bind_cases made
    exact ⟨_, _, made⟩
  · obtain ⟨above, -, made⟩ := bind_cases made
    obtain ⟨whole, -, made⟩ := bind_cases made
    obtain ⟨text, -, made⟩ := bind_cases made
    exact ⟨_, _, made⟩

theorem infer_ok {o : Option Rule} (some : before ≠ []) (inferred : infer forest name before after = .ok o) :
    ∃ query node replace, o = .some (Rule.plain name query node replace) := by
  unfold infer at inferred
  split at inferred
  · exact absurd rfl some
  · exact absurd rfl some
  · obtain ⟨r, made, inferred⟩ := bind_cases inferred
    cases inferred
    obtain ⟨n, text, made⟩ := create_cases made
    obtain ⟨query, node, replace, rfl⟩ := ruleFor_ok made
    exact ⟨query, node, replace, rfl⟩

theorem ruleName_injective : Function.Injective ruleName := by
  intro m n same
  have digits : toString m = toString n := String.append_right_inj "rule_" |>.mp same
  exact Nat.repr_inj.mp digits

end Inference

namespace Agent

open Source (Node)
open Inference (Pair)

def Named (pairs : List Pair) (rules : List Rule) (template : String) (name : Value) : Prop :=
  ∃ e ∈ pairs.zip rules, e.1.name = template ∧ e.2.name = name

def Translates (pairs : List Pair) (rules : List Rule) (edge : String × List String) (v : Value) : Prop :=
  ∃ source order targets, Named pairs rules edge.1 source ∧ order.Perm edge.2 ∧
    List.Forall₂ (Named pairs rules) order targets ∧
    v = .dict [("from", source), ("to", .list targets), ("scope", .str "File")]

def RuleAt (s : Session) (pairs : List Pair) (rules : List Rule) (i : Nat) : Prop :=
  ∃ p r, pairs[i]? = some p ∧ rules[i]? = some r ∧ r.name = .str (ruleName (s.inferred + i + 1)) ∧
    Inference.infer (s.trees.map (·.root)) (ruleName (s.inferred + i + 1)) p.before p.after = .ok (some r)

structure Describes (s : Session) (source : Node) (t : Inference.Parsed) (g : Graph) : Prop where
  order : t.pairs.map Pair.name = templateNames source
  length : g.rules.length = t.pairs.length
  rules : ∀ i < t.pairs.length, RuleAt s t.pairs g.rules i
  distinct : (g.rules.map Rule.name).Nodup
  edges : List.Forall₂ (Translates t.pairs g.rules) t.edges g.edges

def EndsKnown (source : Node) (edges : List (String × List String)) : Prop :=
  ∀ e ∈ edges, ∀ x ∈ e.1 :: e.2, x ∈ templateNames source

section Rules

variable {s : Session} {pairs : List Pair} {rules : List Rule}

theorem run_inferPair {p : Pair} {o : Option Rule} (filled : p.before ≠ [])
    (inferred : Inference.infer (s.trees.map (·.root)) (ruleName (s.inferred + 1)) p.before p.after = .ok o) :
    ∃ query node replace, o = some (Rule.plain (ruleName (s.inferred + 1)) query node replace) ∧
      (inferPair p).run s =
        (.ok (p.name, Rule.plain (ruleName (s.inferred + 1)) query node replace), { s with inferred := s.inferred + 1 }) := by
  obtain ⟨query, node, replace, rfl⟩ := Inference.infer_ok filled inferred
  refine ⟨query, node, replace, rfl, ?_⟩
  unfold inferPair
  rw [run_bind_ok (run_modify _), run_bind_ok run_get, run_bind_ok (run_liftExcept inferred)]
  rfl

theorem run_inferPairs (filled : ∀ p ∈ pairs, p.before ≠ [])
    (inferred : ∀ i p, pairs[i]? = some p → ∃ o, Inference.infer (s.trees.map (·.root))
      (ruleName (s.inferred + i + 1)) p.before p.after = .ok o) :
    ∃ rules, (pairs.mapM inferPair).run s =
        (.ok ((pairs.map Pair.name).zip rules), { s with inferred := s.inferred + pairs.length }) ∧
      rules.length = pairs.length ∧ (∀ i < pairs.length, RuleAt s pairs rules i) ∧
      ∀ r ∈ rules, ∃ name query node replace, r = Rule.plain name query node replace := by
  induction pairs generalizing s with
  | nil => exact ⟨[], rfl, rfl, by simp, by simp⟩
  | cons p rest ih =>
    obtain ⟨o, first⟩ := inferred 0 p rfl
    obtain ⟨query, node, replace, rfl, one⟩ := run_inferPair (filled p mem_cons_self) first
    let next : Session := { s with inferred := s.inferred + 1 }
    obtain ⟨rules, others, length, each, plain⟩ := ih (s := next)
      (fun p inside => filled p (mem_cons_of_mem _ inside))
      (fun i p found => by
        have returned := inferred (i + 1) p found
        rwa [show s.inferred + (i + 1) + 1 = next.inferred + i + 1 from by simp only [next]; omega] at returned)
    refine ⟨Rule.plain (ruleName (s.inferred + 1)) query node replace :: rules, ?_, by simp [length], ?_, ?_⟩
    · rw [mapM_cons, run_bind_ok one, run_bind_ok others]
      simp only [next, length_cons, Nat.add_assoc, Nat.add_comm 1]
      rfl
    · intro i below
      cases i with
      | zero => exact ⟨p, _, rfl, rfl, rfl, first⟩
      | succ i =>
        obtain ⟨p', r, atPair, atRule, name, found⟩ := each i (by simpa using below)
        rw [show next.inferred + i + 1 = s.inferred + (i + 1) + 1 from by simp only [next]; omega] at name found
        exact ⟨p', r, atPair, atRule, name, found⟩
    · intro r inside
      rcases mem_cons.mp inside with rfl | inside
      · exact ⟨_, query, node, replace, rfl⟩
      · exact plain r inside

theorem names_distinct (length : rules.length = pairs.length) (each : ∀ i < pairs.length, RuleAt s pairs rules i) :
    (rules.map Rule.name).Nodup := by
  refine pairwise_iff_getElem.mpr fun i j below above less same => ?_
  rw [length_map] at below above
  obtain ⟨-, r, -, first, name, -⟩ := each i (length ▸ below)
  obtain ⟨-, r', -, second, name', -⟩ := each j (length ▸ above)
  rw [getElem?_eq_getElem below, Option.some.injEq] at first
  rw [getElem?_eq_getElem above, Option.some.injEq] at second
  rw [getElem_map, getElem_map, first, second, name, name', Value.str.injEq] at same
  have := Inference.ruleName_injective same
  omega

end Rules

section Edges

variable {pairs : List Pair} {rules : List Rule} {x : String} {v : Value} {f : Failure}

theorem ruleOf_ok (found : ruleOf ((pairs.map Pair.name).zip rules) x = .ok v) :
    Named pairs rules x v := by
  unfold ruleOf at found
  split at found
  · rename_i name rule first
    cases found
    have inside := mem_of_find?_eq_some first
    have same : name = x := by simpa using find?_some first
    rw [zip_map_left, mem_map] at inside
    obtain ⟨e, member, equal⟩ := inside
    cases equal
    exact ⟨e, member, same, rfl⟩
  · cases found

theorem ruleOf_error (length : rules.length = pairs.length) (lost : ruleOf ((pairs.map Pair.name).zip rules) x = .error f) :
    f = .missingKey (.str x) ∧ x ∉ pairs.map Pair.name := by
  unfold ruleOf at lost
  split at lost
  · cases lost
  · rename_i none
    cases lost
    refine ⟨rfl, fun inside => ?_⟩
    have names : ((pairs.map Pair.name).zip rules).map Prod.fst = pairs.map Pair.name := map_fst_zip (by simp [length])
    rw [← names, mem_map] at inside
    obtain ⟨e, member, same⟩ := inside
    exact absurd same (by simpa using find?_eq_none.mp none e member)

theorem edgeOf_ok (found : edgeOf ((pairs.map Pair.name).zip rules) edge = .ok v) : Translates pairs rules edge v := by
  obtain ⟨source, first, found⟩ := bind_cases found
  obtain ⟨targets, others, found⟩ := bind_cases found
  cases found
  exact ⟨source, _, targets, ruleOf_ok first, mergeSort_perm _ _, (mapM_ok_iff.mp others).imp fun _ _ => ruleOf_ok, rfl⟩

theorem edgeOf_error (length : rules.length = pairs.length) (lost : edgeOf ((pairs.map Pair.name).zip rules) edge = .error f) :
    ∃ x ∈ edge.1 :: edge.2, f = .missingKey (.str x) ∧ x ∉ pairs.map Pair.name := by
  unfold edgeOf at lost
  cases first : ruleOf ((pairs.map Pair.name).zip rules) edge.1 with
  | error e =>
    rw [first] at lost
    cases lost
    exact ⟨edge.1, mem_cons_self, ruleOf_error length first⟩
  | ok source =>
    cases others : (edge.2.mergeSort (· ≤ ·)).mapM (ruleOf ((pairs.map Pair.name).zip rules)) with
    | error e =>
      rw [first, others] at lost
      cases lost
      obtain ⟨x, inside, missing⟩ := mapM_error others
      exact ⟨x, mem_cons_of_mem _ (mem_mergeSort.mp inside), ruleOf_error length missing⟩
    | ok targets =>
      rw [first, others] at lost
      cases lost

theorem Named.known (named : Named pairs rules x v) : x ∈ pairs.map Pair.name := by
  obtain ⟨e, inside, rfl, -⟩ := named
  exact mem_map_of_mem (of_mem_zip inside).1

theorem Translates.known (translated : Translates pairs rules edge v) : ∀ y ∈ edge.1 :: edge.2, y ∈ pairs.map Pair.name := by
  obtain ⟨source, order, targets, first, perm, others, -⟩ := translated
  intro y inside
  rcases mem_cons.mp inside with rfl | inside
  · exact first.known
  · obtain ⟨w, -, named⟩ := forall₂_mem_left others (perm.mem_iff.mpr inside)
    exact named.known

end Edges

theorem graph_text {pairs : List Pair} {edges : List (String × List String)} {g : Graph}
    (plain : ∀ r ∈ g.rules, ∃ name query node replace, r = Rule.plain name query node replace)
    (translated : List.Forall₂ (Translates pairs g.rules) edges g.edges) : ∃ text, g.toml = .ok text := by
  have printable : ∀ r ∈ g.rules, ∃ text, Rule.toml r = .ok text := by
    intro r inside
    obtain ⟨name, query, node, replace, rfl⟩ := plain r inside
    exact Rule.plain_toml name query node replace
  have drawable : ∀ v ∈ g.edges, ∃ text, Graph.edgeToml v = .ok text := by
    intro v inside
    obtain ⟨edge, -, source, order, targets, -, -, -, rfl⟩ := forall₂_mem_right translated inside
    exact ⟨_, rfl⟩
  obtain ⟨rules, written⟩ := succeeds_mapM_iff.mpr printable
  obtain ⟨lines, drawn⟩ := succeeds_mapM_iff.mpr drawable
  unfold Graph.toml
  rw [written, drawn]
  cases g.edges.isEmpty with
  | true => exact ⟨_, rfl⟩
  | false => exact ⟨_, rfl⟩

/-- Static inference builds the graph that the templates describe if both ends of every edge are templates of the source.
If not, it stops at an end that is none. -/
theorem inferStatically_builds_graph (s : Session) (source target : Node) (t : Inference.Parsed)
    (before : (parse s.agent.source).run s = (.ok source, s)) (after : (parse s.agent.target).run s = (.ok target, s))
    (parsed : Inference.parseTemplates source target = .ok t)
    (inferred : ∀ i p, t.pairs[i]? = some p → ∃ o, Inference.infer (s.trees.map (·.root))
      (Inference.ruleName (s.inferred + i + 1)) p.before p.after = .ok o) :
    (∀ p ∈ t.pairs, p.before ≠ []) ∧
      (EndsKnown source t.edges → ∃ g text, Describes s source t g ∧ g.toml = .ok text ∧
        inferGraph.run s = (.ok g, { s with inferred := s.inferred + t.pairs.length }) ∧
        inferStatically.run s = (.ok text, { s with
          inferred := s.inferred + t.pairs.length, agent := { s.agent with rules := .str text } })) ∧
      (¬EndsKnown source t.edges → ∃ e ∈ t.edges, ∃ x ∈ e.1 :: e.2, x ∉ Inference.templateNames source ∧
        inferStatically.run s =
          (.error (.missingKey (.str x)), { s with inferred := s.inferred + t.pairs.length })) := by
  obtain ⟨order, filled⟩ := Inference.parseTemplates_pairs parsed
  obtain ⟨rules, named, length, each, plain⟩ := run_inferPairs filled inferred
  let counted : Session := { s with inferred := s.inferred + t.pairs.length }
  -- all that is left to do once the rules are there
  have rest : inferGraph.run s = (do
      let edges ← liftExcept (t.edges.mapM (edgeOf ((t.pairs.map Pair.name).zip rules)))
      return { rules, edges } : AgentM Graph).run counted := by
    unfold inferGraph
    rw [run_bind_ok run_get, run_bind_ok before, run_bind_ok after, run_bind_ok (run_liftExcept parsed), run_bind_ok named,
      map_snd_zip (by simp [length])]
  refine ⟨filled, ?_⟩
  cases drawn : t.edges.mapM (edgeOf ((t.pairs.map Pair.name).zip rules)) with
  | ok edges =>
    have translated := (mapM_ok_iff.mp drawn).imp fun _ _ => edgeOf_ok
    have known : EndsKnown source t.edges := by
      intro e inside x member
      obtain ⟨v, -, one⟩ := forall₂_mem_left translated inside
      exact order ▸ one.known x member
    refine ⟨fun _ => ?_, fun unknown => absurd known unknown⟩
    obtain ⟨text, written⟩ := graph_text (g := { rules, edges }) plain translated
    have built : inferGraph.run s = (.ok { rules, edges }, counted) := by
      rw [rest, run_bind_ok (run_liftExcept drawn)]
      rfl
    refine ⟨{ rules, edges }, text, ⟨order, length, each, names_distinct length each, translated⟩, written, built, ?_⟩
    unfold inferStatically
    rw [run_bind_ok built, run_bind_ok (run_liftExcept written), run_bind_ok (run_modify _)]
    rfl
  | error f =>
    obtain ⟨e, inside, lost⟩ := mapM_error drawn
    obtain ⟨x, member, rfl, missing⟩ := edgeOf_error length lost
    rw [order] at missing
    refine ⟨fun known => absurd (known e inside x member) missing, fun _ => ⟨e, inside, x, member, missing, ?_⟩⟩
    unfold inferStatically
    refine run_bind_error ?_
    rw [rest]
    refine run_bind_error ?_
    rw [drawn]
    rfl

def leaf (kind text : String) (place : Source.Place) : Node :=
  let column := 10 * place.getLastD 0
  { label :=
      { kind, named := true, field := none, place, startByte := column, start := ⟨0, column⟩
        stop := ⟨0, column + text.length⟩, size := text.length, content := .text text }
    children := [] }

def program (number : Nat) (children : List Node) : Node :=
  { label :=
      { kind := "program", named := true, field := none, place := [number], startByte := 0, start := ⟨0, 0⟩
        stop := ⟨0, 10 * children.length⟩, size := 10 * children.length, content := .text "" }
    children }

def twoTemplates (arrow : String) : Node :=
  program 0 [leaf "comment" "// 1" [0, 0], leaf "identifier" "a" [0, 1], leaf "comment" "// 2" [0, 2],
    leaf "identifier" "b" [0, 3], leaf "comment" arrow [0, 4]]

def oneTemplate : Node := program 1 [leaf "comment" "// 1" [1, 0], leaf "identifier" "c" [1, 1]]

def templateSession (arrow : String) : Session :=
  { trees := [{ source := "before", root := twoTemplates arrow }, { source := "after", root := oneTemplate }]
    agent := { source := "before", target := "after" } }

def parsedTemplates (arrow : String) : Inference.Parsed :=
  (parseTemplates (twoTemplates arrow) oneTemplate).toOption.getD { pairs := [], edges := [] }

theorem parsedTemplates_ok {arrow : String} (fine : (parseTemplates (twoTemplates arrow) oneTemplate).isOk) :
    parseTemplates (twoTemplates arrow) oneTemplate = .ok (parsedTemplates arrow) := by
  unfold parsedTemplates
  cases parsed : parseTemplates (twoTemplates arrow) oneTemplate with
  | error e =>
    rw [parsed] at fine
    cases fine
  | ok t => rfl

def templatesInfer (arrow : String) : Bool :=
  (parsedTemplates arrow).pairs.zipIdx.all fun e =>
    (Inference.infer ((templateSession arrow).trees.map (·.root))
      (ruleName ((templateSession arrow).inferred + e.2 + 1)) e.1.before e.1.after).isOk

theorem templatesInfer_ok {arrow : String} (fine : templatesInfer arrow) (i : Nat) (p : Pair)
    (found : (parsedTemplates arrow).pairs[i]? = some p) :
    ∃ o, Inference.infer ((templateSession arrow).trees.map (·.root))
      (ruleName ((templateSession arrow).inferred + i + 1)) p.before p.after = .ok o := by
  have one := all_eq_true.mp fine (p, i) (mem_zipIdx_iff_getElem?.mpr found)
  generalize Inference.infer _ _ p.before p.after = o at one ⊢
  cases o with
  | error e => cases one
  | ok r => exact ⟨r, rfl⟩

instance (source : Node) (edges : List (String × List String)) : Decidable (EndsKnown source edges) :=
  inferInstanceAs (Decidable (∀ e ∈ edges, ∀ x ∈ e.1 :: e.2, x ∈ templateNames source))

/-- An edge to the second template leads to its rule; an edge to a third, which is not there, is a missing key. -/
theorem templateSession_builds_graph :
    (EndsKnown (twoTemplates "// 1 -> 2") (parsedTemplates "// 1 -> 2").edges ∧
        ∃ g text, Describes (templateSession "// 1 -> 2") (twoTemplates "// 1 -> 2") (parsedTemplates "// 1 -> 2") g ∧
          g.toml = .ok text ∧ (inferStatically.run (templateSession "// 1 -> 2")).1 = .ok text) ∧
      ¬EndsKnown (twoTemplates "// 1 -> 3") (parsedTemplates "// 1 -> 3").edges ∧
        ∃ x, (inferStatically.run (templateSession "// 1 -> 3")).1 = .error (.missingKey (.str x)) := by
  have linked := inferStatically_builds_graph (templateSession "// 1 -> 2") (twoTemplates "// 1 -> 2") oneTemplate
    (parsedTemplates "// 1 -> 2") rfl rfl (parsedTemplates_ok (by decide +kernel)) (templatesInfer_ok (by decide +kernel))
  have dangling := inferStatically_builds_graph (templateSession "// 1 -> 3") (twoTemplates "// 1 -> 3") oneTemplate
    (parsedTemplates "// 1 -> 3") rfl rfl (parsedTemplates_ok (by decide +kernel)) (templatesInfer_ok (by decide +kernel))
  have known : EndsKnown (twoTemplates "// 1 -> 2") (parsedTemplates "// 1 -> 2").edges := by decide +kernel
  have unknown : ¬EndsKnown (twoTemplates "// 1 -> 3") (parsedTemplates "// 1 -> 3").edges := by decide +kernel
  obtain ⟨g, text, describes, written, -, done⟩ := linked.2.1 known
  obtain ⟨-, -, x, -, -, lost⟩ := dangling.2.2 unknown
  exact ⟨⟨known, g, text, describes, written, by rw [done]⟩, unknown, x, by rw [lost]⟩

end Agent
end Rulewright
