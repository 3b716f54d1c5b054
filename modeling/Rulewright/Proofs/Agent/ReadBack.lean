import Rulewright.Proofs.Inference.Queries
import Rulewright.Proofs.Rule.RoundTrip

/-!
Reading the text of inferred rules. If the queries and the replacements of an inferred graph are clear, its text can be read, and what comes back has
the same names, replaced nodes and edges. Queries and replacements lose the blanks at the end of the first of several lines, and an empty replacement
is missing. The query of a node with named children always loses a blank.
-/

open List

namespace Rulewright

open Value Inference Toml

namespace Value

def trimmed : Value → Value
  | .str s => if s = "" then .null else .str (String.ofList (asRead s.toList))
  | v => v

def IsWhole (v : Value) : Prop := ∀ s, v = .str s → s ≠ "" ∧ asRead s.toList = s.toList

theorem trimmed_eq_iff {v : Value} : v.trimmed = v ↔ v.IsWhole := by
  cases v with
  | str s =>
    have chars : String.ofList (asRead s.toList) = s ↔ asRead s.toList = s.toList := by
      rw [← String.toList_inj, String.toList_ofList]
    by_cases empty : s = "" <;> simp [trimmed, IsWhole, empty, chars]
  | _ => simp [trimmed, IsWhole]

theorem longField_trimmed {s : String} (clear : s = "" ∨ Clear s.toList) : (longField (.str s)).getD .null = (Value.str s).trimmed := by
  by_cases empty : s = ""
  · subst empty
    rfl
  · have something : (Value.str s).isSomething := by simpa [isSomething] using empty
    have whole := (clear.resolve_left empty).joinLines
    rw [longField, if_pos something, Option.getD_some, shown, whole, trimmed, if_neg empty]

end Value

namespace Rule

structure Legible (r : Rule) : Prop where
  query : ∃ s, r.query = .str s ∧ Clear s.toList
  replace : ∃ s, r.replace = .str s ∧ (s = "" ∨ Clear s.toList)

def trimmed (r : Rule) : Rule := { r with query := r.query.trimmed, replace := r.replace.trimmed }

theorem same_trimmed_iff {r : Rule} : r.Same r.trimmed ↔ r.query.IsWhole ∧ r.replace.IsWhole := by
  rw [← trimmed_eq_iff, ← trimmed_eq_iff]
  constructor
  · intro same
    exact ⟨same.query, same.replace⟩
  · rintro ⟨query, replace⟩
    exact ⟨rfl, query, rfl, replace, rfl, fun _ => .rfl, fun _ => .rfl, .refl _⟩

end Rule

theorem isPlain_digits (k : Nat) : ∀ c ∈ (toString k).toList, isPlain c := by
  intro c mem
  have digits : (toString k).toList = Nat.toDigits 10 k := Nat.toList_repr
  rw [digits] at mem
  have digit : c.isDigit := Nat.isDigit_of_mem_toDigits (by decide) (by decide) mem
  obtain ⟨-, -, low, high⟩ := digit_bounds digit
  have quote : c ≠ '"' := by
    rintro rfl
    simp at digit
  have backslash : c ≠ '\\' := by
    rintro rfl
    simp at digit
  simp only [isPlain, Bool.and_eq_true, decide_eq_true_eq, bne_iff_ne]
  exact ⟨⟨⟨by omega, by omega⟩, quote⟩, backslash⟩

namespace Inference

theorem isPlain_ruleName (m : Nat) : ∀ c ∈ (ruleName m).toList, isPlain c := by
  have word : ∀ c ∈ "rule_".toList, isPlain c := by simp [isPlain]
  rw [ruleName, String.toList_append]
  intro c mem
  rcases mem_append.mp mem with mem | mem
  · exact word c mem
  · exact isPlain_digits m c mem

theorem isPlain_node (k : Nat) : ∀ c ∈ ("tag" ++ toString k ++ "n").toList, isPlain c := by
  have tag : ∀ c ∈ "tag".toList, isPlain c := by simp [isPlain]
  have last : ∀ c ∈ "n".toList, isPlain c := by simp [isPlain]
  rw [String.toList_append, String.toList_append]
  intro c mem
  rcases mem_append.mp mem with mem | mem
  · rcases mem_append.mp mem with mem | mem
    · exact tag c mem
    · exact isPlain_digits k c mem
  · exact last c mem

theorem ruleName_ne (m : Nat) : ruleName m ≠ "" := by
  simp [ruleName]

theorem infer_cases {forest : Source.Forest} {name : String} {before after : List Source.Node} {r : Rule}
    (inferred : infer forest name before after = .ok (some r)) : ∃ n text, ruleFor name n text = .ok r := by
  unfold infer at inferred
  split at inferred
  · cases inferred
  · cases inferred
  · obtain ⟨r', made, inferred⟩ := bind_cases inferred
    cases inferred
    exact create_cases made

theorem keepsPlace_ruleName (m : Nat) : (Value.str (ruleName m)).KeepsPlace := by
  rintro s same
  cases same
  simp [ruleName]

end Inference

namespace Agent

open Inference (ruleName Replaces)
open Source (Node)

structure IsInferred (g : Graph) : Prop where
  rules : ∀ r ∈ g.rules, ∃ m n text, ruleFor (ruleName m) n text = .ok r
  edges : ∀ edge ∈ g.edges, ∃ source targets, edge = .dict [("from", source), ("to", .list targets), ("scope", .str "File")] ∧
    ∀ v ∈ source :: targets, ∃ r ∈ g.rules, r.name = v

variable {s s' : Session} {g : Graph} {r : Rule} {text : String}

theorem ruleOf_name {rules : List (String × Rule)} {x : String} {v : Value} (found : ruleOf rules x = .ok v) : ∃ r ∈ rules.map Prod.snd, r.name = v := by
  unfold ruleOf at found
  split at found
  · rename_i name rule first
    cases found
    exact ⟨rule, mem_map_of_mem (mem_of_find?_eq_some first), rfl⟩
  · cases found

theorem inferPair_cases {p : Inference.Pair} {e : String × Rule} (done : (inferPair p).run s = (.ok e, s')) :
    ∃ m n text, ruleFor (ruleName m) n text = .ok e.2 := by
  obtain ⟨_, s₁, -, done⟩ := run_bind_cases done
  obtain ⟨s₂, s₃, -, done⟩ := run_bind_cases done
  obtain ⟨o, s₄, lifted, done⟩ := run_bind_cases done
  have inferred := (run_liftExcept_cases lifted).1
  cases o with
  | none => cases done
  | some r =>
    cases done
    exact ⟨_, infer_cases inferred⟩

theorem inferGraph_cases (done : inferGraph.run s = (.ok g, s')) : IsInferred g := by
  obtain ⟨_, s₁, -, done⟩ := run_bind_cases done
  obtain ⟨source, s₂, -, done⟩ := run_bind_cases done
  obtain ⟨target, s₃, -, done⟩ := run_bind_cases done
  obtain ⟨templates, s₄, -, done⟩ := run_bind_cases done
  obtain ⟨rules, s₅, inferred, done⟩ := run_bind_cases done
  obtain ⟨edges, s₆, lifted, done⟩ := run_bind_cases done
  have drawn := (run_liftExcept_cases lifted).1
  cases done
  refine ⟨?_, ?_⟩
  · intro r mem
    obtain ⟨e, present, rfl⟩ := mem_map.mp mem
    obtain ⟨p, -, t, t', one⟩ := forall₂_mem_right (run_mapM_cases inferred) present
    exact inferPair_cases one
  · intro edge mem
    obtain ⟨e, -, one⟩ := forall₂_mem_right (mapM_ok_iff.mp drawn) mem
    obtain ⟨source, first, one⟩ := bind_cases one
    obtain ⟨targets, others, one⟩ := bind_cases one
    cases one
    refine ⟨source, targets, rfl, ?_⟩
    intro v mem
    rcases mem_cons.mp mem with rfl | mem
    · exact ruleOf_name first
    · obtain ⟨x, -, found⟩ := forall₂_mem_right (mapM_ok_iff.mp others) mem
      exact ruleOf_name found

section

variable (inferred : IsInferred g)
include inferred

theorem IsInferred.names (mem : r ∈ g.rules) : ∃ m, r.name = .str (ruleName m) := by
  obtain ⟨m, n, text, made⟩ := inferred.rules r mem
  obtain ⟨query, node, replace, rfl⟩ := ruleFor_ok made
  exact ⟨m, rfl⟩

theorem IsInferred.rule (mem : r ∈ g.rules) (legible : r.Legible) (fuel : Nat) : r.Printable ∧ r.reread fuel = some r.trimmed := by
  obtain ⟨m, n, text, made⟩ := inferred.rules r mem
  obtain ⟨k, query, replace, rfl, -, -⟩ := ruleFor_query made
  obtain ⟨⟨q, sameQuery, clearQuery⟩, ⟨p, sameReplace, clearReplace⟩⟩ := legible
  cases sameQuery
  cases sameReplace
  have node := isPlain_node k
  refine ⟨?_, ?_⟩
  · exact {
      name := .inr ⟨ruleName m, rfl, isPlain_ruleName m⟩
      named := by simp [Rule.plain, ruleName_ne]
      query := .inr ⟨query, rfl, fun _ => clearQuery.held⟩
      replaceNode := .inr ⟨_, rfl, node⟩
      replace := .inr ⟨replace, rfl, fun filled => (clearReplace.resolve_left filled).held⟩
      groups := .inl rfl
      holes := .inl rfl
      filters := by simp [Rule.plain]
      isSeed := ⟨true, rfl⟩ }
  · simp only [Rule.reread, bind, Option.bind_eq_some_iff, pure, Option.some.injEq]
    refine ⟨none, rfl, none, rfl, [], rfl, .set [], rfl, .set [], rfl, ?_⟩
    simp only [Rule.plain, Rule.trimmed, longField_trimmed (.inr clearQuery), longField_trimmed clearReplace, shown, mergeSort_nil]
    rfl

theorem IsInferred.edge {edge : Value} (mem : edge ∈ g.edges) :
    (∃ source targets, Graph.IsPlainEdge edge (.str "File") source targets) ∧ Graph.EdgeSurvives edge := by
  obtain ⟨source, targets, rfl, names⟩ := inferred.edges edge mem
  have named : ∀ v ∈ source :: targets, ∃ m, v = .str (ruleName m) := by
    intro v mem
    obtain ⟨r, present, rfl⟩ := names v mem
    exact inferred.names present
  obtain ⟨m, rfl⟩ := named source mem_cons_self
  refine ⟨⟨.str (ruleName m), targets, rfl, rfl, rfl, ?_, ?_, ?_⟩, ?_, ?_, ?_, ?_⟩
  · exact .inr ⟨"File", rfl, by decide, by simp [isPlain]⟩
  · exact .inr ⟨ruleName m, rfl, ruleName_ne m, isPlain_ruleName m⟩
  · intro v mem
    obtain ⟨m, rfl⟩ := named v (mem_cons_of_mem _ mem)
    exact ⟨ruleName m, rfl, ruleName_ne m, fun c mem => .inl (isPlain_ruleName m c mem)⟩
  · simp [field?, Entries.get?]
  · simp [field?, Entries.get?]
  · intro v mem
    obtain ⟨m, rfl⟩ := named v (mem_cons_of_mem _ mem)
    exact keepsPlace_ruleName m
  · intro key other
    simp only [mem_cons, not_mem_nil, or_false, not_or] at other
    simp [field?, Entries.get?, eq_comm, other]

theorem IsInferred.reread (legible : ∀ r ∈ g.rules, r.Legible) {fuel : Nat}
    (enough : ∀ edge ∈ g.edges, ((edge.field? "to").getD .null).items.length + 3 ≤ fuel) :
    ∃ edges, g.reread fuel = some ⟨g.rules.map Rule.trimmed, edges⟩ ∧ List.Forall₂ Graph.SameEdge g.edges edges := by
  have rules : g.rules.mapM (Rule.reread fuel) = some (g.rules.map Rule.trimmed) := by
    rw [mapM_some_iff, forall₂_map_right_iff, forall₂_same]
    exact fun r mem => (inferred.rule mem (legible r mem) fuel).2
  have edges : ∃ edges, g.edges.mapM (Graph.rereadEdge fuel) = some edges ∧ List.Forall₂ Graph.SameEdge g.edges edges := by
    rw [mapM_related_iff]
    intro edge mem
    obtain ⟨⟨source, targets, plain⟩, survives⟩ := inferred.edge mem
    have few := enough edge mem
    rw [plain.hasTargets] at few
    exact (Graph.edge_iff plain few).mpr survives
  obtain ⟨edges, read, same⟩ := edges
  refine ⟨edges, ?_, same⟩
  rw [Graph.reread, rules, read]
  rfl

theorem IsInferred.ofToml (filled : g.rules ≠ []) (legible : ∀ r ∈ g.rules, r.Legible) :
    ∃ text edges, g.toml = .ok text ∧ Graph.ofToml text = .ok ⟨g.rules.map Rule.trimmed, edges⟩ ∧ List.Forall₂ Graph.SameEdge g.edges edges := by
  have printable : g.Printable := by
    refine ⟨filled, fun r mem => (inferred.rule mem (legible r mem) 0).1, fun edge mem => ?_⟩
    obtain ⟨⟨source, targets, plain⟩, -⟩ := inferred.edge mem
    exact ⟨_, source, targets, plain.printable⟩
  obtain ⟨text, printed, shape, read⟩ := Graph.ofToml_toml printable
  have few := (Graph.arrays_le g (Graph.allowance text)).2
  rw [← shape] at few
  have enough : ∀ edge ∈ g.edges, ((edge.field? "to").getD .null).items.length + 3 ≤ Graph.allowance text := by
    intro edge mem
    have := few edge mem
    rw [Graph.allowance]
    omega
  obtain ⟨edges, again, same⟩ := inferred.reread legible enough
  exact ⟨text, edges, printed, toOption_eq_some (read.trans again), same⟩

end

theorem inferStatically_cases (done : inferStatically.run s = (.ok text, s')) :
    ∃ g t, inferGraph.run s = (.ok g, t) ∧ g.toml = .ok text := by
  obtain ⟨g, s₁, inferred, done⟩ := run_bind_cases done
  obtain ⟨text', s₂, lifted, done⟩ := run_bind_cases done
  have printed := (run_liftExcept_cases lifted).1
  cases done
  exact ⟨g, s₁, inferred, printed⟩

theorem IsInferred.ofToml_empty (inferred : IsInferred g) (empty : g.rules = []) :
    ∃ text, g.toml = .ok text ∧ Graph.ofToml text = .error (.missingKey (.str "rules")) := by
  obtain ⟨rules, edges⟩ := g
  obtain rfl : rules = [] := empty
  have none : edges = [] := by
    refine eq_nil_iff_forall_not_mem.mpr fun edge mem => ?_
    obtain ⟨source, targets, -, names⟩ := inferred.edges edge mem
    obtain ⟨r, present, -⟩ := names source mem_cons_self
    exact absurd present not_mem_nil
  subst none
  exact ⟨"\n\n\n", rfl, rfl⟩

theorem isWhole_query {m : Nat} {n : Node} (made : ruleFor (ruleName m) n text = .ok r) (single : '\n' ∉ n.kind.toList) :
    r.query.IsWhole ↔ n.children.any Node.named = false := by
  obtain ⟨k, query, replace, rfl, filled, kept⟩ := ruleFor_query made
  rw [← kept single]
  simp [Rule.plain, Value.IsWhole, filled]

/-- If static inference returns a text, it is that of an inferred graph. Without rules it cannot be read. With rules that have clear texts it is read as
the graph, but for blanks and empty texts; it is the same graph exactly if queries and replacements are whole, which the query of a node with
named children is not. -/
theorem inferred_text_reads_back (s s' : Session) (text : String) (done : inferStatically.run s = (.ok text, s')) :
    ∃ g, (inferGraph.run s).1 = .ok g ∧
      (∀ r ∈ g.rules, ∃ n, Replaces r n ∧ ('\n' ∉ n.kind.toList → (r.query.IsWhole ↔ n.children.any Node.named = false))) ∧
      (g.rules = [] → Graph.ofToml text = .error (.missingKey (.str "rules"))) ∧
      (g.rules ≠ [] → (∀ r ∈ g.rules, r.Legible) → ∃ g', Graph.ofToml text = .ok g' ∧
        g'.rules = g.rules.map Rule.trimmed ∧ List.Forall₂ Graph.SameEdge g.edges g'.edges ∧
        (g.Same g' ↔ ∀ r ∈ g.rules, r.query.IsWhole ∧ r.replace.IsWhole)) := by
  obtain ⟨g, t, ran, printed⟩ := inferStatically_cases done
  have inferred := inferGraph_cases ran
  refine ⟨g, by rw [ran], ?_, ?_, ?_⟩
  · intro r mem
    obtain ⟨m, n, text, made⟩ := inferred.rules r mem
    exact ⟨n, ⟨_, text, made⟩, isWhole_query made⟩
  · intro empty
    obtain ⟨text', printed', failed⟩ := inferred.ofToml_empty empty
    rw [printed] at printed'
    cases printed'
    exact failed
  · intro filled legible
    obtain ⟨text', edges, printed', read, same⟩ := inferred.ofToml filled legible
    rw [printed] at printed'
    cases printed'
    refine ⟨_, read, rfl, same, ?_⟩
    have each : List.Forall₂ Rule.Same g.rules (g.rules.map Rule.trimmed) ↔ ∀ r ∈ g.rules, r.query.IsWhole ∧ r.replace.IsWhole := by
      rw [forall₂_map_right_iff, forall₂_same]
      exact forall₂_congr fun r _ => Rule.same_trimmed_iff
    exact ⟨fun same => each.mp same.rules, fun whole => ⟨each.mpr whole, same⟩⟩

def exampleSession (before after : List Node) : Session :=
  { trees := [{ source := "before", root := program 0 before }, { source := "after", root := program 1 after }]
    agent := { source := "before", target := "after" } }

def literalSession : Session :=
  exampleSession
    [leaf "comment" "// 1" [0, 0], leaf "string" "\"on\"" [0, 1], leaf "comment" "// 2" [0, 2], leaf "character" "'#'" [0, 3],
      leaf "comment" "// 1 -> 2" [0, 4]]
    [leaf "comment" "// 1" [1, 0], leaf "string" "\"off\"" [1, 1], leaf "comment" "// 2" [1, 2], leaf "identifier" "y" [1, 3]]

def literalGraph : Graph where
  rules := [Rule.plain "rule_1" "((string ) @tag1n\n(#eq? @tag1n \"\"on\"\"))" "tag1n" "\"off\"",
    Rule.plain "rule_2" "((character ) @tag1n\n(#eq? @tag1n \"'#'\"))" "tag1n" "y"]
  edges := [.dict [("from", .str "rule_1"), ("to", .list [.str "rule_2"]), ("scope", .str "File")]]

theorem literalGraph_legible : ∀ r ∈ literalGraph.rules, r.Legible := by
  simp only [literalGraph, mem_cons, not_mem_nil, or_false, forall_eq_or_imp, forall_eq]
  refine ⟨⟨⟨_, rfl, .inl ⟨by decide +kernel, by decide +kernel⟩⟩, ⟨_, rfl, .inr (.inr ⟨['o', 'f', 'f'], rfl, ?_⟩)⟩⟩,
    ⟨⟨_, rfl, .inl ⟨by decide +kernel, by decide +kernel⟩⟩, ⟨_, rfl, .inr (.inl ⟨by decide +kernel, by decide +kernel⟩)⟩⟩⟩
  exact ⟨by decide +kernel, by decide, by decide, by decide +kernel⟩

theorem literalGraph_whole : ∀ r ∈ literalGraph.rules, r.query.IsWhole ∧ r.replace.IsWhole := by
  have kept : (literalGraph.rules.all fun r => decide (r.query.trimmed = r.query ∧ r.replace.trimmed = r.replace)) := by decide +kernel
  intro r mem
  have one := all_eq_true.mp kept r mem
  rw [decide_eq_true_eq, trimmed_eq_iff, trimmed_eq_iff] at one
  exact one

/-- The rules of literals come back, also a text in quotes. -/
theorem literalSession_reads_back :
    ∃ text g', (inferStatically.run literalSession).1 = .ok text ∧ (inferGraph.run literalSession).1 = .ok literalGraph ∧
      Graph.ofToml text = .ok g' ∧ literalGraph.Same g' := by
  have shown : (inferStatically.run literalSession).1.toOption.isSome = true := by decide +kernel
  have graph : (inferGraph.run literalSession).1.toOption = some literalGraph := by decide +kernel
  obtain ⟨text, known⟩ := Option.isSome_iff_exists.mp shown
  have known := toOption_eq_some known
  obtain ⟨g, built, -, -, reads⟩ := inferred_text_reads_back literalSession _ text (eq_of_fst known)
  rw [built, toOption_ok, Option.some.injEq] at graph
  subst graph
  obtain ⟨g', read, -, -, same⟩ := reads (cons_ne_nil _ _) literalGraph_legible
  exact ⟨text, g', known, built, read, same.mpr literalGraph_whole⟩

def escapeSession : Session :=
  exampleSession [leaf "comment" "// 1" [0, 0], leaf "string" "\"\\d\"" [0, 1]] [leaf "comment" "// 1" [1, 0], leaf "identifier" "x" [1, 1]]

/-- The rule of a text with an escape cannot be read. -/
theorem escapeSession_not_readable :
    ∃ text, (inferStatically.run escapeSession).1 = .ok text ∧ ∀ g, Graph.ofToml text ≠ .ok g := by
  have refused : ((inferStatically.run escapeSession).1.toOption.map fun text => (Graph.ofToml text).isOk) = some false := by decide +kernel
  obtain ⟨text, shown, refused⟩ := Option.map_eq_some_iff.mp refused
  refine ⟨text, toOption_eq_some shown, fun g read => ?_⟩
  rw [read] at refused
  cases refused

end Agent
end Rulewright
