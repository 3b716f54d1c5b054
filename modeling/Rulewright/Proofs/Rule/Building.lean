import Rulewright.Rule.Graph
import Rulewright.Proofs.Runs

/-!
Tables that make a rule graph with a text. The rules have names, neither groups nor holes, and tables for filters; the edges are a
list of tables that say from where to where they go, and in what scope. On any other table the work fails, and never with an error
that an agent or a chat reports.
-/

namespace Rulewright

variable {v : Value} {key : String} {r : Rule} {g : Graph}

open Value Entries Graph

def Failure.isReported : Failure → Bool
  | .agent _ => true
  | .chat _ => true
  | _ => false

def Failure.IsMismatch : Failure → Prop
  | .missingKey _ => True
  | .notIterable _ => True
  | .notSubscriptable _ => True
  | .wrongIndex _ _ => True
  | .unhashable _ => True
  | .notSerializable _ => True
  | .noAttribute _ _ => True
  | .wrongType _ => True
  | _ => False

theorem Failure.IsMismatch.isReported {f : Failure} (mismatch : f.IsMismatch) : f.isReported = false := by
  cases f with
  | agent words => exact mismatch.elim
  | chat words => exact mismatch.elim
  | _ => rfl

section Mismatches

theorem mismatch_lookup (v : Value) (key : String) (default : Value) : FailsOnly Failure.IsMismatch (v.lookup key default) := by
  cases v with
  | dict entries => exact failsOnly_ok _
  | _ => exact failsOnly_error trivial

theorem mismatch_demand (v : Value) (key : String) : FailsOnly Failure.IsMismatch (v.demand key) := by
  cases v with
  | dict entries =>
    rw [demand]
    split
    · exact failsOnly_ok _
    · exact failsOnly_error trivial
  | _ => exact failsOnly_error trivial

theorem mismatch_each (v : Value) : FailsOnly Failure.IsMismatch v.each := by
  cases v with
  | list items => exact failsOnly_ok _
  | str s => exact failsOnly_ok _
  | dict entries => exact failsOnly_ok _
  | _ => exact failsOnly_error trivial

theorem mismatch_collect (members items : List Value) : FailsOnly Failure.IsMismatch (Names.collect members items) := by
  induction items generalizing members with
  | nil => exact failsOnly_ok _
  | cons item rest ih =>
    cases item with
    | list _ => exact failsOnly_error trivial
    | dict _ => exact failsOnly_error trivial
    | _ => exact ih _

theorem mismatch_names (v : Value) : FailsOnly Failure.IsMismatch (Names.ofValue v) := by
  apply (mismatch_each v).bind
  intro items
  apply (mismatch_collect [] items).bind
  intro members
  exact failsOnly_ok _

theorem mismatch_filter (v : Value) : FailsOnly Failure.IsMismatch (Filter.ofTable v) := by
  iterate 8
    apply (mismatch_lookup v _ _).bind
    intro
  exact failsOnly_ok _

theorem mismatch_filters (v : Value) : FailsOnly Failure.IsMismatch (Rule.filterSet v) := by
  apply (mismatch_each v).bind
  intro items
  apply (FailsOnly.mapM mismatch_filter).bind
  intro filters
  exact failsOnly_ok _

theorem mismatch_rule (v : Value) : FailsOnly Failure.IsMismatch (Rule.ofTable v) := by
  apply (mismatch_demand v _).bind
  intro name
  iterate 3
    apply (mismatch_lookup v _ _).bind
    intro
  iterate 2
    apply (mismatch_lookup v _ _).bind
    intro given
    apply (mismatch_names given).bind
    intro
  apply (mismatch_lookup v _ _).bind
  intro given
  apply (mismatch_filters given).bind
  intro filters
  apply (mismatch_lookup v _ _).bind
  intro seed
  exact failsOnly_ok _

theorem mismatch_graph (v : Value) : FailsOnly Failure.IsMismatch (ofTable v) := by
  apply (mismatch_demand v _).bind
  intro given
  apply (mismatch_each given).bind
  intro items
  apply (FailsOnly.mapM mismatch_rule).bind
  intro rules
  apply (mismatch_lookup v _ _).bind
  intro edges
  cases edges with
  | list edges => exact failsOnly_ok _
  | _ => exact failsOnly_error trivial

theorem mismatch_namesLine (key : String) (names : Names) : FailsOnly Failure.IsMismatch (Rule.namesLine key names) := by
  unfold Rule.namesLine
  split
  · cases names with
    | given v => exact failsOnly_ok _
    | set members => exact failsOnly_error trivial
  · exact failsOnly_ok _

theorem mismatch_ruleText (r : Rule) : FailsOnly Failure.IsMismatch r.toml := by
  apply (mismatch_namesLine _ _).bind
  intro groups
  apply (mismatch_namesLine _ _).bind
  intro holes
  exact failsOnly_ok _

theorem mismatch_edgeText (edge : Value) : FailsOnly Failure.IsMismatch (edgeToml edge) := by
  iterate 3
    apply (mismatch_demand edge _).bind
    intro
  exact failsOnly_ok _

theorem mismatch_graphText (g : Graph) : FailsOnly Failure.IsMismatch g.toml := by
  apply (FailsOnly.mapM mismatch_ruleText).bind
  intro rules
  split
  · exact failsOnly_ok _
  · apply (FailsOnly.mapM mismatch_edgeText).bind
    intro edges
    exact failsOnly_ok _

end Mismatches

def Rule.IsSound (v : Value) : Prop :=
  ∃ entries, v = .dict entries ∧ has "name" entries = true ∧
    ((get? "groups" entries).getD (.list [])).each = .ok [] ∧
    ((get? "holes" entries).getD (.list [])).each = .ok [] ∧
    ∃ filters, ((get? "filters" entries).getD (.list [])).each = .ok filters ∧ ∀ f ∈ filters, f.dict?.isSome = true

def Graph.IsSoundEdge (v : Value) : Prop :=
  ∃ entries, v = .dict entries ∧ ∀ key ∈ ["scope", "from", "to"], has key entries = true

def Graph.IsSound (v : Value) : Prop :=
  ∃ entries, v = .dict entries ∧
    (∃ given items, get? "rules" entries = some given ∧ given.each = .ok items ∧ ∀ item ∈ items, Rule.IsSound item) ∧
    ∃ edges, (get? "edges" entries).getD (.list []) = .list edges ∧ ∀ edge ∈ edges, Graph.IsSoundEdge edge

def Value.entry (v : Value) (key : String) (default : Value) : Value := (v.field? key).getD default

theorem demand_field {x : Value} : v.demand key = .ok x ↔ v.field? key = some x := by
  cases v with
  | dict entries => cases known : get? key entries <;> simp [demand, field?, known]
  | _ => simp [demand, field?]

theorem lookup_cases {x default : Value} (found : v.lookup key default = .ok x) : x = v.entry key default := by
  cases v with
  | dict entries =>
    cases found
    rfl
  | _ => cases found

theorem filter_ok_iff : Succeeds (Filter.ofTable v) ↔ v.dict?.isSome := by
  cases v with
  | dict entries => exact ⟨fun _ => rfl, fun _ => ⟨_, rfl⟩⟩
  | _ =>
    constructor
    · rintro ⟨f, made⟩
      cases made
    · intro wrong
      cases wrong

theorem filterSet_ok_iff : Succeeds (Rule.filterSet v) ↔ ∃ filters, v.each = .ok filters ∧ ∀ f ∈ filters, f.dict?.isSome := by
  refine succeeds_bind_iff.trans (exists_congr fun items => and_congr_right fun _ => ?_)
  rw [succeeds_map_iff, succeeds_mapM_iff]
  exact forall₂_congr fun _ _ => filter_ok_iff

theorem insert_ne_nil (members : List Value) (v : Value) : Names.insert members v ≠ [] := by
  unfold Names.insert
  split
  · rename_i found
    rintro rfl
    cases found
  · simp

theorem collect_ne_nil {members items result : List Value} (filled : members ≠ [])
    (collected : Names.collect members items = .ok result) : result ≠ [] := by
  induction items generalizing members with
  | nil =>
    cases collected
    exact filled
  | cons item rest ih =>
    cases item with
    | list _ => cases collected
    | dict _ => cases collected
    | _ => exact ih (insert_ne_nil _ _) collected

theorem collect_nil_iff {items : List Value} : Names.collect [] items = .ok [] ↔ items = [] := by
  constructor
  · intro collected
    cases items with
    | nil => rfl
    | cons item rest =>
      cases item with
      | list _ => cases collected
      | dict _ => cases collected
      | _ => exact absurd rfl (collect_ne_nil (insert_ne_nil _ _) collected)
  · rintro rfl
    rfl

theorem names_empty_iff : Names.ofValue v = .ok (.set []) ↔ v.each = .ok [] := by
  constructor
  · intro made
    obtain ⟨items, listed, made⟩ := bind_cases made
    obtain ⟨members, collected, made⟩ := bind_cases made
    cases made
    rw [listed, collect_nil_iff.mp collected]
  · intro listed
    rw [Names.ofValue, listed]
    rfl

theorem namesLine_ok_iff {names : Names} (made : Names.ofValue v = .ok names) (key : String) :
    Succeeds (Rule.namesLine key names) ↔ names = .set [] := by
  obtain ⟨items, -, made⟩ := bind_cases made
  obtain ⟨members, -, made⟩ := bind_cases made
  cases made
  cases members with
  | nil => exact ⟨fun _ => rfl, fun _ => ⟨[], rfl⟩⟩
  | cons member members =>
    constructor
    · rintro ⟨line, wrong⟩
      cases wrong
    · intro wrong
      cases wrong

structure Rule.Made (v : Value) (r : Rule) : Prop where
  name : v.field? "name" = some r.name
  query : r.query = v.entry "query" .null
  replaceNode : r.replaceNode = v.entry "replace_node" .null
  replace : r.replace = v.entry "replace" .null
  groups : Names.ofValue (v.entry "groups" (.list [])) = .ok r.groups
  holes : Names.ofValue (v.entry "holes" (.list [])) = .ok r.holes
  filters : Rule.filterSet (v.entry "filters" (.list [])) = .ok r.filters
  isSeed : r.isSeed = v.entry "is_seed_rule" (.bool true)

theorem Rule.ofTable_ok_iff : Rule.ofTable v = .ok r ↔ Rule.Made v r := by
  constructor
  · intro made
    obtain ⟨name, named, made⟩ := bind_cases made
    obtain ⟨query, asked, made⟩ := bind_cases made
    obtain ⟨node, replaced, made⟩ := bind_cases made
    obtain ⟨replace, replacing, made⟩ := bind_cases made
    obtain ⟨given, found, made⟩ := bind_cases made
    obtain ⟨groups, grouped, made⟩ := bind_cases made
    obtain ⟨given', found', made⟩ := bind_cases made
    obtain ⟨holes, holed, made⟩ := bind_cases made
    obtain ⟨given'', found'', made⟩ := bind_cases made
    obtain ⟨filters, filtered, made⟩ := bind_cases made
    obtain ⟨seed, seeded, made⟩ := bind_cases made
    cases made
    rw [lookup_cases found] at grouped
    rw [lookup_cases found'] at holed
    rw [lookup_cases found''] at filtered
    exact ⟨demand_field.mp named, lookup_cases asked, lookup_cases replaced, lookup_cases replacing, grouped, holed, filtered,
      lookup_cases seeded⟩
  · intro made
    cases v with
    | dict entries =>
      obtain ⟨named, query, node, replace, grouped, holed, filtered, seed⟩ := made
      simp only [entry, field?] at named query node replace grouped holed filtered seed
      simp only [Rule.ofTable, demand, lookup, named, grouped, holed, filtered, ← query, ← node, ← replace, ← seed, bind, Except.bind]
      rfl
    | _ => cases made.name

theorem rule_ok_iff : (∃ r, Rule.Made v r ∧ Succeeds r.toml) ↔ Rule.IsSound v := by
  constructor
  · rintro ⟨r, made, text, printed⟩
    obtain ⟨line, first, printed⟩ := bind_cases printed
    obtain ⟨line', second, -⟩ := bind_cases printed
    have groups := made.groups
    have holes := made.holes
    rw [(namesLine_ok_iff groups _).mp ⟨line, first⟩] at groups
    rw [(namesLine_ok_iff holes _).mp ⟨line', second⟩] at holes
    have filters := filterSet_ok_iff.mp ⟨_, made.filters⟩
    cases v with
    | dict entries => exact ⟨entries, rfl, Option.isSome_of_eq_some made.name, names_empty_iff.mp groups, names_empty_iff.mp holes, filters⟩
    | _ => cases made.name
  · rintro ⟨entries, rfl, named, groups, holes, filters⟩
    obtain ⟨name, known⟩ := Option.isSome_iff_exists.mp named
    obtain ⟨fs, filtered⟩ := filterSet_ok_iff.mpr filters
    exact ⟨⟨name, _, _, _, _, _, fs, _⟩, ⟨known, rfl, rfl, rfl, names_empty_iff.mpr groups, names_empty_iff.mpr holes, filtered, rfl⟩, _, rfl⟩

theorem soundEdge_iff : Graph.IsSoundEdge v ↔
    ∃ scope, v.field? "scope" = some scope ∧ ∃ source, v.field? "from" = some source ∧ ∃ targets, v.field? "to" = some targets := by
  cases v with
  | dict entries => simp [Graph.IsSoundEdge, has, Option.isSome_iff_exists, field?]
  | _ => simp [Graph.IsSoundEdge, field?]

theorem edge_ok_iff : Succeeds (edgeToml v) ↔ Graph.IsSoundEdge v := by
  simp only [edgeToml, succeeds_bind_iff, demand_field, succeeds_pure, and_true, soundEdge_iff]

theorem graphText_ok_iff :
    Succeeds g.toml ↔ (∀ r ∈ g.rules, Succeeds r.toml) ∧ ∀ edge ∈ g.edges, Graph.IsSoundEdge edge := by
  rw [← succeeds_mapM_iff]
  refine succeeds_bind_iff.trans ((exists_congr fun rules => and_congr_right fun _ => ?_).trans exists_and_right)
  cases g.edges with
  | nil => exact ⟨fun _ => by simp, fun _ => ⟨_, rfl⟩⟩
  | cons edge edges =>
    simp only [← edge_ok_iff, ← succeeds_mapM_iff]
    exact succeeds_map_iff

theorem Graph.ofTable_ok_iff : ofTable v = .ok g ↔
    (∃ given items, v.field? "rules" = some given ∧ given.each = .ok items ∧ List.Forall₂ Rule.Made items g.rules) ∧
      v.entry "edges" (.list []) = .list g.edges := by
  constructor
  · intro made
    obtain ⟨given, found, made⟩ := bind_cases made
    obtain ⟨items, listed, made⟩ := bind_cases made
    obtain ⟨rules, read, made⟩ := bind_cases made
    obtain ⟨edges, found', made⟩ := bind_cases made
    have joined := lookup_cases found'
    cases edges with
    | list edges =>
      cases made
      exact ⟨⟨given, items, demand_field.mp found, listed, (mapM_ok_iff.mp read).imp fun _ _ => Rule.ofTable_ok_iff.mp⟩, joined.symm⟩
    | _ => cases made
  · rintro ⟨⟨given, items, known, listed, each⟩, joined⟩
    have read := mapM_ok_iff.mpr (each.imp fun _ _ => Rule.ofTable_ok_iff.mpr)
    cases v with
    | dict entries =>
      have known : get? "rules" entries = some given := known
      have joined : (get? "edges" entries).getD (.list []) = .list g.edges := joined
      simp only [ofTable, demand, known, lookup, bind, Except.bind, listed, read, joined]
      rfl
    | _ => cases known

theorem graph_ok_iff : (∃ g text, ofTable v = .ok g ∧ g.toml = .ok text) ↔ Graph.IsSound v := by
  constructor
  · rintro ⟨g, text, made, printed⟩
    obtain ⟨⟨given, items, known, listed, each⟩, joined⟩ := Graph.ofTable_ok_iff.mp made
    obtain ⟨lines, ends⟩ := graphText_ok_iff.mp ⟨text, printed⟩
    cases v with
    | dict entries =>
      refine ⟨entries, rfl, ⟨given, items, known, listed, fun item inside => ?_⟩, g.edges, joined, ends⟩
      obtain ⟨r, member, made⟩ := forall₂_mem_left each inside
      exact rule_ok_iff.mp ⟨r, made, lines r member⟩
    | _ => cases known
  · rintro ⟨entries, rfl, ⟨given, items, known, listed, each⟩, edges, joined, ends⟩
    obtain ⟨rules, made⟩ := forall₂_of_forall fun item inside => rule_ok_iff.mpr (each item inside)
    have printed : ∀ r ∈ rules, Succeeds r.toml := by
      intro r member
      obtain ⟨item, -, -, printed⟩ := forall₂_mem_right made member
      exact printed
    obtain ⟨text, whole⟩ := graphText_ok_iff (g := ⟨rules, edges⟩) |>.mpr ⟨printed, ends⟩
    exact ⟨⟨rules, edges⟩, text, Graph.ofTable_ok_iff.mpr ⟨⟨given, items, known, listed, made.imp fun _ _ both => both.1⟩, joined⟩, whole⟩

end Rulewright
