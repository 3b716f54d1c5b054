import Rulewright.Proofs.Rule.Survival

/-!
The round trip of rule graphs through their printed text. A graph of plain texts with at least one rule can be printed, and what is read from the
text is the same graph exactly if the graph survives: if its long texts keep their lines, its arrays their texts and its numbers their digits, every
rule and every end of an edge has a name, and no rule with filters is marked as no seed. The mark of such a rule goes into the table of its last
filter, and the rule comes back as a seed.
-/

open List

namespace Rulewright

open Value
open Toml

namespace Names

def IsPlain (names : Names) : Prop := names = .set [] ∨ ∃ items, names = .given (.list items) ∧ ∀ v ∈ items, v.IsItem

variable {members values found : List Value} {v : Value} {s : String}

theorem equals_str : v.equals (.str s) ↔ v = .str s := by
  have same : v.equals (.str s) = (v == .str s) := by
    rw [equals]
    cases v.integer? <;> rfl
  rw [same, beq_iff_eq]

theorem mem_insert_str : v ∈ insert members (.str s) ↔ v ∈ members ∨ v = .str s := by
  rw [insert]
  split
  next known =>
    obtain ⟨w, present, same⟩ := any_eq_true.mp known
    rw [equals_str] at same
    subst same
    constructor
    · exact .inl
    · rintro (present | rfl)
      · exact present
      · assumption
  next => simp

theorem mem_insert (known : v ∈ members) (w : Value) : v ∈ insert members w := by
  rw [insert]
  split
  · exact known
  · exact mem_append_left _ known

theorem collect_texts (members : List Value) (each : ∀ v ∈ values, v.IsItem) : ∃ found, collect members values = .ok found ∧ ∀ v, v ∈ found ↔ v ∈ members ∨ v ∈ values := by
  induction values generalizing members with
  | nil => exact ⟨members, rfl, by simp⟩
  | cons value values ih =>
    obtain ⟨s, rfl, -⟩ := each value mem_cons_self
    obtain ⟨found, collected, same⟩ := ih (insert members (.str s)) fun v mem => each v (mem_cons_of_mem _ mem)
    refine ⟨found, collected, fun v => ?_⟩
    rw [same, mem_insert_str, mem_cons]
    tauto

theorem mem_collect (collected : collect members values = .ok found) (known : .str s ∈ members ∨ .str s ∈ values) : .str s ∈ found := by
  induction values generalizing members with
  | nil =>
    cases collected
    simpa using known
  | cons value values ih =>
    have next (kept : collect (insert members value) values = .ok found) : str s ∈ found := by
      refine ih kept ?_
      rcases known with known | known
      · exact .inl (mem_insert known value)
      · rcases mem_cons.mp known with rfl | known
        · exact .inl (mem_insert_str.mpr (.inr rfl))
        · exact .inr known
    cases value with
    | list items => cases collected
    | dict entries => cases collected
    | _ => exact next collected

theorem ofValue_list (values : List Value) : ofValue (.list values) = (collect [] values).map .set := by
  change (collect [] values >>= fun members => pure (Names.set members)) = _
  cases collect [] values <;> rfl

theorem reread_iff {names : Names} {fuel : Nat} (plain : names.IsPlain) (enough : names.members.length + 3 ≤ fuel) :
    (∃ found read, itemsField fuel names.members = some found ∧ ofValue (found.getD (.list [])) = .ok read ∧ ∀ v, v ∈ read.members ↔ v ∈ names.members) ↔
      ∀ v ∈ names.members, v.KeepsPlace := by
  have each : ∀ v ∈ names.members, v.IsItem := by
    rcases plain with rfl | ⟨items, rfl, each⟩
    · simp [members]
    · exact each
  constructor
  · rintro ⟨found, read, listed, collected, same⟩
    by_contra stray
    obtain ⟨values, known, empty⟩ := itemsField_stray each stray (by omega) listed
    rw [known, ofValue_list] at collected
    cases set : collect [] values with
    | error f =>
      rw [set] at collected
      cases collected
    | ok members =>
      rw [set] at collected
      cases collected
      exact not_isItem_empty (each _ ((same _).mp (mem_collect set (.inr empty))))
  · intro keeps
    obtain ⟨found, listed, same⟩ := itemsField_keeps each keeps enough
    obtain ⟨set, collected, members⟩ := collect_texts [] each
    refine ⟨found, .set set, listed, ?_, ?_⟩
    · rw [same, ofValue_list, collected]
      rfl
    · simpa [Names.members] using members

end Names

namespace Rule

structure IsPlain (r : Rule) : Prop where
  name : r.name.IsShortText
  query : r.query.IsLongText
  replaceNode : r.replaceNode.IsShortText
  replace : r.replace.IsLongText
  groups : r.groups.IsPlain
  holes : r.holes.IsPlain
  filters : ∀ f ∈ r.filters, f.IsPlain
  isSeed : ∃ b, r.isSeed = .bool b

structure Survives (r : Rule) : Prop where
  name : r.name ≠ .null
  query : r.query.KeepsLines
  replace : r.replace.KeepsLines
  groups : ∀ v ∈ r.groups.members, v.KeepsPlace
  holes : ∀ v ∈ r.holes.members, v.KeepsPlace
  filters : ∀ f ∈ r.filters, f.Survives
  isSeed : r.filters = [] ∨ r.isSeed = .bool true

structure Same (r r' : Rule) : Prop where
  name : r'.name = r.name
  query : r'.query = r.query
  replaceNode : r'.replaceNode = r.replaceNode
  replace : r'.replace = r.replace
  isSeed : r'.isSeed = r.isSeed
  groups : ∀ v, v ∈ r'.groups.members ↔ v ∈ r.groups.members
  holes : ∀ v, v ∈ r'.holes.members ↔ v ∈ r.holes.members
  filters : r'.filters.Perm r.filters

variable {r r' : Rule} {fuel : Nat}

theorem IsPlain.printable (plain : r.IsPlain) : r.Printable where
  name := plain.name.isShort.1
  named := plain.name.isShort.2
  query := plain.query.isLong
  replaceNode := plain.replaceNode.isShort.1
  replace := plain.replace.isLong
  groups := plain.groups
  holes := plain.holes
  filters f mem :=
    have filter := plain.filters f mem
    ⟨filter.enclosing.isLong, filter.notEnclosing.isLong, filter.notContains, filter.contains.isLong, filter.bounds⟩
  isSeed := plain.isSeed

def arrays (r : Rule) : List (List Value) := r.groups.members :: r.holes.members :: r.filters.map fun f => f.notContains.items

theorem isSeed_iff :
    (if r.filters.isEmpty then r.isSeed else .bool true) = r.isSeed ↔ r.filters = [] ∨ r.isSeed = .bool true := by
  cases r.filters with
  | nil => simp
  | cons f filters => simp [eq_comm]

theorem reread_iff (plain : r.IsPlain) (enough : ∀ items ∈ r.arrays, items.length + 3 ≤ fuel) :
    (∃ r', r.reread fuel = some r' ∧ r.Same r') ↔ r.Survives := by
  simp only [arrays, mem_cons, mem_map, forall_eq_or_imp, forall_exists_index, and_imp, forall_apply_eq_imp_iff₂] at enough
  obtain ⟨groupsEnough, holesEnough, filtersEnough⟩ := enough
  have groupsIff := Names.reread_iff plain.groups groupsEnough
  have holesIff := Names.reread_iff plain.holes holesEnough
  have filtersIff := Filter.perm_iff plain.filters filtersEnough
  simp only [reread, bind, Option.bind_eq_some_iff, pure, Option.some.injEq]
  constructor
  · rintro ⟨_, ⟨groups, first, holes, second, filters, third, groupNames, fourth, holeNames, fifth, rfl⟩, same⟩
    exact {
      name := (shown_iff plain.name).mp same.name
      query := (longField_iff plain.query).mp same.query
      replace := (longField_iff plain.replace).mp same.replace
      groups := groupsIff.mp ⟨groups, groupNames, first, toOption_eq_some fourth, same.groups⟩
      holes := holesIff.mp ⟨holes, holeNames, second, toOption_eq_some fifth, same.holes⟩
      filters := filtersIff.mp ⟨filters, third, (mergeSort_perm _ _).symm.trans same.filters⟩
      isSeed := isSeed_iff.mp same.isSeed }
  · intro survives
    obtain ⟨groups, groupNames, first, fourth, sameGroups⟩ := groupsIff.mpr survives.groups
    obtain ⟨holes, holeNames, second, fifth, sameHoles⟩ := holesIff.mpr survives.holes
    obtain ⟨filters, third, perm⟩ := filtersIff.mpr survives.filters
    refine ⟨_, ⟨groups, first, holes, second, filters, third, groupNames, by rw [fourth]; rfl, holeNames, by rw [fifth]; rfl, rfl⟩, ?_⟩
    exact {
      name := (shown_iff plain.name).mpr survives.name
      query := (longField_iff plain.query).mpr survives.query
      replaceNode := shortField_eq plain.replaceNode
      replace := (longField_iff plain.replace).mpr survives.replace
      isSeed := isSeed_iff.mpr survives.isSeed
      groups := sameGroups
      holes := sameHoles
      filters := (mergeSort_perm _ _).trans perm }

end Rule

namespace Graph

structure IsPlainEdge (edge scope source : Value) (targets : List Value) : Prop where
  hasScope : edge.field? "scope" = some scope
  hasSource : edge.field? "from" = some source
  hasTargets : edge.field? "to" = some (.list targets)
  scope : scope.IsShortText
  source : source.IsShortText
  targets : ∀ v ∈ targets, v.IsItem

structure EdgeSurvives (edge : Value) : Prop where
  scope : edge.field? "scope" ≠ some .null
  source : edge.field? "from" ≠ some .null
  targets : ∀ v ∈ ((edge.field? "to").getD .null).items, v.KeepsPlace
  others : ∀ key ∉ ["scope", "from", "to"], edge.field? key = none

def SameEdge (edge edge' : Value) : Prop := ∀ key, edge'.field? key = edge.field? key

variable {g : Graph} {fuel bound : Nat} {edge scope source : Value} {targets items : List Value}

theorem IsPlainEdge.printable (plain : IsPlainEdge edge scope source targets) : PrintableEdge edge scope source targets :=
  ⟨plain.hasScope, plain.hasSource, plain.hasTargets, plain.scope.isShort, plain.source.isShort, plain.targets⟩

theorem field?_edge (scope source targets : Value) (key : String) : (dict [("scope", scope), ("from", source), ("to", targets)]).field? key =
    if key = "scope" then some scope else if key = "from" then some source else if key = "to" then some targets else none := by
  simp only [field?, Entries.get?, eq_comm]

theorem edge_iff (plain : IsPlainEdge edge scope source targets) (enough : targets.length + 3 ≤ fuel) :
    (∃ edge', rereadEdge fuel edge = some edge' ∧ SameEdge edge edge') ↔ EdgeSurvives edge := by
  have listed : ((edge.field? "to").getD .null).items = targets := by
    rw [plain.hasTargets]
    rfl
  rw [rereadEdge, listed, plain.hasScope, plain.hasSource]
  constructor
  · rintro ⟨edge', again, same⟩
    obtain ⟨found, targetsRead, rfl⟩ : ∃ found, itemsRead fuel targets = some found ∧ _ = edge' := by
      simpa [Option.bind_eq_some_iff] using again
    simp only [SameEdge, field?_edge] at same
    have sameScope : some (str scope.shown) = some scope := by simpa [plain.hasScope] using same "scope"
    have sameSource : some (str source.shown) = some source := by simpa [plain.hasSource] using same "from"
    have sameTargets : some found = some (.list targets) := by simpa [plain.hasTargets] using same "to"
    rw [Option.some.injEq] at sameScope sameSource sameTargets
    refine ⟨?_, ?_, ?_, fun key other => ?_⟩
    · rw [plain.hasScope]
      simpa using (shown_iff plain.scope).mp sameScope
    · rw [plain.hasSource]
      simpa using (shown_iff plain.source).mp sameSource
    · rw [listed]
      by_contra stray
      obtain ⟨values, known, empty⟩ := itemsRead_stray plain.targets stray (by omega) targetsRead
      rw [sameTargets, list.injEq] at known
      exact not_isItem_empty (plain.targets _ (known ▸ empty))
    · simp only [mem_cons, not_mem_nil, or_false, not_or] at other
      rw [← same key, if_neg other.1, if_neg other.2.1, if_neg other.2.2]
  · intro survives
    have keeps := survives.targets
    rw [listed] at keeps
    rw [itemsRead_keeps plain.targets keeps enough]
    refine ⟨_, rfl, fun key => ?_⟩
    have scopeShown := (shown_iff plain.scope).mpr fun wrong => survives.scope (by rw [plain.hasScope, wrong])
    have sourceShown := (shown_iff plain.source).mpr fun wrong => survives.source (by rw [plain.hasSource, wrong])
    simp only [Option.getD_some, scopeShown, sourceShown, field?_edge]
    by_cases isScope : key = "scope"
    · rw [if_pos isScope, isScope, plain.hasScope]
    by_cases isSource : key = "from"
    · rw [if_neg isScope, if_pos isSource, isSource, plain.hasSource]
    by_cases isTargets : key = "to"
    · rw [if_neg isScope, if_neg isSource, if_pos isTargets, isTargets, plain.hasTargets]
    · rw [if_neg isScope, if_neg isSource, if_neg isTargets, survives.others key (by simp [isScope, isSource, isTargets])]

theorem length_array_le (fuel : Nat) (key : String) (items : List Value) :
    items.length ≤ (Entry.array fuel key (items.map fun v => v.shown.toList)).chunk.1.length := by
  have filled : ∀ part ∈ ((items.map fun v => v.shown.toList).map escapeLines).map Scan.quoted, part ≠ [] := by
    intro part mem
    obtain ⟨text, -, rfl⟩ := mem_map.mp mem
    simp [Scan.quoted]
  have parts := @Text.length_parts_le _ [',', ' '] _ filled
  simp only [Entry.array, Entry.chunk, Scan.array, length_map, length_append, length_cons] at parts ⊢
  omega

structure IsPlain (g : Graph) : Prop where
  filled : g.rules ≠ []
  rules : ∀ r ∈ g.rules, r.IsPlain
  edges : ∀ edge ∈ g.edges, ∃ scope source targets, IsPlainEdge edge scope source targets

structure Survives (g : Graph) : Prop where
  rules : ∀ r ∈ g.rules, r.Survives
  edges : ∀ edge ∈ g.edges, EdgeSurvives edge

structure Same (g g' : Graph) : Prop where
  rules : List.Forall₂ Rule.Same g.rules g'.rules
  edges : List.Forall₂ SameEdge g.edges g'.edges

theorem IsPlain.printable (plain : g.IsPlain) : g.Printable where
  filled := plain.filled
  rules r mem := (plain.rules r mem).printable
  edges edge mem := by
    obtain ⟨scope, source, targets, known⟩ := plain.edges edge mem
    exact ⟨scope, source, targets, known.printable⟩

theorem length_items_le (fuel : Nat) (key : String) (each : ∀ e ∈ itemsEntry fuel key items, e.chunk.1.length ≤ bound) :
    items.length ≤ bound := by
  cases items with
  | nil => exact Nat.zero_le _
  | cons item items =>
    refine le_trans ?_ (each (.array fuel key ((item :: items).map fun v => v.shown.toList)) (by simp [itemsEntry]))
    exact length_array_le fuel key (item :: items)

theorem length_chunk_le {chunk : List Char × List Char} (part : (∃ r ∈ g.rules, chunk ∈ (r.table fuel).chunks) ∨
    ∃ edge ∈ g.edges, chunk ∈ Sheet.edgeChunks (edgeTable fuel edge)) : chunk.1.length ≤ (g.sheet fuel).text.length := by
  refine Text.length_le_intercalate (mem_map_of_mem (mem_append.mpr ?_))
  rcases part with ⟨r, mem, part⟩ | ⟨edge, mem, part⟩
  · exact .inl (Text.mem_intercalate_of_mem (mem_map_of_mem (mem_map_of_mem mem)) part)
  · right
    rw [if_neg (by simp [sheet, ne_nil_of_mem mem])]
    exact Text.mem_intercalate_of_mem (mem_map_of_mem (mem_map_of_mem mem)) part

theorem arrays_le (g : Graph) (fuel : Nat) :
    (∀ r ∈ g.rules, ∀ items ∈ r.arrays, items.length ≤ (g.sheet fuel).text.length) ∧
      ∀ edge ∈ g.edges, ((edge.field? "to").getD .null).items.length ≤ (g.sheet fuel).text.length := by
  constructor
  · intro r mem
    have front {e : Entry} (inside : e ∈ r.front fuel) : e.chunk.1.length ≤ (g.sheet fuel).text.length := by
      refine length_chunk_le (.inl ⟨r, mem, ?_⟩)
      rw [Rule.table, RuleTable.chunks_extend, RuleTable.chunks, RuleTable.body]
      simp [mem_map_of_mem inside]
    have filter {f : Filter} (known : f ∈ r.filters) {e : Entry} (inside : e ∈ f.table fuel) : e.chunk.1.length ≤ (g.sheet fuel).text.length := by
      refine length_chunk_le (.inl ⟨r, mem, ?_⟩)
      rw [Rule.table, RuleTable.chunks_extend]
      refine mem_append_left _ (mem_cons_of_mem _ (mem_append_right _ (mem_flatMap.mpr ⟨f.table fuel, mem_map_of_mem known, ?_⟩)))
      exact mem_cons_of_mem _ (mem_map_of_mem inside)
    simp only [Rule.arrays, mem_cons, mem_map, forall_eq_or_imp, forall_exists_index, and_imp, forall_apply_eq_imp_iff₂]
    exact ⟨length_items_le fuel "groups" fun e inside => front (by simp [Rule.front, inside]),
      length_items_le fuel "holes" fun e inside => front (by simp [Rule.front, inside]),
      fun f known => length_items_le fuel "not_contains" fun e inside => filter known (by simp [Filter.table, inside])⟩
  · intro edge mem
    refine le_trans (length_array_le fuel "to" _) (length_chunk_le (.inr ⟨edge, mem, ?_⟩))
    simp [Sheet.edgeChunks, edgeTable]

theorem reread_iff (plain : g.IsPlain) (rules : ∀ r ∈ g.rules, ∀ items ∈ r.arrays, items.length + 3 ≤ fuel)
    (edges : ∀ edge ∈ g.edges, ((edge.field? "to").getD .null).items.length + 3 ≤ fuel) :
    (∃ g', g.reread fuel = some g' ∧ g.Same g') ↔ g.Survives := by
  have ruleIff : (∃ found, g.rules.mapM (Rule.reread fuel) = some found ∧ List.Forall₂ Rule.Same g.rules found) ↔ ∀ r ∈ g.rules, r.Survives := by
    rw [mapM_related_iff]
    exact forall₂_congr fun r mem => Rule.reread_iff (plain.rules r mem) (rules r mem)
  have edgeIff : (∃ found, g.edges.mapM (rereadEdge fuel) = some found ∧ List.Forall₂ SameEdge g.edges found) ↔ ∀ edge ∈ g.edges, EdgeSurvives edge := by
    rw [mapM_related_iff]
    refine forall₂_congr fun edge mem => ?_
    obtain ⟨scope, source, targets, known⟩ := plain.edges edge mem
    have few := edges edge mem
    rw [known.hasTargets] at few
    exact edge_iff known few
  constructor
  · rintro ⟨g', read, same⟩
    simp only [reread, bind, Option.bind_eq_some_iff, pure, Option.some.injEq] at read
    obtain ⟨found, ruleRead, drawn, edgeRead, rfl⟩ := read
    exact ⟨ruleIff.mp ⟨found, ruleRead, same.rules⟩, edgeIff.mp ⟨drawn, edgeRead, same.edges⟩⟩
  · rintro ⟨ruleSurvives, edgeSurvives⟩
    obtain ⟨found, ruleRead, sameRules⟩ := ruleIff.mpr ruleSurvives
    obtain ⟨drawn, edgeRead, sameEdges⟩ := edgeIff.mpr edgeSurvives
    refine ⟨⟨found, drawn⟩, ?_, sameRules, sameEdges⟩
    rw [reread, ruleRead, edgeRead]
    rfl

/-- A printed graph of plain texts can be read as the same graph exactly if it survives. -/
theorem printed_comes_back_iff (g : Graph) (plain : g.IsPlain) :
    ∃ text, g.toml = .ok text ∧ ((∃ g', ofToml text = .ok g' ∧ g.Same g') ↔ g.Survives) := by
  obtain ⟨text, printed, shape, read⟩ := ofToml_toml plain.printable
  obtain ⟨rules, edges⟩ := arrays_le g (allowance text)
  rw [← shape] at rules edges
  have again := @reread_iff g (allowance text) plain (fun r mem items inside => ?_) (fun edge mem => ?_)
  · refine ⟨text, printed, ?_⟩
    rw [← again, ← read]
    constructor
    · rintro ⟨g', known, same⟩
      exact ⟨g', by rw [known]; rfl, same⟩
    · rintro ⟨g', known, same⟩
      exact ⟨g', toOption_eq_some known, same⟩
  · have := rules r mem items inside
    rw [allowance]
    omega
  · have := edges edge mem
    rw [allowance]
    omega

def sampleGraph : Graph where
  rules := [
    { name := .str "find_flag", query := .str "(\n(call) @call\n)", replaceNode := .str "call", replace := .str "true"
      groups := .given (.list [.str "clean up"]), holes := .given (.list [.str "flag", .str "value"])
      filters := [
        { enclosing := .str "(class_body) @body", notContains := .list [.str "(comment)\n@c"], atLeast := .int 2 },
        { notEnclosing := .str "(block) @b", atMost := .int (-1) }] },
    { name := .str "delete_import", query := .str "(import) @import", isSeed := .bool false }]
  edges := [.dict [("from", .str "find_flag"), ("to", .list [.str "delete_import"]), ("scope", .str "File")]]

theorem sampleGraph_plain : sampleGraph.IsPlain where
  filled := by decide
  rules := by
    simp only [sampleGraph, mem_cons, not_mem_nil, or_false, forall_eq_or_imp, forall_eq]
    refine ⟨⟨by decide +kernel, by decide +kernel, by decide +kernel, by decide +kernel, .inr ⟨_, rfl, by decide +kernel⟩,
        .inr ⟨_, rfl, by decide +kernel⟩, ?_, true, rfl⟩,
      ⟨by decide +kernel, by decide +kernel, by decide +kernel, by decide +kernel, .inl rfl, .inl rfl, by simp, false, rfl⟩⟩
    simp only [mem_cons, not_mem_nil, or_false, forall_eq_or_imp, forall_eq]
    exact ⟨⟨by decide +kernel, by decide +kernel, ⟨_, rfl, by decide +kernel⟩, by decide +kernel, by simp [unlimited]⟩,
      ⟨by decide +kernel, by decide +kernel, ⟨_, rfl, by decide +kernel⟩, by decide +kernel, by simp [unlimited]⟩⟩
  edges := by
    simp only [sampleGraph, mem_cons, not_mem_nil, or_false, forall_eq]
    exact ⟨.str "File", .str "find_flag", [.str "delete_import"], rfl, rfl, rfl, by decide +kernel, by decide +kernel, by decide +kernel⟩

theorem sampleGraph_survives : sampleGraph.Survives where
  rules := by
    simp only [sampleGraph, mem_cons, not_mem_nil, or_false, forall_eq_or_imp, forall_eq]
    refine ⟨⟨by decide, by decide +kernel, by decide +kernel, by decide +kernel, by decide +kernel, ?_, .inr rfl⟩,
      ⟨by decide, by decide +kernel, by decide +kernel, by decide +kernel, by decide +kernel, by simp, .inl rfl⟩⟩
    simp only [mem_cons, not_mem_nil, or_false, forall_eq_or_imp, forall_eq]
    exact ⟨⟨by decide +kernel, by decide +kernel, by decide +kernel, by decide +kernel, by decide +kernel⟩,
      ⟨by decide +kernel, by decide +kernel, by decide +kernel, by decide +kernel, by decide +kernel⟩⟩
  edges := by
    simp only [sampleGraph, mem_cons, not_mem_nil, or_false, forall_eq]
    refine ⟨by decide +kernel, by decide +kernel, by decide +kernel, fun key other => ?_⟩
    simp only [mem_cons, not_mem_nil, or_false, not_or] at other
    simp [field?, Entries.get?, eq_comm, other]

theorem sampleGraph_comes_back :
    sampleGraph.IsPlain ∧ ∃ text g', sampleGraph.toml = .ok text ∧ ofToml text = .ok g' ∧ sampleGraph.Same g' := by
  refine ⟨sampleGraph_plain, ?_⟩
  obtain ⟨text, printed, comes⟩ := printed_comes_back_iff sampleGraph sampleGraph_plain
  obtain ⟨g', read, same⟩ := comes.mpr sampleGraph_survives
  exact ⟨text, g', printed, read, same⟩

def strandedGraph : Graph where
  rules := [{ name := .str "find_use", query := .str "(identifier) @name", filters := [{ enclosing := .str "(class_body) @body" }], isSeed := .bool false }]
  edges := []

theorem strandedGraph_plain : strandedGraph.IsPlain := by
  refine ⟨by decide, ?_, by simp [strandedGraph]⟩
  simp only [strandedGraph, mem_cons, not_mem_nil, or_false, forall_eq]
  refine ⟨by decide +kernel, by decide +kernel, by decide +kernel, by decide +kernel, .inl rfl, .inl rfl, ?_, false, rfl⟩
  simp only [mem_cons, not_mem_nil, or_false, forall_eq]
  exact ⟨by decide +kernel, by decide +kernel, ⟨[], rfl, by simp⟩, by decide +kernel, by simp [unlimited]⟩

/-- The mark of a rule that is no seed is printed into the table of its filter, and the rule is read as a seed. -/
theorem strandedGraph_loses_mark :
    strandedGraph.IsPlain ∧ ∃ text g', strandedGraph.toml = .ok text ∧ ofToml text = .ok g' ∧ g'.rules.map Rule.isSeed = [.bool true] ∧
      ¬ strandedGraph.Same g' := by
  have read : ((strandedGraph.toml.toOption.bind fun text => (ofToml text).toOption).map fun g => g.rules.map Rule.isSeed) = some [.bool true] := by
    decide +kernel
  obtain ⟨g', found, marks⟩ := Option.map_eq_some_iff.mp read
  obtain ⟨text, printed, found⟩ := Option.bind_eq_some_iff.mp found
  refine ⟨strandedGraph_plain, text, g', toOption_eq_some printed, toOption_eq_some found, marks, fun same => ?_⟩
  obtain ⟨r, alone, seed⟩ := map_eq_singleton_iff.mp marks
  have rules := same.rules
  rw [alone, strandedGraph, forall₂_cons] at rules
  have kept := rules.1.isSeed
  rw [seed] at kept
  cases kept

end Graph
end Rulewright
