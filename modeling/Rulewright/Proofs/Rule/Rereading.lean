import Rulewright.Proofs.Rule.Printing

/-!
Reading printed graphs again. The document of a graph that can be printed can be scanned and cut into tables, and each rule, filter and edge is
read from its own. What comes back may differ: a long text loses blanks at the end of its first line, an array is lost at a text that starts with a
comma, a number at too many digits, and the mark of a rule that is no seed if the rule has filters.
-/

open List

namespace Rulewright

variable {keys : List String}

open Toml

namespace Toml

theorem bare_key (key : String) (check : (!key.toList.isEmpty && key.toList.all Scan.isNameChar) := by decide +kernel) : Bare key.toList := by
  rw [Bool.and_eq_true, Bool.not_eq_true', isEmpty_eq_false_iff, all_eq_true] at check
  exact ⟨check.1, check.2⟩

structure Among (fuel : Nat) (keys : List String) (table : List Entry) : Prop where
  reads : ∀ e ∈ table, e.Reads fuel
  names : (table.map Entry.name).Sublist keys

variable {fuel : Nat} {key : String} {v : Value}

theorem Among.append {others : List String} {front back : List Entry} (first : Among fuel keys front) (second : Among fuel others back) :
    Among fuel (keys ++ others) (front ++ back) := by
  refine ⟨fun e mem => ?_, ?_⟩
  · rcases mem_append.mp mem with mem | mem
    · exact first.reads e mem
    · exact second.reads e mem
  · rw [map_append]
    exact first.names.append second.names

theorem Among.table {table : List Entry} (among : Among fuel keys table) (distinct : keys.Nodup) : Table fuel table :=
  ⟨among.reads, distinct.sublist among.names⟩

theorem Among.nil (keys : List String) : Among fuel keys [] := ⟨by simp, by simp⟩

theorem Among.single {e : Entry} (named : e.key = key.toList) (reads : e.Reads fuel) : Among fuel [key] [e] :=
  ⟨by simpa using reads, by simp [Entry.name, named]⟩

theorem Among.option {p : Prop} [Decidable p] {table : List Entry} (among : p → Among fuel keys table) :
    Among fuel keys (if p then table else []) := by
  split
  next holds => exact among holds
  next => exact .nil keys

section

variable (bare : Bare key.toList) {items : List Value}
include bare

theorem among_long (long : v.IsLong) : Among fuel [key] (longEntry key v) := by
  refine .option fun something => ?_
  rcases long with rfl | ⟨s, rfl, held⟩
  · cases something
  · have known := held (by simpa [Value.isSomething] using something)
    exact .single rfl (Entry.long_reads bare known.scans known.closes)

theorem Entry.shown_reads (short : v.IsShort ∧ v ≠ .str "") : (Entry.short key v.shown.toList).Reads fuel := by
  obtain ⟨short, named⟩ := short
  have filled : v.shown.toList ≠ [] := by
    rcases short with rfl | ⟨s, rfl, -⟩
    · simp [Value.shown, Value.written]
    · simpa [Value.shown] using named
  exact short_reads bare (Value.simple_of_plain filled fun c mem => .inl (short.plain c mem)) short.single

theorem Entry.items_reads (each : ∀ v ∈ items, v.IsItem) :
    (Entry.array fuel key (items.map fun v => v.shown.toList)).Reads fuel := by
  refine array_reads bare ?_
  intro text mem
  obtain ⟨v, present, rfl⟩ := mem_map.mp mem
  exact (each v present).simple

theorem among_short (short : v.IsShort) : Among fuel [key] (shortEntry key v) := by
  refine .option fun something => ?_
  refine .single rfl (Entry.shown_reads bare ⟨short, ?_⟩)
  rintro rfl
  cases something

theorem among_items (each : ∀ v ∈ items, v.IsItem) : Among fuel [key] (itemsEntry fuel key items) := by
  unfold itemsEntry
  split
  · exact .nil _
  · exact .single rfl (Entry.items_reads bare each)

theorem among_bound (v default : Value) : Among fuel [key] (boundEntry key v default) := by
  unfold boundEntry
  split
  · exact .nil _
  · exact .single rfl (Entry.number_reads bare _)

end

end Toml

namespace Filter

theorem among {f : Filter} (printable : f.Printable) (fuel : Nat) : Among fuel (fields.drop 1) (f.table fuel) := by
  obtain ⟨items, list, each⟩ := printable.notContains
  have array : Among fuel ["not_contains"] (itemsEntry fuel "not_contains" f.notContains.items) := by
    rw [list]
    exact among_items (bare_key _) each
  exact (((((((among_long (bare_key _) printable.enclosing).append
    (among_long (bare_key _) printable.notEnclosing)).append array).append
    (among_long (bare_key _) printable.contains)).append
    (among_bound (bare_key _) _ _)).append
    (among_bound (bare_key _) _ _)).append
    (among_bound (bare_key _) _ _)).append
    (among_bound (bare_key _) _ _)

end Filter

namespace Rule

variable {r : Rule} {fuel : Nat}

theorem among_seed (r : Rule) (fuel : Nat) : Among fuel ["is_seed_rule"] r.seedEntry := by
  unfold seedEntry
  split
  · exact .nil _
  · exact .single rfl (Entry.truth_reads (bare_key _) false)

theorem among_names {key : String} {names : Names} (bare : Bare key.toList)
    (known : names = .set [] ∨ ∃ items, names = .given (.list items) ∧ ∀ v ∈ items, v.IsItem) :
    Among fuel [key] (itemsEntry fuel key names.members) := by
  rcases known with rfl | ⟨items, rfl, each⟩
  · exact .nil _
  · exact among_items bare each

theorem among_front (printable : r.Printable) (fuel : Nat) : Among fuel ["name", "query", "replace_node", "replace", "groups", "holes"] (r.front fuel) := by
  have name : Among fuel ["name"] [.short "name" r.name.shown.toList] :=
    .single rfl (Entry.shown_reads (bare_key _) ⟨printable.name, printable.named⟩)
  exact ((((name.append (among_long (bare_key _) printable.query)).append
    (among_short (bare_key _) printable.replaceNode)).append
    (among_long (bare_key _) printable.replace)).append
    (among_names (bare_key _) printable.groups)).append
    (among_names (bare_key _) printable.holes)

theorem table_reads (printable : r.Printable) (fuel : Nat) : (r.table fuel).Reads fuel := by
  have front := among_front printable fuel
  have seed := among_seed r fuel
  have filters : ∀ table ∈ r.filters.map (Filter.table fuel), Among fuel (Filter.fields.drop 1) table := by
    intro table mem
    obtain ⟨f, present, rfl⟩ := mem_map.mp mem
    exact Filter.among (printable.filters f present) fuel
  have plain {keys : List String} {entries : List Entry} (among : Among fuel keys entries) (other : "filters" ∉ keys) :
      ∀ e ∈ entries, e.name ≠ "filters" :=
    fun e mem same => other (same ▸ among.names.subset (mem_map_of_mem mem))
  rcases RuleTable.extend_cases ⟨r.front fuel, r.filters.map (Filter.table fuel)⟩ r.seedEntry with ⟨none, same⟩ | ⟨others, last, parts, same⟩
  · rw [table, same]
    exact ⟨(front.append seed).table (by decide), plain (front.append seed) (by decide), by simp⟩
  · rw [table, same]
    have parts : r.filters.map (Filter.table fuel) = others ++ [last] := parts
    refine ⟨front.table (by decide), plain front (by decide), ?_⟩
    intro table mem
    rcases mem_append.mp mem with mem | mem
    · exact (filters table (by rw [parts]; exact mem_append_left _ mem)).table (by decide)
    · rw [mem_singleton.mp mem]
      exact ((filters last (by simp [parts])).append seed).table (by decide)

end Rule

namespace Graph

variable {g : Graph} {fuel : Nat}

theorem among_edge {edge : Value} (printable : ∃ scope source targets, PrintableEdge edge scope source targets) (fuel : Nat) :
    Among fuel ["scope", "from", "to"] (edgeTable fuel edge) := by
  obtain ⟨scope, source, targets, printable⟩ := printable
  have scopes : Among fuel ["scope"] [.short "scope" scope.shown.toList] := .single rfl (Entry.shown_reads (bare_key _) printable.scope)
  have sources : Among fuel ["from"] [.short "from" source.shown.toList] := .single rfl (Entry.shown_reads (bare_key _) printable.source)
  have array : Among fuel ["to"] [.array fuel "to" (targets.map fun v => v.shown.toList)] :=
    .single rfl (Entry.items_reads (bare_key _) printable.targets)
  rw [edgeTable, printable.hasScope, printable.hasSource, printable.hasTargets]
  exact (scopes.append sources).append array

theorem sheet_reads (printable : g.Printable) (fuel : Nat) : (g.sheet fuel).Reads fuel := by
  refine ⟨by simpa [sheet] using printable.filled, ?_, ?_⟩
  · intro table mem
    obtain ⟨r, present, rfl⟩ := mem_map.mp mem
    exact Rule.table_reads (printable.rules r present) fuel
  · intro table mem
    obtain ⟨edge, present, rfl⟩ := mem_map.mp mem
    exact (among_edge (printable.edges edge present) fuel).table (by decide)

end Graph

namespace Entries

def field (key : String) (v : Option Value) : Entries := v.toList.map (key, ·)

theorem get?_field (key name : String) (v : Option Value) : get? key (field name v) = if name = key then v else none := by
  cases v <;> simp [field, get?]

end Entries

open Entries (field get?_append get?_field)

namespace Toml

variable {fuel : Nat} {key : String} {v : Value}

def longField (v : Value) : Option Value := if v.isSomething then some (.str (String.ofList (asRead (joinLines v.shown.toList)))) else none

def shortField (v : Value) : Option Value := if v.isSomething then some (.str v.shown) else none

def itemsRead (fuel : Nat) (items : List Value) : Option Value := (Entry.array fuel "" (items.map fun v => v.shown.toList)).value

def itemsField (fuel : Nat) (items : List Value) : Option (Option Value) := if items.isEmpty then some none else (itemsRead fuel items).map some

def boundField (v default : Value) : Option (Option Value) :=
  if v.equals default then some none else (Entry.number "" (v.int?.getD 0)).value.map some

namespace Entry

theorem fields?_append (a b : List Entry) : fields? (a ++ b) = (fields? a).bind fun x => (fields? b).map (x ++ ·) := by
  rw [fields?, mapM_append, ← fields?, ← fields?]
  cases fields? a <;> cases fields? b <;> rfl

theorem fields?_single (e : Entry) : fields? [e] = e.value.map fun v => [(e.name, v)] := by
  rw [fields?, mapM_cons]
  cases e.value <;> rfl

theorem fields?_long (key : String) (v : Value) : fields? (longEntry key v) = some (field key (longField v)) := by
  unfold longEntry longField
  split
  · simp [fields?_single, Entry.long, Entry.name, field]
  · rfl

theorem fields?_short (key : String) (v : Value) : fields? (shortEntry key v) = some (field key (shortField v)) := by
  unfold shortEntry shortField
  split
  · simp [fields?_single, Entry.short, Entry.name, field]
  · rfl

theorem fields?_items (fuel : Nat) (key : String) (items : List Value) : fields? (itemsEntry fuel key items) = (itemsField fuel items).map (field key) := by
  unfold itemsEntry itemsField
  split
  · rfl
  · simp [fields?_single, Entry.array, Entry.name, itemsRead, field, Function.comp_def]

theorem fields?_bound (key : String) (v default : Value) : fields? (boundEntry key v default) = (boundField v default).map (field key) := by
  unfold boundEntry boundField
  split
  · rfl
  · simp [fields?_single, Entry.number, Entry.name, field]

end Entry
end Toml

namespace Filter

def reread (fuel : Nat) (f : Filter) : Option Filter := do
  let notContains ← itemsField fuel f.notContains.items
  let atLeast ← boundField f.atLeast (.int 1)
  let atMost ← boundField f.atMost unlimited
  let childCount ← boundField f.childCount unlimited
  let siblingCount ← boundField f.siblingCount unlimited
  return {
    enclosing := (longField f.enclosing).getD .null
    notEnclosing := (longField f.notEnclosing).getD .null
    notContains := notContains.getD (.list [])
    contains := (longField f.contains).getD .null
    atLeast := atLeast.getD (.int 1)
    atMost := atMost.getD unlimited
    childCount := childCount.getD unlimited
    siblingCount := siblingCount.getD unlimited }

theorem ofTable_table (fuel : Nat) (f : Filter) {extra : List Entry} {others : Entries} (read : Entry.fields? extra = some others)
    (strange : ∀ key ∈ fields, Entries.get? key others = none) :
    ((RuleTable.table? (f.table fuel ++ extra)).bind fun v => (ofTable v).toOption) = f.reread fuel := by
  simp only [fields, mem_cons, not_mem_nil, or_false, forall_eq_or_imp, forall_eq] at strange
  rw [RuleTable.table?, reread, table]
  simp only [Entry.fields?_append, Entry.fields?_long, Entry.fields?_items, Entry.fields?_bound, read]
  cases itemsField fuel f.notContains.items with
  | none => rfl
  | some notContains =>
    cases boundField f.atLeast (.int 1) with
    | none => rfl
    | some atLeast =>
      cases boundField f.atMost unlimited with
      | none => rfl
      | some atMost =>
        cases boundField f.childCount unlimited with
        | none => rfl
        | some childCount =>
          cases boundField f.siblingCount unlimited with
          | none => rfl
          | some siblingCount =>
            simp [ofTable, Value.lookup, get?_append, get?_field, strange, bind, Except.bind, pure, Except.pure, Except.toOption]

end Filter

namespace Rule

variable {r : Rule} {fuel : Nat} {key : String}

def reread (fuel : Nat) (r : Rule) : Option Rule := do
  let groups ← itemsField fuel r.groups.members
  let holes ← itemsField fuel r.holes.members
  let filters ← r.filters.mapM (Filter.reread fuel)
  let groups ← (Names.ofValue (groups.getD (.list []))).toOption
  let holes ← (Names.ofValue (holes.getD (.list []))).toOption
  return {
    name := .str r.name.shown
    query := (longField r.query).getD .null
    replaceNode := (shortField r.replaceNode).getD .null
    replace := (longField r.replace).getD .null
    groups, holes
    filters := filters.mergeSort fun f g => f.toml ≤ g.toml
    isSeed := if r.filters.isEmpty then r.isSeed else .bool true }

def seedFields (r : Rule) : Entries := if r.isSeed.isSomething then [] else [("is_seed_rule", .bool false)]

theorem fields?_seed (r : Rule) : Entry.fields? r.seedEntry = some r.seedFields := by
  unfold seedEntry seedFields
  split <;> rfl

theorem get?_seed (other : key ≠ "is_seed_rule") (r : Rule) : Entries.get? key r.seedFields = none := by
  unfold seedFields
  split
  · rfl
  · simp [Entries.get?, other.symm]

theorem tables_filters (fuel : Nat) (r : Rule) :
    ((r.table fuel).filters.mapM fun table => (RuleTable.table? table).bind fun v => (Filter.ofTable v).toOption) =
      r.filters.mapM (Filter.reread fuel) := by
  have plain (filters : List Filter) :
      ((filters.map (Filter.table fuel)).mapM fun table => (RuleTable.table? table).bind fun v => (Filter.ofTable v).toOption) =
        filters.mapM (Filter.reread fuel) := by
    rw [mapM_map]
    congr 1
    funext f
    have none : Entry.fields? [] = some [] := rfl
    have read := Filter.ofTable_table fuel f none fun _ _ => rfl
    rwa [append_nil] at read
  rcases RuleTable.extend_cases ⟨r.front fuel, r.filters.map (Filter.table fuel)⟩ r.seedEntry with ⟨none, same⟩ | ⟨tables, last, parts, same⟩
  · have none : r.filters = [] := by simpa using none
    rw [table, none]
    rfl
  · obtain ⟨filters, rest, whole, rfl, ending⟩ := map_eq_append_iff.mp parts
    obtain ⟨f, rfl, rfl⟩ := map_eq_singleton_iff.mp ending
    have read := Filter.ofTable_table fuel f (fields?_seed r) fun key mem => get?_seed (by rintro rfl; exact absurd mem (by decide)) r
    rw [table, same, whole, mapM_append, mapM_append, plain, mapM_cons, read]
    rfl

theorem fields?_front (fuel : Nat) (r : Rule) : Entry.fields? (r.front fuel) =
    (itemsField fuel r.groups.members).bind fun groups => (itemsField fuel r.holes.members).map fun holes =>
      field "name" (some (.str r.name.shown)) ++ field "query" (longField r.query) ++ field "replace_node" (shortField r.replaceNode) ++
        field "replace" (longField r.replace) ++ field "groups" groups ++ field "holes" holes := by
  have name : Entry.fields? [.short "name" r.name.shown.toList] = some (field "name" (some (.str r.name.shown))) := by
    simp [Entry.fields?_single, Entry.short, Entry.name, field]
  rw [front]
  simp only [Entry.fields?_append, Entry.fields?_long, Entry.fields?_short, Entry.fields?_items, name]
  cases itemsField fuel r.groups.members with
  | none => rfl
  | some groups => cases itemsField fuel r.holes.members <;> rfl

def markFields (r : Rule) : Entries := if r.filters.isEmpty then r.seedFields else []

theorem fields?_table (fuel : Nat) (r : Rule) : Entry.fields? (r.table fuel).front = (Entry.fields? (r.front fuel)).map (· ++ r.markFields) := by
  rw [markFields]
  rcases RuleTable.extend_cases ⟨r.front fuel, r.filters.map (Filter.table fuel)⟩ r.seedEntry with ⟨none, same⟩ | ⟨tables, last, parts, same⟩
  · have none : r.filters = [] := by simpa using none
    rw [table, same, none, Entry.fields?_append, fields?_seed]
    cases Entry.fields? (r.front fuel) <;> rfl
  · have some : r.filters.isEmpty = false := by
      cases empty : r.filters with
      | nil => simp [empty] at parts
      | cons f filters => rfl
    rw [table, same, some]
    cases Entry.fields? (r.front fuel) <;> simp

theorem filterSet_list (items : List Value) :
    (filterSet (.list items)).toOption = (items.mapM Filter.ofTable).toOption.map fun filters => filters.mergeSort fun f g => f.toml ≤ g.toml := by
  change (items.mapM Filter.ofTable >>= fun filters => pure (filters.mergeSort fun f g => f.toml ≤ g.toml)).toOption = _
  cases items.mapM Filter.ofTable <;> rfl

theorem getD_filters (filters : List Value) : (Entries.get? "filters" (arrayEntry "filters" filters)).getD (.list []) = .list filters := by
  cases filters <;> rfl

theorem get?_filters (other : "filters" ≠ key) (filters : List Value) : Entries.get? key (arrayEntry "filters" filters) = none := by
  unfold arrayEntry
  split
  · rfl
  · simp [Entries.get?, other]

theorem getD_seed (known : ∃ b, r.isSeed = .bool b) :
    (Entries.get? "is_seed_rule" r.markFields).getD (.bool true) = if r.filters.isEmpty then r.isSeed else .bool true := by
  obtain ⟨b, known⟩ := known
  rw [markFields, seedFields, known]
  cases r.filters.isEmpty <;> cases b <;> rfl

theorem get?_mark (other : key ≠ "is_seed_rule") (r : Rule) : Entries.get? key r.markFields = none := by
  unfold markFields
  split
  · exact get?_seed other r
  · rfl

theorem ofTable_table (known : ∃ b, r.isSeed = .bool b) (fuel : Nat) :
    ((r.table fuel).value?.bind fun v => (ofTable v).toOption) = r.reread fuel := by
  have filters := tables_filters fuel r
  rw [← mapM_toOption] at filters
  rw [RuleTable.value?, RuleTable.entries?, reread, ← filters, fields?_table, fields?_front]
  cases itemsField fuel r.groups.members with
  | none => rfl
  | some groups =>
    cases itemsField fuel r.holes.members with
    | none => rfl
    | some holes =>
      cases (r.table fuel).filters.mapM RuleTable.table? with
      | none => rfl
      | some vs =>
        have seed := getD_seed known
        have filters := getD_filters vs
        simp only [ofTable, toOption_bind]
        simp only [Value.demand, Value.lookup, get?_append, get?_field, get?_mark, get?_filters, seed, filters, filterSet_list, toOption_ok,
          Option.bind_some, Option.map_some, Option.bind_map, Option.or_none, Option.none_or, String.reduceEq, ne_eq, not_false_eq_true, if_true,
          if_false, pure, bind]
        cases (Names.ofValue (groups.getD (.list []))).toOption <;> cases (Names.ofValue (holes.getD (.list []))).toOption <;>
          cases (vs.mapM Filter.ofTable).toOption <;> rfl

end Rule

namespace Graph

def rereadEdge (fuel : Nat) (edge : Value) : Option Value := do
  let targets ← itemsRead fuel ((edge.field? "to").getD .null).items
  return .dict [("scope", .str ((edge.field? "scope").getD .null).shown), ("from", .str ((edge.field? "from").getD .null).shown), ("to", targets)]

def reread (fuel : Nat) (g : Graph) : Option Graph := do
  let rules ← g.rules.mapM (Rule.reread fuel)
  let edges ← g.edges.mapM (rereadEdge fuel)
  return { rules, edges }

theorem table_edge (fuel : Nat) (edge : Value) : RuleTable.table? (edgeTable fuel edge) = rereadEdge fuel edge := by
  have array (texts : List Value) : (Entry.array fuel "to" (texts.map fun v => v.shown.toList)).value = itemsRead fuel texts := rfl
  rw [RuleTable.table?, edgeTable, rereadEdge, Entry.fields?, mapM_cons, mapM_cons, mapM_cons, array]
  cases itemsRead fuel ((edge.field? "to").getD .null).items with
  | none => rfl
  | some targets => simp [Entry.short, Entry.name, Entry.array]

theorem ofTable_root {rules : List Value} (filled : rules ≠ []) (edges : List Value) :
    (ofTable (.dict (arrayEntry "rules" rules ++ arrayEntry "edges" edges))).toOption =
      (rules.mapM Rule.ofTable).toOption.map fun rules => { rules, edges } := by
  obtain ⟨rule, others, rfl⟩ := exists_cons_of_ne_nil filled
  have listed : (Value.dict (arrayEntry "rules" (rule :: others) ++ arrayEntry "edges" edges)).demand "rules" = .ok (.list (rule :: others)) := rfl
  have drawn : (Value.dict (arrayEntry "rules" (rule :: others) ++ arrayEntry "edges" edges)).lookup "edges" (.list []) = .ok (.list edges) := by
    cases edges <;> rfl
  rw [ofTable, listed, drawn]
  change ((rule :: others).mapM Rule.ofTable >>= fun rules => .ok (Graph.mk rules edges)).toOption = _
  rw [toOption_bind]
  cases ((rule :: others).mapM Rule.ofTable).toOption <;> rfl

theorem ofTable_sheet {g : Graph} (printable : g.Printable) (fuel : Nat) :
    ((g.sheet fuel).root?.bind fun v => (ofTable v).toOption) = g.reread fuel := by
  have rules : g.rules.mapM (Rule.reread fuel) =
      ((g.rules.map (Rule.table fuel)).mapM RuleTable.value?).bind fun vs => (vs.mapM Rule.ofTable).toOption := by
    rw [mapM_toOption, mapM_map]
    exact mapM_congr fun r mem => (Rule.ofTable_table (printable.rules r mem).isSeed fuel).symm
  have edges : (g.edges.map (edgeTable fuel)).mapM RuleTable.table? = g.edges.mapM (rereadEdge fuel) := by
    rw [mapM_map]
    exact mapM_congr fun edge _ => table_edge fuel edge
  rw [Sheet.root?, Sheet.entries?, reread, sheet, rules, edges]
  cases read : (g.rules.map (Rule.table fuel)).mapM RuleTable.value? with
  | none => rfl
  | some vs =>
    have filled : vs ≠ [] := by
      obtain ⟨rule, others, start⟩ := exists_cons_of_ne_nil printable.filled
      rintro rfl
      rw [start, map_cons, mapM_cons] at read
      obtain ⟨first, -, read⟩ := Option.bind_eq_some_iff.mp read
      obtain ⟨values, -, read⟩ := Option.bind_eq_some_iff.mp read
      cases read
    cases g.edges.mapM (rereadEdge fuel) with
    | none => simp
    | some edges =>
      refine (ofTable_root filled edges).trans ?_
      rw [Option.map_eq_bind]
      rfl

def allowance (text : String) : Nat := 2 * text.toList.length + 6

theorem ofToml_toml {g : Graph} (printable : g.Printable) :
    ∃ text, g.toml = .ok text ∧ text.toList = (g.sheet (allowance text)).text ∧ (ofToml text).toOption = g.reread (allowance text) := by
  obtain ⟨text, printed, -⟩ := toml_ok printable 0
  have shape : text.toList = (g.sheet (allowance text)).text := by
    obtain ⟨again, reprinted, shape⟩ := toml_ok printable (allowance text)
    rw [printed] at reprinted
    rwa [← Except.ok.inj reprinted] at shape
  refine ⟨text, printed, shape, ?_⟩
  have reads : (g.sheet (allowance text)).Reads (2 * (g.sheet (allowance text)).text.length + 6) := by
    rw [← shape]
    exact sheet_reads printable (allowance text)
  have root : (Toml.read text).toOption = (g.sheet (allowance text)).root? := by
    rw [← Sheet.readChars_text reads, ← shape, Toml.read]
    cases readChars text.toList with
    | ok v => rfl
    | error refusal => cases refusal <;> rfl
  rw [ofToml, toOption_bind, root, ofTable_sheet printable]

end Graph
end Rulewright
