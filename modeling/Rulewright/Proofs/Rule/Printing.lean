import Rulewright.Proofs.Rule.Building
import Rulewright.Proofs.Rule.Sheet
import Rulewright.Proofs.Toml.LongTexts

/-!
Printing graphs. A graph whose texts stand for themselves in a document can be printed, and its text is that of a sheet: each rule, filter and edge
is a table of entries. The mark of a rule that is no seed comes after its filters, so it belongs to the table of the last one.
-/

open List

namespace Rulewright

open Toml (Entry RuleTable Sheet Held Simple Bare Table joinLines asRead escapeLines numeral)

def isPlain (c : Char) : Bool := decide (0x20 ≤ c.toNat) && decide (c.toNat ≤ 0x7E) && c != '"' && c != '\\'

theorem isPlain_ne {c x : Char} (plain : isPlain c) (other : isPlain x = false) : c ≠ x := by
  rintro rfl
  rw [plain] at other
  cases other

namespace Value

variable {v : Value}

def IsShort (v : Value) : Prop := v = .null ∨ ∃ s, v = .str s ∧ ∀ c ∈ s.toList, isPlain c = true

def IsLong (v : Value) : Prop := v = .null ∨ ∃ s, v = .str s ∧ (s ≠ "" → Held s.toList)

def IsItem (v : Value) : Prop := ∃ s, v = .str s ∧ s ≠ "" ∧ ∀ c ∈ s.toList, isPlain c = true ∨ c = '\n'

theorem IsShort.plain (short : v.IsShort) : ∀ c ∈ v.shown.toList, isPlain c := by
  rcases short with rfl | ⟨s, rfl, plain⟩
  · simp [shown, written, isPlain]
  · exact plain

theorem IsShort.single (short : v.IsShort) : '\n' ∉ v.shown.toList := by
  intro inside
  exact absurd (short.plain _ inside) (by decide)

theorem simple_of_plain {text : List Char} (filled : text ≠ []) (plain : ∀ c ∈ text, isPlain c ∨ c = '\n') : Simple text := by
  have free {x : Char} (other : isPlain x = false) (newline : x ≠ '\n') : x ∉ text := by
    intro inside
    rcases plain x inside with wrong | wrong
    · rw [wrong] at other
      cases other
    · exact newline wrong
  exact ⟨filled, free (by decide) (by decide), free (by decide) (by decide), free (by decide) (by decide)⟩

theorem IsItem.simple (item : v.IsItem) : Simple v.shown.toList := by
  obtain ⟨s, rfl, filled, plain⟩ := item
  exact simple_of_plain (by simpa [shown] using filled) plain

end Value

namespace Toml.Entry

open Scan (sign)

theorem toList_shortText (key : String) (v : Value) : (Rule.shortText key v).toList = (short key v.shown.toList).chunk.1 := by
  simp [Rule.shortText, short, chunk, Scan.sign, Scan.quoted]

theorem toList_longText (key : String) (v : Value) (out : List Char) :
    (Filter.longText key v).toList = (long key v.shown.toList out).chunk.1 := by
  simp [Filter.longText, long, chunk, Scan.sign, Scan.fence]

theorem escapeChar_plain {c : Char} (plain : isPlain c ∨ c = '\n') : (Json.escapeChar true c).toList = escapeLines [c] := by
  rcases plain with plain | rfl
  · have newline : c ≠ '\n' := isPlain_ne plain (by decide)
    have range : (decide (c.toNat < 0x20) || (true && decide (0x7E < c.toNat))) = false := by
      simp only [isPlain, Bool.and_eq_true, decide_eq_true_eq] at plain
      simp only [Bool.true_and, Bool.or_eq_false_iff, decide_eq_false_iff_not]
      omega
    unfold Json.escapeChar
    split
    iterate 7 exact absurd plain (by decide)
    rw [range]
    simp [escapeLines, newline]
  · rfl

theorem toList_quoted {s : String} (plain : ∀ c ∈ s.toList, isPlain c ∨ c = '\n') :
    (Json.quoted true s).toList = Scan.quoted (escapeLines s.toList) := by
  have body : (String.join (s.toList.map (Json.escapeChar true))).toList = escapeLines s.toList := by
    rw [String.toList_join, flatMap_map]
    refine flatMap_congr fun c mem => ?_
    exact (escapeChar_plain (plain c mem)).trans (by simp [escapeLines])
  simp [Json.quoted, Scan.quoted, body]

theorem toList_items {items : List Value} (each : ∀ v ∈ items, v.IsItem) :
    (Json.renderItems Json.spaced items).toList = [',', ' '].intercalate (items.map fun v => Scan.quoted (escapeLines v.shown.toList)) := by
  induction items with
  | nil => rfl
  | cons v items ih =>
    obtain ⟨s, rfl, -, plain⟩ := each v mem_cons_self
    have first : (Json.render Json.spaced (.str s)).toList = Scan.quoted (escapeLines s.toList) := by
      exact toList_quoted plain
    have rest := ih fun v mem => each v (mem_cons_of_mem _ mem)
    cases items with
    | nil =>
      rw [Json.renderItems, first, map_singleton, intercalate_singleton]
      rfl
    | cons next items =>
      rw [Json.renderItems, String.toList_append, String.toList_append, first, rest]
      · simp only [map_cons, intercalate_cons_cons]
        rfl
      · simp

theorem toList_array (fuel : Nat) (key start : String) (starts : start.toList = key.toList ++ sign) {items : List Value} (each : ∀ v ∈ items, v.IsItem) :
    (start ++ Json.render Json.spaced (.list items)).toList = (array fuel key (items.map fun v => v.shown.toList)).chunk.1 := by
  rw [Json.render]
  simp [starts, toList_items each, array, chunk, Scan.array, Function.comp_def]

theorem toList_number {key start : String} (starts : start.toList = key.toList ++ sign) (n : Int) :
    (start ++ (Value.int n).shown).toList = (number key n).chunk.1 := by
  have digits : (Value.int n).shown.toList = numeral n := Toml.toList_toString_int n
  simp [starts, digits, number, chunk]

end Toml.Entry

namespace Toml

def longEntry (key : String) (v : Value) : List Entry :=
  if v.isSomething then [.long key v.shown.toList (joinLines v.shown.toList)] else []

def shortEntry (key : String) (v : Value) : List Entry := if v.isSomething then [.short key v.shown.toList] else []

def itemsEntry (fuel : Nat) (key : String) (items : List Value) : List Entry :=
  if items.isEmpty then [] else [.array fuel key (items.map fun v => v.shown.toList)]

def boundEntry (key : String) (v default : Value) : List Entry := if v.equals default then [] else [.number key (v.int?.getD 0)]

def RuleTable.extend (t : RuleTable) (extra : List Entry) : RuleTable :=
  if t.filters.isEmpty then { t with front := t.front ++ extra }
  else { t with filters := t.filters.dropLast ++ [t.filters.getLastD [] ++ extra] }

theorem RuleTable.extend_cases (t : RuleTable) (extra : List Entry) :
    t.filters = [] ∧ t.extend extra = ⟨t.front ++ extra, []⟩ ∨
      ∃ filters last, t.filters = filters ++ [last] ∧ t.extend extra = ⟨t.front, filters ++ [last ++ extra]⟩ := by
  obtain ⟨front, filters⟩ := t
  rcases eq_nil_or_concat filters with rfl | ⟨filters, last, rfl⟩
  · exact .inl ⟨rfl, rfl⟩
  · exact .inr ⟨filters, last, concat_eq_append, by simp [extend]⟩

theorem RuleTable.chunks_extend (t : RuleTable) (extra : List Entry) : (t.extend extra).chunks = t.chunks ++ extra.map Entry.chunk := by
  rcases t.extend_cases extra with ⟨none, same⟩ | ⟨filters, last, parts, same⟩
  · simp [same, chunks, body, none]
  · simp [same, chunks, body, parts]

end Toml

open Toml

def Value.items (v : Value) : List Value := v.list?.getD []

def Names.members : Names → List Value
  | .given v => v.items
  | .set members => members

namespace Filter

structure Printable (f : Filter) : Prop where
  enclosing : f.enclosing.IsLong
  notEnclosing : f.notEnclosing.IsLong
  notContains : ∃ items, f.notContains = .list items ∧ ∀ v ∈ items, v.IsItem
  contains : f.contains.IsLong
  bounds : ∀ v ∈ [f.atLeast, f.atMost, f.childCount, f.siblingCount], ∃ n, v = .int n

def table (fuel : Nat) (f : Filter) : List Entry :=
  longEntry "enclosing_node" f.enclosing ++ longEntry "not_enclosing_node" f.notEnclosing ++ itemsEntry fuel "not_contains" f.notContains.items ++
    longEntry "contains" f.contains ++ boundEntry "at_least" f.atLeast (.int 1) ++ boundEntry "at_most" f.atMost unlimited ++
    boundEntry "child_count" f.childCount unlimited ++ boundEntry "sibling_count" f.siblingCount unlimited

theorem toList_long (key : String) (v : Value) :
    (if v.isSomething then [longText key v] else []).map String.toList = (longEntry key v).map fun e => e.chunk.1 := by
  unfold longEntry
  split
  · rw [map_singleton, map_singleton, Entry.toList_longText]
  · rfl

theorem toList_bound (key start : String) (starts : start.toList = key.toList ++ Scan.sign) {v : Value} (bound : ∃ n, v = .int n) (default : Value) :
    (if v.equals default then [] else [start ++ v.shown]).map String.toList = (boundEntry key v default).map fun e => e.chunk.1 := by
  obtain ⟨n, rfl⟩ := bound
  unfold boundEntry
  split
  · rfl
  · rw [map_singleton, Entry.toList_number starts]
    rfl

theorem toList_lines {f : Filter} (printable : f.Printable) (fuel : Nat) : f.lines.map String.toList = (f.table fuel).map fun e => e.chunk.1 := by
  have bounds := printable.bounds
  simp only [mem_cons, not_mem_nil, or_false, forall_eq_or_imp, forall_eq] at bounds
  obtain ⟨atLeast, atMost, childCount, siblingCount⟩ := bounds
  obtain ⟨items, list, each⟩ := printable.notContains
  have array : (if f.notContains.isSomething then ["not_contains = " ++ Json.render Json.spaced f.notContains] else []).map String.toList =
      (itemsEntry fuel "not_contains" f.notContains.items).map fun e => e.chunk.1 := by
    have listed : f.notContains.items = items := by rw [list]; rfl
    have something : f.notContains.isSomething = !items.isEmpty := by rw [list]; rfl
    rw [listed, something]
    cases items with
    | nil => rfl
    | cons item items =>
      rw [list]
      exact congrArg (fun line => [line]) (Entry.toList_array fuel _ _ rfl each)
  have least := toList_bound "at_least" "at_least = " rfl atLeast (.int 1)
  have most := toList_bound "at_most" "at_most = " rfl atMost unlimited
  have children := toList_bound "child_count" "child_count = " rfl childCount unlimited
  have siblings := toList_bound "sibling_count" "sibling_count = " rfl siblingCount unlimited
  simp only [lines, table, map_append, toList_long, array, least, most, children, siblings]

end Filter

namespace Rule

structure Printable (r : Rule) : Prop where
  name : r.name.IsShort
  named : r.name ≠ .str ""
  query : r.query.IsLong
  replaceNode : r.replaceNode.IsShort
  replace : r.replace.IsLong
  groups : r.groups = .set [] ∨ ∃ items, r.groups = .given (.list items) ∧ ∀ v ∈ items, v.IsItem
  holes : r.holes = .set [] ∨ ∃ items, r.holes = .given (.list items) ∧ ∀ v ∈ items, v.IsItem
  filters : ∀ f ∈ r.filters, f.Printable
  isSeed : ∃ b, r.isSeed = .bool b

def front (fuel : Nat) (r : Rule) : List Entry :=
  [.short "name" r.name.shown.toList] ++ longEntry "query" r.query ++ shortEntry "replace_node" r.replaceNode ++ longEntry "replace" r.replace ++
    itemsEntry fuel "groups" r.groups.members ++ itemsEntry fuel "holes" r.holes.members

def seedEntry (r : Rule) : List Entry := if r.isSeed.isSomething then [] else [.truth "is_seed_rule" false]

def table (fuel : Nat) (r : Rule) : RuleTable := (RuleTable.mk (r.front fuel) (r.filters.map (Filter.table fuel))).extend r.seedEntry

theorem toList_short (key : String) (v : Value) :
    (if v.isSomething then [shortText key v] else []).map String.toList = (shortEntry key v).map fun e => e.chunk.1 := by
  unfold shortEntry
  split
  · rw [map_singleton, map_singleton, Entry.toList_shortText]
  · rfl

theorem namesLine_ok (fuel : Nat) (key : String) {names : Names}
    (known : names = .set [] ∨ ∃ items, names = .given (.list items) ∧ ∀ v ∈ items, v.IsItem) :
    ∃ lines, namesLine key names = .ok lines ∧ lines.map String.toList = (itemsEntry fuel key names.members).map fun e => e.chunk.1 := by
  rcases known with rfl | ⟨items, rfl, each⟩
  · exact ⟨[], rfl, rfl⟩
  · cases items with
    | nil => exact ⟨[], rfl, rfl⟩
    | cons item items =>
      refine ⟨[key ++ " = " ++ Json.render Json.spaced (.list (item :: items))], rfl, ?_⟩
      rw [map_singleton, Entry.toList_array fuel key (key ++ " = ") (by simp [Scan.sign]) each]
      rfl

theorem toList_seed {r : Rule} (known : ∃ b, r.isSeed = .bool b) :
    (if r.isSeed.isSomething then [] else ["is_seed_rule = " ++ String.ofList (r.isSeed.shown.toList.map Char.toLower)]).map String.toList =
      r.seedEntry.map fun e => e.chunk.1 := by
  obtain ⟨b, known⟩ := known
  rw [seedEntry, known]
  cases b <;> rfl

def blocks (fuel : Nat) (r : Rule) : List (List (List Char)) :=
  (r.front fuel).map (fun e => [e.chunk.1]) ++ r.filters.map (fun f => filterHeader :: (f.table fuel).map fun e => e.chunk.1) ++
    r.seedEntry.map fun e => [e.chunk.1]

theorem chunks_table (fuel : Nat) (r : Rule) : (r.table fuel).chunks.map Prod.fst = ruleHeader :: (r.blocks fuel).flatten := by
  have singles (entries : List Entry) : (entries.map fun e => [e.chunk.1]).flatten = entries.map fun e => e.chunk.1 := by
    rw [← flatMap_def, ← map_eq_flatMap]
  rw [table, RuleTable.chunks_extend]
  simp [RuleTable.chunks, RuleTable.body, blocks, singles, flatMap_def, Function.comp_def]

theorem toml_ok {r : Rule} (printable : r.Printable) (fuel : Nat) :
    ∃ text, r.toml = .ok text ∧ text.toList = ['\n'].intercalate ((r.table fuel).chunks.map Prod.fst) := by
  obtain ⟨groups, printed, groupLines⟩ := namesLine_ok fuel "groups" printable.groups
  obtain ⟨holes, printed', holeLines⟩ := namesLine_ok fuel "holes" printable.holes
  unfold toml
  rw [printed, printed']
  refine ⟨_, rfl, ?_⟩
  have filled : ∀ part ∈ r.blocks fuel, part ≠ [] := by
    intro part mem
    simp only [blocks, mem_append, mem_map] at mem
    rcases mem with (⟨e, -, rfl⟩ | ⟨f, -, rfl⟩) | ⟨e, -, rfl⟩ <;> simp
  have filters : (r.filters.map Filter.toml).map String.toList =
      r.filters.map fun f => ['\n'].intercalate (filterHeader :: (f.table fuel).map fun e => e.chunk.1) := by
    rw [map_map]
    refine map_congr_left fun f mem => ?_
    rw [Function.comp_apply, Filter.toml, String.toList_intercalate, map_cons, Filter.toList_lines (printable.filters f mem) fuel]
    rfl
  have some : (r.blocks fuel).flatten ≠ [] := by simp [blocks, front]
  rw [String.toList_append, String.toList_intercalate, chunks_table, intercalate_cons_of_ne_nil some, ← Text.intercalate_flatten filled]
  congr 2
  simp only [map_append, filters, toList_seed printable.isSeed, groupLines, holeLines, blocks, front, map_map, Function.comp_def,
    intercalate_singleton, toList_short, Filter.toList_long, map_singleton, Entry.toList_shortText]

end Rule

namespace Graph

structure PrintableEdge (edge scope source : Value) (targets : List Value) : Prop where
  hasScope : edge.field? "scope" = some scope
  hasSource : edge.field? "from" = some source
  hasTargets : edge.field? "to" = some (.list targets)
  scope : scope.IsShort ∧ scope ≠ .str ""
  source : source.IsShort ∧ source ≠ .str ""
  targets : ∀ v ∈ targets, v.IsItem

def edgeTable (fuel : Nat) (edge : Value) : List Entry :=
  [.short "scope" ((edge.field? "scope").getD .null).shown.toList, .short "from" ((edge.field? "from").getD .null).shown.toList,
    .array fuel "to" (((edge.field? "to").getD .null).items.map fun v => v.shown.toList)]

theorem edgeToml_ok {edge : Value} (printable : ∃ scope source targets, PrintableEdge edge scope source targets) (fuel : Nat) :
    ∃ text, edgeToml edge = .ok text ∧ text.toList = ['\n'].intercalate ((Sheet.edgeChunks (edgeTable fuel edge)).map Prod.fst) := by
  obtain ⟨scope, source, targets, printable⟩ := printable
  unfold edgeToml
  rw [demand_field.mpr printable.hasScope, demand_field.mpr printable.hasSource, demand_field.mpr printable.hasTargets]
  refine ⟨_, rfl, ?_⟩
  have list := Entry.toList_array fuel "to" "to = " rfl printable.targets
  rw [String.toList_intercalate]
  simp only [map_cons, map_nil, Entry.toList_shortText, list, edgeTable, Sheet.edgeChunks, printable.hasScope, printable.hasSource,
    printable.hasTargets, Option.getD_some, Value.items, Value.list?]
  rfl

structure Printable (g : Graph) : Prop where
  filled : g.rules ≠ []
  rules : ∀ r ∈ g.rules, r.Printable
  edges : ∀ edge ∈ g.edges, ∃ scope source targets, PrintableEdge edge scope source targets

def sheet (fuel : Nat) (g : Graph) : Sheet := ⟨g.rules.map (Rule.table fuel), g.edges.map (edgeTable fuel)⟩

theorem text_sheet (fuel : Nat) (g : Graph) : (g.sheet fuel).text =
    ['\n'].intercalate ([[]].intercalate (g.rules.map fun r => (r.table fuel).chunks.map Prod.fst) ++
      if g.edges.isEmpty then [[], [], []]
      else [[]].intercalate (g.edges.map fun edge => (Sheet.edgeChunks (edgeTable fuel edge)).map Prod.fst)) := by
  rw [Sheet.text, Sheet.chunks, map_append, Text.map_intercalate, sheet, map_map, map_map, isEmpty_map]
  split
  · rfl
  · rw [Text.map_intercalate, map_map, map_map]
    rfl

theorem toml_ok {g : Graph} (printable : g.Printable) (fuel : Nat) : ∃ text, g.toml = .ok text ∧ text.toList = (g.sheet fuel).text := by
  obtain ⟨rules, printed, ruleTexts⟩ := mapM_ok_map fun r mem => Rule.toml_ok (printable.rules r mem) fuel
  obtain ⟨edges, drawn, edgeTexts⟩ := mapM_ok_map fun edge mem => edgeToml_ok (printable.edges edge mem) fuel
  have ruleParts : ∀ part ∈ g.rules.map fun r => (r.table fuel).chunks.map Prod.fst, part ≠ [] := by
    intro part mem
    obtain ⟨r, -, rfl⟩ := mem_map.mp mem
    simp [Rule.chunks_table]
  have edgeParts : ∀ part ∈ g.edges.map fun edge => (Sheet.edgeChunks (edgeTable fuel edge)).map Prod.fst, part ≠ [] := by
    intro part mem
    obtain ⟨edge, -, rfl⟩ := mem_map.mp mem
    simp [Sheet.edgeChunks]
  have first : ("\n\n".intercalate rules).toList = ['\n'].intercalate ([[]].intercalate (g.rules.map fun r => (r.table fuel).chunks.map Prod.fst)) := by
    rw [String.toList_intercalate, ruleTexts, ← Text.intercalate_double ruleParts, map_map]
    rfl
  have second : ("\n\n".intercalate edges).toList =
      ['\n'].intercalate ([[]].intercalate (g.edges.map fun edge => (Sheet.edgeChunks (edgeTable fuel edge)).map Prod.fst)) := by
    rw [String.toList_intercalate, edgeTexts, ← Text.intercalate_double edgeParts, map_map]
    rfl
  have some {parts : List (List (List Char))} (each : ∀ part ∈ parts, part ≠ []) (filled : parts ≠ []) : [[]].intercalate parts ≠ [] := by
    obtain ⟨part, rest, rfl⟩ := exists_cons_of_ne_nil filled
    obtain ⟨line, lines, rfl⟩ := exists_cons_of_ne_nil (each part mem_cons_self)
    exact ne_nil_of_mem (Text.mem_intercalate_of_mem mem_cons_self mem_cons_self)
  have start := some ruleParts (by simpa using printable.filled)
  unfold toml
  rw [printed, drawn, text_sheet]
  cases none : g.edges.isEmpty with
  | true =>
    refine ⟨_, rfl, ?_⟩
    rw [Text.intercalate_append start (by simp), String.toList_append, String.toList_append, first]
    rfl
  | false =>
    refine ⟨_, rfl, ?_⟩
    rw [if_neg Bool.false_ne_true, Text.intercalate_append start (some edgeParts (by simpa using none)), String.toList_append, String.toList_append,
      first, second]
    rfl

end Graph
end Rulewright
