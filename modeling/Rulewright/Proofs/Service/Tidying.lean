import Rulewright.Proofs.Service.Reading
import Rulewright.Proofs.Toml.Layers

/-!
The rules of a request to improve them are read and written again. If they are a table in layers the request is accepted, and what is written
reads as the same table but for the ends of its long texts, exactly if each of these keeps its lines (`tidied_rules_retell_iff`). A long
text with a backslash is written as it is, and then it cannot be read.
-/

open List

namespace Rulewright

variable {P : String → Prop}

open Value Entries
open Toml (Plain Kept Layered readBack reread ownEntries arrays isTabular tables)

namespace Value

inductive Inside (v : Value) : Value → Prop
  | self : Inside v v
  | item {items : List Value} {w : Value} (mem : w ∈ items) (deeper : Inside v w) : Inside v (.list items)
  | entry {entries : Entries} {e : String × Value} (mem : e ∈ entries) (deeper : Inside v e.2) : Inside v (.dict entries)

def isLeaf : Value → Bool
  | .str _ | .list _ | .dict _ => false
  | _ => true

inductive Retold : Value → Value → Prop
  | leaf {v : Value} (alone : v.isLeaf = true) : Retold v v
  | text {s : String} (single : '\n' ∉ s.toList) : Retold (.str s) (.str s)
  | lines {s : String} (several : '\n' ∈ s.toList) : Retold (.str s) (.str (Text.strip s ++ "\n"))
  | list {items others : List Value} (each : List.Forall₂ Retold items others) : Retold (.list items) (.list others)
  | dict {entries others : Entries} (each : ∀ key, Option.Rel Retold (get? key entries) (get? key others)) :
      Retold (.dict entries) (.dict others)

theorem inside_dict_iff {entries : Entries} : (∀ s, Inside (.str s) (.dict entries) → P s) ↔ ∀ e ∈ entries, ∀ s, Inside (.str s) e.2 → P s := by
  constructor
  · intro each e mem s deeper
    exact each s (.entry mem deeper)
  · intro each s inside
    cases inside with
    | entry mem deeper => exact each _ mem s deeper

theorem inside_list_iff {items : List Value} : (∀ s, Inside (.str s) (.list items) → P s) ↔ ∀ w ∈ items, ∀ s, Inside (.str s) w → P s := by
  constructor
  · intro each w mem s deeper
    exact each s (.item mem deeper)
  · intro each s inside
    cases inside with
    | item mem deeper => exact each _ mem s deeper

theorem inside_text_iff {text : String} : (∀ s, Inside (.str s) (.str text) → P s) ↔ P text := by
  constructor
  · intro each
    exact each text .self
  · intro holds s inside
    cases inside
    exact holds

theorem retold_list_iff {items others : List Value} : Retold (.list items) (.list others) ↔ List.Forall₂ Retold items others := by
  constructor
  · intro retold
    cases retold with
    | list each => exact each
    | leaf alone => cases alone
  · exact .list

end Value

open Value (Inside Retold)

theorem Entries.get?_of_mem {entries : Entries} (distinct : (entries.map Prod.fst).Nodup) {e : String × Value} (mem : e ∈ entries) :
    get? e.1 entries = some e.2 := by
  induction entries with
  | nil => cases mem
  | cons first rest ih =>
    rw [map_cons, nodup_cons] at distinct
    rcases mem_cons.mp mem with rfl | later
    · simp [get?]
    · have apart : first.1 ≠ e.1 := by
        intro same
        exact distinct.1 (same ▸ mem_map_of_mem later)
      rw [← ih distinct.2 later]
      simp [get?, apart]

theorem retold_dict_iff {entries others : Entries} (image : String × Value → Value) (distinct : (entries.map Prod.fst).Nodup)
    (same : others.Perm (entries.map fun e => (e.1, image e))) : Retold (.dict entries) (.dict others) ↔ ∀ e ∈ entries, Retold e.2 (image e) := by
  have keys : (others.map Prod.fst).Nodup := by
    rw [(same.map Prod.fst).nodup_iff, map_map]
    exact distinct
  have found {e : String × Value} (mem : e ∈ entries) : get? e.1 others = some (image e) :=
    @get?_of_mem others keys (e.1, image e) (same.mem_iff.mpr (mem_map_of_mem mem))
  constructor
  · intro retold e mem
    cases retold with
    | leaf alone => cases alone
    | dict each =>
      have own := each e.1
      rw [get?_of_mem distinct mem, found mem] at own
      cases own with
      | some own => exact own
  · intro each
    refine .dict fun key => ?_
    cases read : get? key entries with
    | some v =>
      have mem := mem_of_get? read
      rw [found mem]
      exact .some (each _ mem)
    | none =>
      have absent : get? key others = none := by
        cases other : get? key others with
        | none => rfl
        | some w =>
          obtain ⟨e, mem, equal⟩ := mem_map.mp (same.mem_iff.mp (mem_of_get? other))
          have own := get?_of_mem distinct mem
          rw [(Prod.mk.inj equal).1, read] at own
          cases own
      rw [absent]
      exact .none

namespace Toml

variable {depth : Nat} {entries : Entries} {v : Value}

theorem Plain.retold_iff (plain : Plain v) : Retold v (readBack v) ↔ ∀ s, Inside (.str s) v → '\n' ∈ s.toList → Kept s := by
  cases plain with
  | @text s quotable =>
    rw [inside_text_iff, readBack, if_neg quotable.single]
    exact iff_of_true (.text quotable.single) fun several => absurd several quotable.single
  | @lines s several free upright =>
    rw [inside_text_iff, ← readBack_iff several]
    constructor
    · intro retold _
      obtain ⟨t, read⟩ : ∃ t, readBack (.str s) = .str t := by rw [readBack, if_pos several]; exact ⟨_, rfl⟩
      rw [read] at retold ⊢
      cases retold with
      | leaf alone => cases alone
      | text single => exact absurd several single
      | lines => rfl
    · intro same
      rw [same several]
      exact .lines several
  | number short =>
    refine iff_of_true (.leaf rfl) ?_
    intro s inside
    cases inside
  | truth b =>
    refine iff_of_true (.leaf rfl) ?_
    intro s inside
    cases inside
  | @texts items each =>
    refine iff_of_true (.list ?_) (inside_list_iff.mpr ?_)
    · rw [forall₂_same]
      intro w mem
      obtain ⟨s, present, rfl⟩ := mem_map.mp mem
      exact .text (each s present).single
    · intro w mem
      obtain ⟨s, present, rfl⟩ := mem_map.mp mem
      exact inside_text_iff.mpr fun several => absurd several (each s present).single

def rereadEntry (depth : Nat) (e : String × Value) : Value :=
  if isTabular e then .list ((tables e.2).map fun table => .dict (reread depth table)) else readBack e.2

theorem reread_perm (depth : Nat) (entries : Entries) : (reread (depth + 1) entries).Perm (entries.map fun e => (e.1, rereadEntry depth e)) := by
  have parts : reread (depth + 1) entries = (ownEntries entries ++ arrays entries).map fun e => (e.1, rereadEntry depth e) := by
    rw [reread, map_append]
    congr 1
    · apply map_congr_left
      intro e mem
      rw [rereadEntry, if_neg (by simpa using (List.mem_filter.mp mem).2)]
    · apply map_congr_left
      intro e mem
      rw [rereadEntry, if_pos (List.mem_filter.mp mem).2]
  have split : (ownEntries entries ++ arrays entries).Perm entries := by
    simpa [ownEntries, arrays] using perm_append_comm.trans (filter_append_perm isTabular entries)
  rw [parts]
  exact split.map _

theorem Layered.retold_iff (layered : Layered depth entries) :
    Retold (.dict entries) (.dict (reread depth entries)) ↔ ∀ s, Inside (.str s) (.dict entries) → '\n' ∈ s.toList → Kept s := by
  induction depth generalizing entries with
  | zero => exact layered.elim
  | succ depth ih =>
    rw [retold_dict_iff (rereadEntry depth) layered.1 (reread_perm depth entries), inside_dict_iff]
    refine forall₂_congr fun e mem => ?_
    obtain ⟨-, plain | ⟨all, filled, value, each⟩⟩ := layered.2 e mem
    · rw [rereadEntry, plain.writable.single]
      exact plain.retold_iff
    · have tabular : isTabular e := by
        rw [isTabular, value]
        exact any_isTable filled
      rw [rereadEntry, if_pos tabular, value, tables_dicts, retold_list_iff, forall₂_map_left_iff, forall₂_map_right_iff,
        forall₂_same, inside_list_iff, forall_mem_map]
      exact forall₂_congr fun table inside => ih (each table inside)

end Toml

namespace Service

/-- Rules that are a table in layers: the request is accepted, the rules that are kept can be read, and they are the rules that were sent,
but for the ends of long texts, exactly if each of these keeps its lines. -/
theorem tidied_rules_retell_iff {data : Value} {entries table : Entries} {text : String} {depth : Nat}
    (has : RequestKind.improve.HasFields data entries) (valid : RequestKind.improve.Valid entries)
    (sent : field entries "rules" = .str text) (read : Toml.read text = .ok (.dict table)) (layered : Layered depth table) :
    ∃ d rules w, RequestKind.improve.read data = .ok d ∧ d = Entries.put "rules" (.str rules) (RequestKind.improve.taken entries) ∧
      Toml.read rules = .ok w ∧ (Retold (.dict table) w ↔ ∀ s, Inside (.str s) (.dict table) → '\n' ∈ s.toList → Kept s) := by
  obtain ⟨rules, written, again⟩ := layered.read_write
  obtain ⟨text', table', same, read', steps⟩ := tidyRules_eq valid
  rw [sent] at same
  cases same
  rw [read] at read'
  cases read'
  refine ⟨_, rules, _, ?_, rfl, again, layered.retold_iff⟩
  rw [read_of_hasFields has, checkAll_taken_ok_iff.mpr valid, if_pos rfl]
  change tidyRules (RequestKind.improve.taken entries) = _
  rw [steps, written]
  rfl

def loopText : String :=
  "[[rules]]\nname = 'a'\nquery = '''(c) @x\n(b) @y'''\n[[rules.filters]]\ncontains = '(d) @z'\nat_most = 0\n[[edges]]\nscope = 'File'\nfrom = 'a'\nto = ['a']\n"

def loopFilter : Entries := [("contains", .str "(d) @z"), ("at_most", .int 0)]

def loopRule : Entries := [("name", .str "a"), ("query", .str "(c) @x\n(b) @y"), ("filters", .list [.dict loopFilter])]

def loopEdge : Entries := [("scope", .str "File"), ("from", .str "a"), ("to", .list [.str "a"])]

def loopTable : Entries := [("rules", .list [.dict loopRule]), ("edges", .list [.dict loopEdge])]

def loopData : Entries := [("language", .str "java"), ("requirements", .str "wish"), ("rules", .str loopText)]

theorem loopText_read : Toml.read loopText = .ok (.dict loopTable) := by
  have known : (Toml.read loopText).toOption = some (.dict loopTable) := by decide +kernel
  exact toOption_eq_some known

theorem layered_one {depth : Nat} {table : Entries} (layered : Layered depth table) :
    ∃ all : List Entries, all ≠ [] ∧ list [.dict table] = .list (all.map .dict) ∧ ∀ table ∈ all, Layered depth table :=
  ⟨[table], by simp, rfl, by simpa using layered⟩

theorem loopTable_layered : Layered 3 loopTable := by
  have one {s : String} (plain : s.toList.all isPlain) (starts : s.toList.head? ≠ some '"') : Toml.Quotable s.toList :=
    (Toml.OneLine.mk (fun c mem => .inl (all_eq_true.mp plain c mem)) starts).quotable
  have name : Toml.Quotable "a".toList := one (by decide) (by decide)
  have listable : ∀ s ∈ ["a"], Toml.Listable s.toList := by
    simpa using Toml.Listable.mk name (by decide)
  have filter : Layered 1 loopFilter :=
    ⟨by decide, forall_mem_cons.mpr ⟨⟨by decide, .inl (.text (one (by decide) (by decide)))⟩,
      forall_mem_singleton.mpr ⟨by decide, .inl (.number (by decide +kernel))⟩⟩⟩
  have rule : Layered 2 loopRule :=
    ⟨by decide, forall_mem_cons.mpr ⟨⟨by decide, .inl (.text name)⟩,
      forall_mem_cons.mpr ⟨⟨by decide, .inl (.lines (by decide) (by decide) (.inl (by decide +kernel)))⟩,
        forall_mem_singleton.mpr ⟨by decide, .inr (layered_one filter)⟩⟩⟩⟩
  have edge : Layered 2 loopEdge :=
    ⟨by decide, forall_mem_cons.mpr ⟨⟨by decide, .inl (.text (one (by decide) (by decide)))⟩,
      forall_mem_cons.mpr ⟨⟨by decide, .inl (.text name)⟩, forall_mem_singleton.mpr ⟨by decide, .inl (.texts listable)⟩⟩⟩⟩
  exact ⟨by decide, forall_mem_cons.mpr ⟨⟨by decide, .inr (layered_one rule)⟩, forall_mem_singleton.mpr ⟨by decide, .inr (layered_one edge)⟩⟩⟩

theorem loopData_hasFields : RequestKind.improve.HasFields (.dict loopData) loopData where
  table := rfl
  complete := by decide
  known := by decide

theorem loopData_valid : RequestKind.improve.Valid loopData := by
  have accepted : (Graph.ofToml loopText).toOption.isSome := by decide +kernel
  obtain ⟨g, made⟩ := Option.isSome_iff_exists.mp accepted
  exact forall_mem_cons.mpr ⟨⟨"java", by decide, rfl⟩, forall_mem_cons.mpr ⟨⟨"wish", rfl⟩,
    forall_mem_singleton.mpr ⟨loopText, g, rfl, toOption_eq_some made⟩⟩⟩

theorem loopTable_kept : ∀ s, Inside (.str s) (.dict loopTable) → '\n' ∈ s.toList → Kept s := by
  simp only [loopTable, loopRule, loopFilter, loopEdge, inside_dict_iff, inside_list_iff, inside_text_iff, forall_mem_cons,
    not_mem_nil, false_imp_iff, implies_true, and_true]
  refine ⟨⟨by decide, fun _ => by decide +kernel, by decide, ?_⟩, by decide, by decide, by decide⟩
  intro s inside
  cases inside

/-- The rules that are kept have the query with a line end, and all else as it was sent. -/
theorem loop_is_retold : ∃ d rules w, RequestKind.improve.read (.dict loopData) = .ok d ∧
    d = Entries.put "rules" (.str rules) (RequestKind.improve.taken loopData) ∧ Toml.read rules = .ok w ∧ Retold (.dict loopTable) w := by
  obtain ⟨d, rules, w, read, kept, again, retold⟩ :=
    tidied_rules_retell_iff loopData_hasFields loopData_valid rfl loopText_read loopTable_layered
  exact ⟨d, rules, w, read, kept, again, retold.mpr loopTable_kept⟩

def matchText : String := "[[rules]]\nname = 'a'\nquery = '''(c) @x\n(#match? @x \"\\d\")'''\n"

def matchRules : String := "[[rules]]\nname = \"a\"\nquery = \"\"\"\n(c) @x\n(#match? @x \"\\d\")\n\"\"\"\n\n"

def matchData : Entries := [("language", .str "java"), ("requirements", .str "wish"), ("rules", .str matchText)]

/-- Rules that are accepted, but cannot be read any more. -/
theorem tidied_rules_cannot_be_read : (RequestKind.improve.read (.dict matchData)).toOption =
      some [("language", .str "java"), ("requirements", .str "wish"), ("rules", .str matchRules)] ∧
    (Toml.read matchRules).isOk = false := by
  decide +kernel

end Service

end Rulewright
