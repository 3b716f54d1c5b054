import Rulewright.Proofs.Toml.Values

/-!
Tables that hold arrays of tables, to any depth. Such a table is written as its own entries and then its arrays, each table of which stands
under a header with all the names that lead to it. What is read is the same table, with its own entries before its arrays and its long texts
as they are read (`Layered.read_write`).
-/

open List

namespace Rulewright.Toml

open Text Entries Entry

variable {e : String × Value}

open Scan (special isNameChar)

def Layered : Nat → Entries → Prop
  | 0, _ => False
  | depth + 1, entries => (entries.map Prod.fst).Nodup ∧ ∀ e ∈ entries, isKey e.1 = true ∧
      (Plain e.2 ∨ ∃ all : List Entries, all ≠ [] ∧ e.2 = .list (all.map .dict) ∧ ∀ table ∈ all, Layered depth table)

def reread : Nat → Entries → Entries
  | 0, entries => entries
  | depth + 1, entries => ((ownEntries entries).map fun e => (e.1, readBack e.2)) ++
      (arrays entries).map fun e => (e.1, .list ((tables e.2).map fun table => .dict (reread depth table)))

section Layered

variable {depth fuel : Nat} {entries table : Entries} {path names : List String} {body : List Piece} {piece : Piece}

theorem Layered.drafted (layered : Layered depth entries) : Drafted depth entries := by
  induction depth generalizing entries with
  | zero => exact layered
  | succ depth ih =>
    intro e mem
    obtain ⟨good, plain | ⟨all, filled, value, each⟩⟩ := layered.2 e mem
    · exact ⟨good, .inl plain.writable⟩
    · exact ⟨good, .inr ⟨all, filled, value, fun table inside => ih (each table inside)⟩⟩

theorem Layered.own (layered : Layered (depth + 1) entries) (mem : e ∈ ownEntries entries) : Plain e.2 := by
  obtain ⟨present, single⟩ := List.mem_filter.mp mem
  exact Nests.own (layered.2 e present).2 (by simpa using single)

theorem Layered.array (layered : Layered (depth + 1) entries) (mem : e ∈ arrays entries) :
    isKey e.1 ∧ tables e.2 ≠ [] ∧ ∀ table ∈ tables e.2, Layered depth table := by
  obtain ⟨present, array⟩ := List.mem_filter.mp mem
  obtain ⟨good, nests⟩ := layered.2 e present
  obtain ⟨filled, -, each⟩ := Nests.array nests (fun _ => Plain.writable) array
  exact ⟨good, filled, each⟩

theorem Fills.spaced {entries? : Option Entries}
    (fills : Fills fuel names (chunkLines (chunks body)) entries?) (before : Bool) :
    Fills fuel names (chunkLines (chunks (if before then .blank :: body else body ++ [.blank]))) entries? := by
  intro place named
  obtain ⟨way, read⟩ := fills place named
  refine ⟨way, ?_⟩
  cases before with
  | true => exact read
  | false =>
    rw [if_neg Bool.false_ne_true, chunks_append, chunkLines_append, readAll_append, read]
    cases entries? <;> rfl

theorem mem_layout_array (present : e ∈ arrays entries) (inside : table ∈ tables e.2)
    (mem : piece ∈ layout depth (path ++ [e.1]) table) : piece ∈ layout (depth + 1) path entries := by
  refine mem_append_right _ (mem_flatMap.mpr ⟨e, present, mem_flatMap.mpr ⟨table, inside, ?_⟩⟩)
  rw [element]
  split <;> simp [mem]

theorem extends_arrays {rest base : Entries} (keys : ∀ key ∈ path, isKey key)
    (each : ∀ e ∈ rest, isKey e.1 ∧ tables e.2 ≠ [] ∧ ∀ table ∈ tables e.2,
      Fills fuel (path ++ [e.1]) (chunkLines (chunks (layout depth (path ++ [e.1]) table))) (some (reread depth table)))
    (distinct : (rest.map Prod.fst).Nodup) (absent : ∀ e ∈ rest, has e.1 base = false) :
    Extends fuel path base (chunkLines (chunks (rest.flatMap fun e => (tables e.2).flatMap fun table =>
        element (path ++ [e.1]) table (layout depth (path ++ [e.1]) table))))
      (some (base ++ rest.map fun e => (e.1, .list ((tables e.2).map fun table => .dict (reread depth table))))) := by
  induction rest generalizing base with
  | nil => exact fun way place _ => ⟨way, by simp [chunks, chunkLines, readAll]⟩
  | cons e rest ih =>
    obtain ⟨good, filled, fills⟩ := each e mem_cons_self
    rw [map_cons, nodup_cons] at distinct
    have first := extends_array (heading_path (by simp) (concat_keys keys good)) (isEmpty_of_isKey good) (absent e mem_cons_self)
      (show ∀ d, readAll fuel ⟨d, none⟩ (chunkLines []) = _ from fun _ => rfl) fun table mem => (fills table mem).spaced (opensArray table)
    rw [Text.intercalate_nil, ← flatMap_def] at first
    change Extends _ _ _ (chunkLines ((tables e.2).flatMap fun table => chunks (element (path ++ [e.1]) table _))) _ at first
    have read : ((tables e.2).mapM fun table => (some (reread depth table)).map Value.dict) =
        some ((tables e.2).map fun table => .dict (reread depth table)) := mapM_pure
    rw [read, Option.map_some, arrayEntry, if_neg (by simpa using filled)] at first
    rw [← chunks_flatMap] at first
    rw [flatMap_cons, chunks_append, chunkLines_append, map_cons, append_cons base]
    intro way
    refine (first way).then_some (ih (fun e mem => each e (mem_cons_of_mem _ mem)) distinct.2 fun other mem => ?_)
    rw [has_eq_false_iff]
    intro entry inside
    rcases mem_append.mp inside with inside | inside
    · exact has_eq_false_iff.mp (absent other (mem_cons_of_mem _ mem)) entry inside
    · rw [mem_singleton.mp inside]
      intro same
      exact distinct.1 (same ▸ mem_map_of_mem mem)

theorem distinct_filter (distinct : (entries.map Prod.fst).Nodup) (p : String × Value → Bool) : ((entries.filter p).map Prod.fst).Nodup :=
  distinct.sublist (filter_sublist.map _)

theorem fields?_plain {own : Entries} (plain : ∀ e ∈ own, Plain e.2) :
    fields? (own.map fun e => ofValue e.1 e.2) = some (own.map fun e => (e.1, readBack e.2)) := by
  rw [fields?_iff, forall₂_map_left_iff, forall₂_map_right_iff, forall₂_same]
  exact fun e mem => ⟨ofValue_name .., (plain e mem).value e.1⟩

theorem Layered.fills_own (layered : Layered (depth + 1) entries) (enough : ∀ piece ∈ layout (depth + 1) path entries, piece.chunk.1.length + 3 ≤ fuel) :
    Fills (fuel + 2) path (chunkLines (chunks (fieldPieces (ownEntries entries))))
      (some ((ownEntries entries).map fun e => (e.1, readBack e.2))) := by
  have table : Table fuel ((ownEntries entries).map fun e => ofValue e.1 e.2) := by
    constructor
    · intro e mem
      obtain ⟨entry, present, rfl⟩ := mem_map.mp mem
      obtain ⟨good, writable⟩ := layered.drafted.own present
      refine writable.reads (bare_of_isKey good) ?_
      exact (writable.cost_le entry.1).trans (enough _ (mem_append_left _ (mem_map_of_mem present)))
    · rw [map_map, map_congr_left fun e _ => ofValue_name e.1 e.2]
      exact distinct_filter layered.1 _
  have fills := table.fills path
  rw [fields?_plain fun e mem => layered.own mem, map_map] at fills
  rw [chunks, fieldPieces, map_map]
  exact fills

theorem Layered.apart (layered : Layered (depth + 1) entries) {own array : String × Value} (first : own ∈ ownEntries entries)
    (second : array ∈ arrays entries) : own.1 ≠ array.1 := by
  intro same
  obtain ⟨present, single⟩ := List.mem_filter.mp first
  obtain ⟨other, tabular⟩ := List.mem_filter.mp second
  have equal : own = array := inj_on_of_nodup_map layered.1 present other same
  rw [equal, tabular] at single
  cases single

theorem Layered.fills (layered : Layered depth entries) (keys : ∀ key ∈ path, isKey key)
    (enough : ∀ piece ∈ layout depth path entries, piece.chunk.1.length + 3 ≤ fuel) :
    Fills (fuel + 2) path (chunkLines (chunks (layout depth path entries))) (some (reread depth entries)) := by
  induction depth generalizing entries path with
  | zero => exact layered.elim
  | succ depth ih =>
    have arrays : ∀ e ∈ arrays entries, isKey e.1 ∧ tables e.2 ≠ [] ∧ ∀ table ∈ tables e.2,
        Fills (fuel + 2) (path ++ [e.1]) (chunkLines (chunks (layout depth (path ++ [e.1]) table))) (some (reread depth table)) := by
      intro e mem
      obtain ⟨good, filled, each⟩ := layered.array mem
      refine ⟨good, filled, fun table inside => ih (each table inside) (concat_keys keys good) fun piece found => ?_⟩
      exact enough piece (mem_layout_array mem inside found)
    have absent : ∀ e ∈ Toml.arrays entries, has e.1 ((ownEntries entries).map fun e => (e.1, readBack e.2)) = false := by
      intro e mem
      rw [has_eq_false_iff]
      intro entry inside
      obtain ⟨own, present, rfl⟩ := mem_map.mp inside
      exact show own.1 ≠ e.1 from layered.apart present mem
    rw [layout, chunks_append, chunkLines_append]
    exact (layered.fills_own enough).then_some (extends_arrays keys arrays (distinct_filter layered.1 _) absent)

theorem Layered.read_write (layered : Layered depth entries) :
    ∃ text, Toml.write (.dict entries) = .ok text ∧ Toml.read text = .ok (.dict (reread depth entries)) := by
  obtain ⟨text, written, same⟩ := layered.drafted.write
  have size : ∀ piece ∈ layout depth [] entries, piece.chunk.1.length + 3 ≤ 2 * text.toList.length + 6 := by
    intro piece mem
    have bound := length_le_unlines mem
    rw [← same] at bound
    omega
  obtain ⟨way, found⟩ := layered.fills (by simp) size Place.start rfl
  have read := readChars_chunks (by simp) ((scans_chunks (@Drafted.sound entries depth [] layered.drafted (by simp))).append (scans_blank 1))
  rw [replicate_one, ← unlines_eq_intercalate, ← same, chunkLines_append, readAll_append] at read
  change _ = Option.map _ (Option.bind (readAll _ ⟨Place.start.focus.document [], none⟩ _) _) at read
  rw [found] at read
  refine ⟨text, written, ?_⟩
  rw [Toml.read, toOption_eq_some read]
  rfl

end Layered

end Rulewright.Toml
