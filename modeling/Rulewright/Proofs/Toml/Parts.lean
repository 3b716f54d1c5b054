import Rulewright.Proofs.Toml.Fields

/-!
Tables as the writer writes them, piece by piece: the fields of a table, then the tables of its arrays, each under a header with all the
names that lead to it and with an empty line before or after its own pieces (`Drafted.write`).
-/

open List

namespace Rulewright.Toml

open Text Entries Entry
open Scan (sign special isNameChar)

def pathName (path : List String) : String := ".".intercalate path

section Paths

variable {path : List String} {key : String} {fuel : Nat}

theorem isEmpty_of_isKey (good : isKey key) : key.isEmpty = false := by
  have filled := (bare_of_isKey good).filled
  simpa using filled

theorem toList_pathName (path : List String) : (pathName path).toList = ['.'].intercalate (path.map String.toList) := by
  simp [pathName, String.toList_intercalate]

section

variable (keys : ∀ key ∈ path, isKey key = true) {c : Char}
include keys

theorem mem_pathName (mem : c ∈ (pathName path).toList) : c = '.' ∨ isNameChar c := by
  rw [toList_pathName] at mem
  rcases mem_intercalate mem with dot | ⟨part, present, mem⟩
  · exact .inl (mem_singleton.mp dot)
  · obtain ⟨key, inside, rfl⟩ := mem_map.mp present
    exact .inr ((bare_of_isKey (keys key inside)).name c mem)

theorem not_mem_pathName (dot : c ≠ '.') (other : isNameChar c = false) : c ∉ (pathName path).toList := by
  intro mem
  rcases mem_pathName keys mem with same | name
  · exact dot same
  · rw [other] at name
    cases name

theorem ordinary_pathName : ∀ c ∈ (pathName path).toList, c ∉ special := by
  intro c mem mark
  refine not_mem_pathName keys ?_ ?_ mem
  · rintro rfl
    exact absurd mark (by decide)
  · simp only [special, mem_cons, not_mem_nil, or_false] at mark
    rcases mark with rfl | rfl | rfl | rfl | rfl | rfl | rfl <;> decide +kernel

theorem pathName_filled (filled : path ≠ []) : (pathName path).toList ≠ [] := by
  obtain ⟨key, rest, rfl⟩ := exists_cons_of_ne_nil filled
  rw [toList_pathName]
  obtain ⟨c, chars, start⟩ := exists_cons_of_ne_nil (bare_of_isKey (keys key mem_cons_self)).filled
  exact ne_nil_of_mem (mem_intercalate_of_mem (mem_map_of_mem mem_cons_self) (start ▸ mem_cons_self))

end

theorem toList_pathName_concat (filled : path ≠ []) (key : String) :
    (pathName (path ++ [key])).toList = (pathName path).toList ++ '.' :: key.toList := by
  rw [toList_pathName, map_append, intercalate_append (by simpa using filled) (by simp), toList_pathName]
  simp

theorem dotted_pathName (keys : ∀ key ∈ path, isKey key) (key : String) : dotted (pathName path) key = pathName (path ++ [key]) := by
  rw [dotted]
  rcases eq_nil_or_concat path with rfl | ⟨front, last, rfl⟩
  · simp [pathName]
  · have filled := pathName_filled keys (by simp)
    have ends : (pathName (front ++ [last])).toList.getLast? ≠ some '.' := by
      have bare := bare_of_isKey (keys last (by simp))
      have tail : last.toList <:+ (pathName (front ++ [last])).toList := by
        cases front with
        | nil => simp [pathName]
        | cons first front =>
          rw [toList_pathName_concat (by simp)]
          exact (suffix_cons _ _).trans (suffix_append _ _)
      obtain ⟨text, same⟩ := tail
      rw [← same, getLast?_append_of_ne_nil _ bare.filled]
      intro wrong
      exact bare.free (c := '.') (by decide +kernel) (mem_of_getLast? wrong)
    rw [if_neg (by simpa [String.isEmpty_iff] using filled), if_neg (by simpa using ends), ← String.toList_inj,
      toList_pathName_concat (by simp)]
    simp

theorem groupNames_keys (i : Nat) (keys : ∀ key ∈ path, isKey key) (enough : path.length < fuel) :
    groupNames fuel i (path.map String.toList) = .ok path := by
  obtain ⟨fuel, rfl⟩ := Nat.exists_eq_succ_of_ne_zero (Nat.ne_of_gt (Nat.zero_lt_of_lt enough))
  induction path generalizing fuel i with
  | nil => rfl
  | cons key path ih =>
    have good := keys key mem_cons_self
    have bare := bare_of_isKey good
    have trimmed : trim key.toList = key.toList := trim_of_visible bare.visible
    have first {q : Char} (other : isNameChar q = false) : key.toList.head? ≠ some q := by
      intro wrong
      exact bare.free other (mem_of_mem_head? wrong)
    have name : isBareName key.toList := isBareKey_of_isKey good
    rw [length_cons] at enough
    obtain ⟨fuel, rfl⟩ := Nat.exists_eq_succ_of_ne_zero (show fuel ≠ 0 by omega)
    rw [map_cons, groupNames]
    simp only [trimmed, beq_iff_eq, Bool.or_eq_true, first (q := '"') (by decide +kernel), first (q := '\'') (by decide +kernel), or_self,
      if_false, name, if_true, ih (i + 1) (fun key mem => keys key (mem_cons_of_mem _ mem)) fuel (by omega), bind, Except.bind,
      String.ofList_toList]
    rfl

theorem heading_path (filled : path ≠ []) (keys : ∀ key ∈ path, isKey key) : Heading (pathName path).toList path := by
  refine ⟨pathName_filled keys filled, ordinary_pathName keys, fun d => ?_⟩
  have bracket : ']' ∉ (pathName path).toList := not_mem_pathName keys (by decide) (by decide +kernel)
  have double : '"' ∉ (pathName path).toList ++ [']', ']'] := by
    simpa using not_mem_pathName keys (show '"' ≠ '.' by decide) (by decide +kernel)
  have single : '\'' ∉ (pathName path).toList ++ [']', ']'] := by
    simpa using not_mem_pathName keys (show '\'' ≠ '.' by decide) (by decide +kernel)
  obtain ⟨pieces, cut⟩ : ∃ pieces, quotePieces ((pathName path).toList ++ [']', ']']) = ((pathName path).toList ++ [']', ']']) :: pieces := by
    simpa using @quotePieces_head _ [] double single (by simp)
  have inside : contains [']', ']'] ((pathName path).toList ++ [']', ']']) := contains_iff.mpr (suffix_append _ _).isInfix
  have first : cutsBefore [']', ']'] false 1 (quotePieces ((pathName path).toList ++ [']', ']'])) = 1 := by
    rw [cut, cutsBefore, inside]
    rfl
  have parts : cutAtMost [']', ']'] 1 ((pathName path).toList ++ [']', ']']) = [(pathName path).toList, []] := by
    have once := @cutOnce_append_mark _ [']'] _ [] bracket
    rw [append_nil] at once
    rw [cutAtMost, once]
    rfl
  have names : Text.cut ['.'] (pathName path).toList = path.map String.toList := by
    rw [toList_pathName, cut_intercalate (by simpa using filled), flatMap_map, map_eq_flatMap]
    apply flatMap_congr
    intro key mem
    exact cut_of_not_mem ((bare_of_isKey (keys key mem)).free (by decide +kernel))
  have groups := groupNames_keys 0 keys (show path.length < (path.map String.toList).length + 1 by simp)
  rw [Document.header]
  simp only [heading, cons_append, drop_succ_cons, drop_zero, head?_cons, beq_self_eq_true, if_true, first, parts,
    dropLast_cons_cons, dropLast_singleton, intercalate_singleton, names, groups]
  rfl

end Paths

def arrayKeys : List String := ["rules", "edges", "filters"]

def isArrayKey (key : String) : Bool := arrayKeys.contains key

def front (entries : Entries) : Entries := entries.filter fun e => !isArrayKey e.1

def tables : Value → List Entries
  | .list items => items.filterMap Value.dict?
  | _ => []

structure IsField (e : String × Value) : Prop where
  key : isKey e.1 = true
  single : isArrayKey e.1 = false
  field : Field e.2

structure IsArray (kind : Entries → Prop) (e : String × Value) : Prop where
  key : isArrayKey e.1 = true
  tables : ∃ all : List Entries, all ≠ [] ∧ e.2 = .list (all.map .dict) ∧ ∀ table ∈ all, kind table

def Fields (fields : Entries) : Prop := ∀ e ∈ fields, IsField e

structure Element (entries : Entries) : Prop where
  each : ∀ e ∈ entries, IsField e ∨ e.1 = "filters" ∧ IsArray Fields e
  filled : front entries ≠ []

structure Regular (entries : Entries) : Prop where
  each : ∀ e ∈ entries, IsField e ∨ IsArray Element e
  distinct : (entries.map Prod.fst).Nodup

theorem isKey_of_isArrayKey {key : String} (array : isArrayKey key) : isKey key := by
  simp only [isArrayKey, arrayKeys, contains_eq_mem, mem_cons, not_mem_nil, or_false, decide_eq_true_eq] at array
  rcases array with rfl | rfl | rfl <;> decide

theorem tables_dicts (all : List Entries) : tables (.list (all.map .dict)) = all := by
  simp [tables, filterMap_map, Function.comp_def, Value.dict?]

theorem any_isTable {all : List Entries} (filled : all ≠ []) : (all.map Value.dict).any isTable := by
  obtain ⟨table, rest, rfl⟩ := exists_cons_of_ne_nil filled
  rfl

def isTabular (e : String × Value) : Bool :=
  match e.2 with
  | .list items => items.any isTable
  | _ => false

def ownEntries (entries : Entries) : Entries := entries.filter fun e => !isTabular e

def arrays (entries : Entries) : Entries := entries.filter isTabular

def opensArray (entries : Entries) : Bool := (ownEntries entries).isEmpty && !(arrays entries).isEmpty

inductive Piece where
  | blank
  | field (key : String) (value : Value)
  | header (path : List String)

namespace Piece

def chunk : Piece → List Char × List Char
  | .blank => ([], [])
  | .field key value => (ofValue key value).chunk
  | .header path => (heading (pathName path).toList, heading (pathName path).toList)

def Sound : Piece → Prop
  | .blank => True
  | .field key value => isKey key = true ∧ Writable value
  | .header path => path ≠ [] ∧ ∀ key ∈ path, isKey key = true

theorem Sound.scans {piece : Piece} (sound : piece.Sound) : Scan.Lines piece.chunk.1 piece.chunk.2 := by
  cases piece with
  | blank => exact Scan.lines_blank
  | field key value =>
    have reads := sound.2.reads (bare_of_isKey sound.1) (Nat.le_refl _)
    exact Scan.lines_entry reads.bare.filled reads.bare.name reads.scans
  | header path =>
    have known := heading_path sound.1 sound.2
    exact Scan.lines_heading known.filled known.ordinary

end Piece

def chunks (pieces : List Piece) : List (List Char × List Char) := pieces.map Piece.chunk

def fieldPieces (fields : Entries) : List Piece := fields.map fun e => .field e.1 e.2

def element (path : List String) (table : Entries) (body : List Piece) : List Piece :=
  .header path :: if opensArray table then .blank :: body else body ++ [.blank]

def layout : Nat → List String → Entries → List Piece
  | 0, _, _ => []
  | depth + 1, path, entries => fieldPieces (ownEntries entries) ++
      (arrays entries).flatMap fun e => (tables e.2).flatMap fun table => element (path ++ [e.1]) table (layout depth (path ++ [e.1]) table)

def Nests (leaf : Value → Prop) (kind : Entries → Prop) (v : Value) : Prop :=
  leaf v ∨ ∃ all : List Entries, all ≠ [] ∧ v = .list (all.map .dict) ∧ ∀ table ∈ all, kind table

def Drafted : Nat → Entries → Prop
  | 0, _ => False
  | depth + 1, entries => ∀ e ∈ entries, isKey e.1 = true ∧ Nests Writable (Drafted depth) e.2

def unlines (chunks : List (List Char × List Char)) : List Char := chunks.flatMap fun chunk => chunk.1 ++ ['\n']

@[simp] theorem unlines_nil : unlines [] = [] := rfl

@[simp] theorem unlines_cons (chunk : List Char × List Char) (chunks : List (List Char × List Char)) :
    unlines (chunk :: chunks) = chunk.1 ++ '\n' :: unlines chunks := by simp [unlines]

@[simp] theorem unlines_append (front back : List (List Char × List Char)) : unlines (front ++ back) = unlines front ++ unlines back := by
  simp [unlines]

@[simp] theorem chunks_append (front back : List Piece) : chunks (front ++ back) = chunks front ++ chunks back := map_append

theorem chunks_flatMap {α : Type} (f : α → List Piece) (items : List α) : chunks (items.flatMap f) = items.flatMap fun item => chunks (f item) :=
  map_flatMap

theorem unlines_flatMap {α : Type} (f : α → List Piece) (items : List α) :
    unlines (chunks (items.flatMap f)) = items.flatMap fun item => unlines (chunks (f item)) := by
  simp [chunks_flatMap, unlines, flatMap_assoc]

theorem unlines_eq_intercalate (chunks : List (List Char × List Char)) :
    unlines chunks = ['\n'].intercalate ((chunks ++ [([], [])]).map Prod.fst) := by
  induction chunks with
  | nil => rfl
  | cons chunk chunks ih => rw [unlines_cons, ih, cons_append, map_cons, intercalate_cons_of_ne_nil (by simp), append_cons]

theorem length_le_unlines {pieces : List Piece} {piece : Piece} (mem : piece ∈ pieces) :
    piece.chunk.1.length ≤ (unlines (chunks pieces)).length := by
  rw [unlines_eq_intercalate]
  exact length_le_intercalate (mem_map_of_mem (mem_append_left _ (mem_map_of_mem mem)))

theorem scans_chunks {pieces : List Piece} (sound : ∀ piece ∈ pieces, piece.Sound) : Scans (chunks pieces) := by
  intro chunk mem
  obtain ⟨piece, present, rfl⟩ := mem_map.mp mem
  exact (sound piece present).scans

section Writing

variable {name key : String} {e : String × Value} {leaf : Value → Prop} {kind : Entries → Prop} {entries : Entries} {depth : Nat} {path : List String}

theorem Writable.single {v : Value} (writable : Writable v) (key : String) : isTabular (key, v) = false := by
  cases writable with
  | texts each => simp [isTabular, isTable]
  | _ => rfl

theorem Nests.own (nests : Nests leaf kind e.2) (own : isTabular e = false) : leaf e.2 := by
  rcases nests with plain | ⟨all, filled, value, -⟩
  · exact plain
  · rw [isTabular, value] at own
    simp [any_isTable filled] at own

theorem Nests.array (nests : Nests leaf kind e.2) (writable : ∀ v, leaf v → Writable v) (array : isTabular e = true) :
    tables e.2 ≠ [] ∧ e.2 = .list ((tables e.2).map .dict) ∧ ∀ table ∈ tables e.2, kind table := by
  rcases nests with plain | ⟨all, filled, value, each⟩
  · rw [(writable e.2 plain).single e.1] at array
    cases array
  · rw [value, tables_dicts]
    exact ⟨filled, rfl, each⟩

theorem concat_keys (keys : ∀ key ∈ path, isKey key) {key : String} (good : isKey key) : ∀ name ∈ path ++ [key], isKey name := by
  intro name mem
  rcases mem_append.mp mem with mem | mem
  · exact keys name mem
  · exact mem_singleton.mp mem ▸ good

theorem Drafted.own (drafted : Drafted (depth + 1) entries) (mem : e ∈ ownEntries entries) : isKey e.1 ∧ Writable e.2 := by
  obtain ⟨present, single⟩ := List.mem_filter.mp mem
  exact (drafted e present).imp_right fun nests => nests.own (by simpa using single)

theorem Drafted.array (drafted : Drafted (depth + 1) entries) (mem : e ∈ arrays entries) :
    isKey e.1 ∧ tables e.2 ≠ [] ∧ e.2 = .list ((tables e.2).map .dict) ∧ ∀ table ∈ tables e.2, Drafted depth table := by
  obtain ⟨present, array⟩ := List.mem_filter.mp mem
  exact (drafted e present).imp_right fun nests => nests.array (fun _ => id) array

theorem Drafted.sound (drafted : Drafted depth entries) (keys : ∀ key ∈ path, isKey key) : ∀ piece ∈ layout depth path entries, piece.Sound := by
  induction depth generalizing entries path with
  | zero => exact drafted.elim
  | succ depth ih =>
    intro piece mem
    rcases mem_append.mp mem with mem | mem
    · obtain ⟨e, present, rfl⟩ := mem_map.mp mem
      exact drafted.own present
    · obtain ⟨e, present, mem⟩ := mem_flatMap.mp mem
      obtain ⟨table, inside, mem⟩ := mem_flatMap.mp mem
      obtain ⟨good, -, -, each⟩ := drafted.array present
      have longer := concat_keys keys good
      have deeper := ih (each table inside) longer
      rcases mem_cons.mp mem with rfl | mem
      · exact ⟨by simp, longer⟩
      · split at mem
        · rcases mem_cons.mp mem with rfl | mem
          · trivial
          · exact deeper piece mem
        · rcases mem_append.mp mem with mem | mem
          · exact deeper piece mem
          · rw [mem_singleton.mp mem]
            trivial

theorem Drafted.head (drafted : Drafted depth entries) (path : List String) :
    (unlines (chunks (layout depth path entries))).head? = some '[' ↔ opensArray entries := by
  cases depth with
  | zero => exact drafted.elim
  | succ depth =>
    rw [layout, opensArray]
    cases own : ownEntries entries with
    | cons e rest =>
      have bare := bare_of_isKey (drafted.own (own ▸ mem_cons_self)).1
      obtain ⟨c, chars, start⟩ := exists_cons_of_ne_nil bare.filled
      have apart : c ≠ '[' := by
        rintro rfl
        exact bare.free (c := '[') (by decide +kernel) (start ▸ mem_cons_self)
      simp [chunks, fieldPieces, Piece.chunk, Entry.chunk, ofValue_key, start, apart]
    | nil =>
      cases array : arrays entries with
      | nil => simp [chunks, fieldPieces, unlines]
      | cons e rest =>
        obtain ⟨table, others, first⟩ := exists_cons_of_ne_nil (drafted.array (array ▸ mem_cons_self)).2.1
        simp [chunks, fieldPieces, first, element, Piece.chunk, heading]

theorem draftEntries_split (name : String) (text : String × Value → List Char)
    (each : ∀ e ∈ entries, isKey e.1 ∧ ∃ t : String, t.toList = text e ∧
      draftEntry name e.1 e.2 = { body := .ok (if isTabular e then { arrays := t } else { plain := t }) }) :
    ∃ body, draftEntries name entries = { body := .ok body } ∧ body.text.toList = (ownEntries entries).flatMap text ++ (arrays entries).flatMap text := by
  suffices ∃ body, draftEntries name entries = { body := .ok body } ∧ body.plain.toList = (ownEntries entries).flatMap text ∧
      body.arrays.toList = (arrays entries).flatMap text by
    obtain ⟨body, draft, plain, arrays⟩ := this
    exact ⟨body, draft, by rw [Body.text, String.toList_append, plain, arrays]⟩
  induction entries with
  | nil => exact ⟨{}, rfl, rfl, rfl⟩
  | cons e entries ih =>
    obtain ⟨body, others, plain, rest⟩ := ih fun e mem => each e (mem_cons_of_mem _ mem)
    obtain ⟨good, t, same, own⟩ := each e mem_cons_self
    refine ⟨Body.append (if isTabular e then { arrays := t } else { plain := t }) body, ?_, ?_, ?_⟩
    · rw [draftEntries, writeKey_of_isKey good]
      simp only [own, others]
      rfl
    · cases array : isTabular e <;> simpa [Body.append, ownEntries, array, same] using plain
    · cases array : isTabular e <;> simpa [Body.append, arrays, array, same] using rest

theorem writeTables_of {all : List Entries} {own : Entries → List Char} (each : ∀ table ∈ all, ∃ body,
      draftEntries name table = { body := .ok body } ∧ own table = heading name.toList ++ '\n' ::
        if body.text.toList.head? = some '[' then '\n' :: body.text.toList else body.text.toList ++ ['\n']) :
    ∃ text, writeTables name (all.map .dict) = .ok text ∧ text.toList = all.flatMap own := by
  induction all with
  | nil => exact ⟨"", rfl, rfl⟩
  | cons table all ih =>
    obtain ⟨body, draft, same⟩ := each table mem_cons_self
    obtain ⟨text, others, tail⟩ := ih fun table mem => each table (mem_cons_of_mem _ mem)
    obtain ⟨element, done, written⟩ : ∃ element, arrayElement name (draftTable name (.dict table)) = .ok element ∧ element.toList = own table := by
      rw [draftTable, draft]
      refine ⟨_, rfl, ?_⟩
      rw [same]
      by_cases first : body.text.toList.head? = some '['
      · rw [if_pos (by simpa using first), if_pos first]
        simp [heading]
      · rw [if_neg (by simpa using first), if_neg first]
        simp [heading]
    refine ⟨element ++ text, ?_, ?_⟩
    · rw [map_cons, writeTables, done, others]
      rfl
    · simp [written, tail]

theorem Drafted.draft (drafted : Drafted depth entries) (keys : ∀ key ∈ path, isKey key) :
    ∃ body, draftEntries (pathName path) entries = { body := .ok body } ∧ body.text.toList = unlines (chunks (layout depth path entries)) := by
  induction depth generalizing entries path with
  | zero => exact drafted.elim
  | succ depth ih =>
    obtain ⟨body, draft, text⟩ := @draftEntries_split entries (pathName path) (fun e =>
      if isTabular e then unlines (chunks ((tables e.2).flatMap fun table => element (path ++ [e.1]) table (layout depth (path ++ [e.1]) table)))
      else (ofValue e.1 e.2).chunk.1 ++ ['\n']) <| by
        intro e mem
        cases array : isTabular e with
        | false =>
          obtain ⟨good, writable⟩ := drafted.own (List.mem_filter.mpr ⟨mem, by simp [array]⟩)
          obtain ⟨text, own, written⟩ := writable.drafted (pathName path) e.1
          exact ⟨good, text, by simp [written], by simp [own]⟩
        | true =>
          obtain ⟨good, filled, value, each⟩ := drafted.array (List.mem_filter.mpr ⟨mem, array⟩)
          have longer := concat_keys keys good
          obtain ⟨text, done, written⟩ := @writeTables_of (pathName (path ++ [e.1])) (tables e.2)
            (fun table => unlines (chunks (element (path ++ [e.1]) table (layout depth (path ++ [e.1]) table)))) <| by
              intro table inside
              obtain ⟨body, draft, text⟩ := ih (each table inside) longer
              refine ⟨body, draft, ?_⟩
              rw [text, element]
              have start := (each table inside).head (path ++ [e.1])
              by_cases opens : opensArray table
              · rw [if_pos opens, if_pos (start.mpr opens)]
                simp [chunks, Piece.chunk]
              · rw [if_neg opens, if_neg (mt start.mp opens)]
                simp [chunks, Piece.chunk]
          refine ⟨good, text, ?_, ?_⟩
          · rw [if_pos rfl, written, unlines_flatMap]
          · rw [value, draftEntry, if_pos (any_isTable filled), dotted_pathName keys, done]
            rfl
    refine ⟨body, draft, ?_⟩
    rw [text, layout, chunks_append, unlines_append, unlines_flatMap]
    congr 1
    · rw [unlines, chunks, fieldPieces, map_map, flatMap_map]
      apply flatMap_congr
      intro e mem
      have single := (List.mem_filter.mp mem).2
      rw [if_neg (by simpa using single)]
      rfl
    · apply flatMap_congr
      intro e mem
      rw [if_pos (List.mem_filter.mp mem).2]

theorem Drafted.write (drafted : Drafted depth entries) :
    ∃ text, Toml.write (.dict entries) = .ok text ∧ text.toList = unlines (chunks (layout depth [] entries)) := by
  obtain ⟨body, draft, text⟩ := @Drafted.draft entries depth [] drafted (by simp)
  refine ⟨body.text, ?_, text⟩
  rw [Toml.write, draftTable, show ("" : String) = pathName [] from rfl, draft]
  rfl

end Writing

end Rulewright.Toml
