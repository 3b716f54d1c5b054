import Rulewright.Proofs.Toml.Gathering

/-!
Tables that are written one after the other into one document. Blanks at the ends of the document are taken off before it is read, and
with them only empty lines; so if the document can be read, its arrays have the rows of all tables (`rows_of_joined`).
-/

open List

namespace Rulewright.Toml

open Text Entries Entry
open Scan (sign quoted fence)

variable {key name text : String} {kept texts : List String} {current : Option String} {found : List (List (Option Value))}
  {piece : Piece} {pieces rest : List Piece} {entries fields : Entries} {all : List Entries} {kind : Entries → Prop} {table : Value}

def Tells (key : String) (kept : List String) (entries : Entries) : Prop := ∀ e ∈ entries, e.1 = key → ∀ table ∈ tables e.2, Holds kept table

/-- Wherever they are read, the pieces open these rows before those of what follows. -/
def Adds (key : String) (kept : List String) (pieces : List Piece) (found : List (List (Option Value))) : Prop :=
  ∀ rest more, (∀ current, Reads key kept current rest more) → ∀ current, Reads key kept current (pieces ++ rest) (found ++ more)

section Adding

theorem adds_blank : Adds key kept [.blank] [] := fun _ _ reads current => .blank (reads current)

theorem Adds.append {more : List (List (Option Value))} (first : Adds key kept pieces found) (second : Adds key kept rest more) :
    Adds key kept (pieces ++ rest) (found ++ more) := by
  intro tail last reads current
  rw [append_assoc, append_assoc]
  exact first _ _ (second tail last reads) current

theorem Adds.flatMap {α : Type} {f : α → List Piece} {g : α → List (List (Option Value))} {items : List α}
    (each : ∀ a ∈ items, Adds key kept (f a) (g a)) : Adds key kept (items.flatMap f) (items.flatMap g) := by
  induction items with
  | nil => exact fun _ _ reads => reads
  | cons a items ih => exact (each a mem_cons_self).append (ih fun a mem => each a (mem_cons_of_mem _ mem))

theorem reads_fields (each : Fields fields) (reads : Reads key kept current rest found) : Reads key kept current (fieldPieces fields ++ rest) found := by
  induction fields with
  | nil => exact reads
  | cons e fields ih => exact .field (each e mem_cons_self) (ih fun e mem => each e (mem_cons_of_mem _ mem))

theorem leading_fields (fields : Entries) (rest : List Piece) : leading (fieldPieces fields ++ rest) = fields ++ leading rest := by
  induction fields with
  | nil => rfl
  | cons e fields ih => exact congrArg (_ :: ·) ih

theorem isTabular_eq {e : String × Value} (each : IsField e ∨ IsArray kind e) : isTabular e = isArrayKey e.1 := by
  rcases each with field | ⟨array, all, filled, value, -⟩
  · rw [field.single, field.field.writable.single]
  · simp [isTabular, value, any_isTable filled, array]

section Tables

variable (each : ∀ e ∈ entries, IsField e ∨ IsArray kind e)
include each

theorem ownEntries_eq : ownEntries entries = front entries := filter_congr fun e mem => by rw [isTabular_eq (each e mem)]

theorem fields_front : Fields (front entries) := by
  intro e mem
  obtain ⟨present, single⟩ := List.mem_filter.mp mem
  rcases each e present with field | array
  · exact field
  · simp [array.key] at single

theorem drafted_of {depth : Nat} (inner : ∀ table, kind table → Drafted depth table) : Drafted (depth + 1) entries := by
  intro e mem
  rcases each e mem with field | ⟨array, all, filled, value, kinds⟩
  · exact ⟨field.key, .inl field.field.writable⟩
  · exact ⟨isKey_of_isArrayKey array, .inr ⟨all, filled, value, fun table inside => inner table (kinds table inside)⟩⟩

theorem exists_table {e : String × Value} (mem : e ∈ arrays entries) :
    isArrayKey e.1 ∧ e.2 = .list ((tables e.2).map .dict) ∧ ∀ table ∈ tables e.2, kind table := by
  obtain ⟨present, tabular⟩ := List.mem_filter.mp mem
  rw [isTabular_eq (each e present)] at tabular
  rcases each e present with field | ⟨-, all, -, value, kinds⟩
  · rw [field.single] at tabular
    cases tabular
  · rw [value, tables_dicts]
    exact ⟨tabular, rfl, kinds⟩

end Tables

theorem Fields.each (fields : Fields entries) : ∀ e ∈ entries, IsField e ∨ IsArray (fun _ => False) e := fun e mem => .inl (fields e mem)

theorem Element.each' (element : Element entries) : ∀ e ∈ entries, IsField e ∨ IsArray Fields e := fun e mem => (element.each e mem).imp_right And.right

theorem Regular.drafted (regular : Regular entries) : Drafted 3 entries :=
  drafted_of regular.each fun _ element => drafted_of element.each' fun _ fields => show Drafted (0 + 1) _ from drafted_of fields.each fun _ => id

theorem Fields.element (each : Fields fields) (depth : Nat) (path : List String) :
    element path fields (layout (depth + 1) path fields) = .header path :: (fieldPieces fields ++ [.blank]) := by
  have own : ownEntries fields = fields := (ownEntries_eq each.each).trans (filter_eq_self.mpr fun e mem => by simp [(each e mem).single])
  have none : arrays fields = [] := filter_eq_nil_iff.mpr fun e mem => by simp [isTabular_eq (each.each e mem), (each e mem).single]
  simp [Toml.element, opensArray, layout, own, none]

theorem reads_filters (array : isArrayKey name) (each : ∀ fields ∈ all, Fields fields) (reads : Reads key kept (some name) rest found) :
    Reads key kept (some name) ((all.flatMap fun t => element [name, "filters"] t (layout 1 [name, "filters"] t)) ++ rest) found := by
  induction all with
  | nil => exact reads
  | cons fields all ih =>
    have inner := each fields mem_cons_self
    rw [flatMap_cons, inner.element, append_assoc, cons_append, append_assoc]
    exact .filters array (reads_fields inner (.blank (ih fun fields mem => each fields (mem_cons_of_mem _ mem))))

theorem get?_front (single : isArrayKey name = false) (entries : Entries) : get? name (front entries) = get? name entries := by
  induction entries with
  | nil => rfl
  | cons e entries ih =>
    by_cases array : isArrayKey e.1
    · have other : e.1 ≠ name := by
        intro same
        rw [same, single] at array
        cases array
      simpa [front, array, get?, other] using ih
    · have kept : front (e :: entries) = e :: front entries := by simp [front, array]
      rw [kept, get?, get?, ih]

theorem Element.adds (element : Element entries) (array : isArrayKey name) (plain : ∀ k ∈ kept, isArrayKey k = false)
    (holds : name = key → Holds kept entries) :
    Adds key kept (Toml.element [name] entries (layout 2 [name] entries)) (if name = key then [row kept (.dict entries)] else []) := by
  intro rest more reads current
  have own := ownEntries_eq element.each'
  have opens : opensArray entries = false := by simp [opensArray, own, element.filled]
  have filters : ∀ e ∈ arrays entries, e.1 = "filters" := fun e mem => by
    obtain ⟨array, -, -⟩ := exists_table element.each' mem
    rcases element.each e (mem_of_mem_filter mem) with field | ⟨named, -⟩
    · rw [field.single] at array
      cases array
    · exact named
  obtain ⟨inner, each, body⟩ : ∃ inner : List Entries, (∀ fields ∈ inner, Fields fields) ∧ layout 2 [name] entries =
      fieldPieces (front entries) ++ inner.flatMap fun t => Toml.element [name, "filters"] t (layout 1 [name, "filters"] t) := by
    refine ⟨(arrays entries).flatMap fun e => tables e.2, fun fields mem => ?_, ?_⟩
    · obtain ⟨e, present, inside⟩ := mem_flatMap.mp mem
      exact (exists_table element.each' present).2.2 fields inside
    · rw [layout, own, flatMap_assoc]
      exact congrArg _ (flatMap_congr fun e mem => by rw [filters e mem]; rfl)
  have lead : leading (fieldPieces (front entries) ++ ((inner.flatMap fun t => Toml.element [name, "filters"] t (layout 1 [name, "filters"] t)) ++
      .blank :: rest)) = front entries := by
    rw [leading_fields]
    cases inner <;> simp [Toml.element]
  have same : row kept (.dict (front entries)) = row kept (.dict entries) := map_congr_left fun k mem => get?_front (plain k mem) entries
  have next := reads_fields (fields_front element.each') (reads_filters array each (.blank (reads _)))
  have whole := @Reads.element key kept current _ _ _ array (fun named => ?_) next
  · rw [lead, same] at whole
    simpa [Toml.element, opens, body] using whole
  rw [lead]
  refine ⟨fun k mem => ?_, fun e mem => (holds named).exact e (mem_of_mem_filter mem)⟩
  rw [has, get?_front (plain k mem)]
  exact (holds named).present k mem

theorem flatMap_key {β : Type} (f : Value → List β) (distinct : (entries.map Prod.fst).Nodup) :
    (entries.flatMap fun e => if e.1 = key then f e.2 else []) = ((get? key entries).map f).getD [] := by
  induction entries with
  | nil => rfl
  | cons e entries ih =>
    obtain ⟨k, v⟩ := e
    rw [map_cons, nodup_cons] at distinct
    rw [flatMap_cons, ih distinct.2, get?]
    by_cases same : k = key
    · have absent : get? key entries = none := by
        have later : has key entries = false := by
          rw [has_eq_false_iff]
          intro e mem named
          exact distinct.1 (mem_map.mpr ⟨e, mem, named.trans same.symm⟩)
        simpa [has] using later
      simp [same, absent]
    · simp [same]

theorem flatMap_arrays {β : Type} {f : String × Value → List β} (plain : ∀ e ∈ entries, isTabular e = false → f e = []) :
    (arrays entries).flatMap f = entries.flatMap f := by
  induction entries with
  | nil => rfl
  | cons e entries ih =>
    have rest := ih fun e mem => plain e (mem_cons_of_mem _ mem)
    cases tabular : isTabular e with
    | true => simpa [arrays, tabular] using rest
    | false => simpa [arrays, tabular, plain e mem_cons_self tabular] using rest

theorem Regular.adds (regular : Regular entries) (array : isArrayKey key) (plain : ∀ k ∈ kept, isArrayKey k = false) (tells : Tells key kept entries) :
    Adds key kept (layout 3 [] entries) (rows key kept entries) := by
  have arrays : Adds key kept ((arrays entries).flatMap fun e => (tables e.2).flatMap fun t => Toml.element [e.1] t (layout 2 [e.1] t))
      ((arrays entries).flatMap fun e => (tables e.2).flatMap fun t => if e.1 = key then [row kept (.dict t)] else []) := by
    refine .flatMap fun e mem => .flatMap fun t inside => ?_
    obtain ⟨array, -, each⟩ := exists_table regular.each mem
    exact (each t inside).adds array plain fun named => tells e (mem_of_mem_filter mem) named t inside
  have same : rows key kept entries =
      (Toml.arrays entries).flatMap fun e => (tables e.2).flatMap fun t => if e.1 = key then [row kept (.dict t)] else [] := by
    have others : ∀ e ∈ entries, isTabular e = false → e.1 ≠ key := by
      rintro e mem single rfl
      rw [isTabular_eq (regular.each e mem), array] at single
      cases single
    have each : ∀ e : String × Value, ((tables e.2).flatMap fun t => if e.1 = key then [row kept (.dict t)] else []) =
        if e.1 = key then (tables e.2).map fun t => row kept (.dict t) else [] := by
      intro e
      split <;> simp [map_eq_flatMap]
    simp only [each]
    rw [flatMap_arrays fun e mem single => if_neg (others e mem single), flatMap_key (fun v => (tables v).map fun t => row kept (.dict t)) regular.distinct,
      rows, elements]
    cases found : get? key entries with
    | none => rfl
    | some v =>
      have present := mem_of_get? found
      obtain ⟨-, value, -⟩ := exists_table regular.each (List.mem_filter.mpr ⟨present, by rw [isTabular_eq (regular.each _ present), array]⟩)
      have value : v = .list ((tables v).map .dict) := value
      rw [value]
      simp [tables_dicts]
  intro rest more reads current
  rw [layout, ownEntries_eq regular.each, append_assoc, same]
  exact reads_fields (fields_front regular.each) (arrays rest more reads current)

end Adding

section Trimming

theorem Reads.of_concat_blank (reads : Reads key kept current (pieces ++ [.blank]) found) : Reads key kept current pieces found := by
  have lead (pieces : List Piece) : leading (pieces ++ [.blank]) = leading pieces := by
    induction pieces with
    | nil => rfl
    | cons piece pieces ih => cases piece <;> simp_all [leading]
  induction pieces generalizing current found with
  | nil =>
    cases reads with
    | blank later =>
      cases later
      exact .nil
  | cons piece pieces ih =>
    cases reads with
    | blank later => exact .blank (ih later)
    | field field later => exact .field field (ih later)
    | element array holds later =>
      rw [append_eq, lead] at holds ⊢
      exact .element array holds (ih later)
    | filters array later => exact .filters array (ih later)

/-- The first and the last character are no blanks. -/
structure Framed (text : List Char) : Prop where
  first : ∃ c, [c] <+: text ∧ isBlank c = false
  last : ∃ c, [c] <:+ text ∧ isBlank c = false

theorem Framed.trim_blanks {text : List Char} (framed : Framed text) (n : Nat) : trim (text ++ replicate n '\n') = text := by
  obtain ⟨⟨c, ⟨rest, rfl⟩, first⟩, ⟨d, ⟨front, ends⟩, last⟩⟩ := framed
  induction n with
  | zero => exact (append_nil _).symm ▸ trim_eq_self (by simp [first]) (by simp [← ends, last])
  | succ n ih =>
    rw [replicate_succ', ← append_assoc]
    exact (trim_concat_blank first (by decide)).trans ih

theorem Field.last (name : String) {v : Value} (field : Field v) : ∃ c, [c] <:+ (ofValue name v).written ∧ isBlank c = false := by
  cases field with
  | @text s one =>
    rw [ofValue, if_neg one.single]
    exact ⟨'"', ⟨'"' :: escapeText s.toList, rfl⟩, by decide⟩
  | @lines s several free held =>
    rw [ofValue, if_pos several]
    exact ⟨'"', ⟨fence ++ '\n' :: trimmedText s ++ ['"', '"'], by simp [block, fence]⟩, by decide⟩
  | number n =>
    have filled : numeral n ≠ [] := (line_numeral n).filled
    exact ⟨(numeral n).getLast filled, ⟨_, dropLast_append_getLast filled⟩, visible_numeral n _ (getLast_mem filled)⟩
  | truth b =>
    cases b with
    | false => exact ⟨'e', ⟨['f', 'a', 'l', 's'], rfl⟩, by decide⟩
    | true => exact ⟨'e', ⟨['t', 'r', 'u'], rfl⟩, by decide⟩
  | texts each => exact ⟨']', ⟨_, rfl⟩, by decide⟩

theorem Reads.framed (reads : Reads key kept current pieces found) (mem : piece ∈ pieces) (filled : piece ≠ .blank) : Framed piece.chunk.1 := by
  have header (path : List String) : Framed (Piece.header path).chunk.1 :=
    ⟨⟨'[', ⟨_, rfl⟩, by decide⟩, ⟨']', ⟨'[' :: '[' :: (pathName path).toList ++ [']'], by simp [Piece.chunk, heading]⟩, by decide⟩⟩
  induction reads with
  | nil => cases mem
  | blank later ih => exact ih ((mem_cons.mp mem).resolve_left filled)
  | @field _ _ _ name v field later ih =>
    rcases mem_cons.mp mem with rfl | mem
    · have bare := bare_of_isKey field.key
      obtain ⟨c, rest, start⟩ := exists_cons_of_ne_nil bare.filled
      obtain ⟨d, ends, shown⟩ := field.field.last name
      refine ⟨⟨c, ⟨rest ++ sign ++ (ofValue name v).written, ?_⟩, bare.visible c (by simp [start])⟩, ⟨d, ends.trans (suffix_append _ _), shown⟩⟩
      simp [Piece.chunk, chunk, ofValue_key, start]
    · exact ih mem
  | element array holds later ih => exact (mem_cons.mp mem).elim (fun same => same ▸ header _) ih
  | filters array later ih => exact (mem_cons.mp mem).elim (fun same => same ▸ header _) ih

theorem framed_intercalate {first last : Piece} (start : Framed first.chunk.1) (ends : Framed last.chunk.1) (middle : List Piece) :
    Framed (['\n'].intercalate ((chunks (first :: middle ++ [last])).map Prod.fst)) := by
  obtain ⟨c, opens, visible⟩ := start.first
  obtain ⟨d, closes, shown⟩ := ends.last
  rw [chunks_append, map_append, intercalate_append (by simp [chunks]) (by simp [chunks])]
  refine ⟨⟨c, ?_, visible⟩, ⟨d, ?_, shown⟩⟩
  · rw [chunks, map_cons, map_cons, intercalate_cons_flatMap, append_assoc, append_assoc]
    exact opens.trans (prefix_append _ _)
  · have ends : last.chunk.1 <:+ ['\n'].intercalate (first.chunk.1 :: middle.map (Prod.fst ∘ Piece.chunk)) ++ '\n' :: last.chunk.1 :=
      (suffix_cons _ _).trans (suffix_append _ _)
    exact closes.trans (by simpa [chunks] using ends)

theorem unlines_eq {chunks : List (List Char × List Char)} (filled : chunks ≠ []) :
    unlines chunks = ['\n'].intercalate (chunks.map Prod.fst) ++ ['\n'] := by
  rw [unlines_eq_intercalate, map_append, intercalate_append (by simpa using filled) (by simp)]
  simp

/-- Taking the blanks off the ends takes off the empty lines there. -/
theorem Reads.trim (reads : Reads key kept none pieces found) : ∃ left, (∀ piece ∈ left, piece ∈ pieces) ∧ Reads key kept none left found ∧
    Text.trim (unlines (chunks pieces)) = ['\n'].intercalate ((chunks left).map Prod.fst) := by
  induction pieces with
  | nil => exact ⟨[], by simp, reads, rfl⟩
  | cons first rest ih =>
    by_cases blank : first = .blank
    · subst blank
      cases reads with
      | blank later =>
        obtain ⟨left, inside, reads, text⟩ := ih later
        exact ⟨left, fun piece mem => mem_cons_of_mem _ (inside piece mem), reads, (trim_cons_blank (by decide)).trans text⟩
    · have start := reads.framed mem_cons_self blank
      -- the empty lines at the end are counted while they are taken off
      suffices ∀ n, ∃ left, (∀ piece ∈ left, piece ∈ first :: rest) ∧ Reads key kept none left found ∧
          Text.trim (unlines (chunks (first :: rest)) ++ replicate n '\n') = ['\n'].intercalate ((chunks left).map Prod.fst) by
        simpa using this 0
      clear ih
      induction rest using List.reverseRecOn with
      | nil => exact fun n => ⟨[first], by simp, reads, by simpa [chunks, replicate_succ] using start.trim_blanks (n + 1)⟩
      | append_singleton rest last ih =>
        intro n
        by_cases empty : last = .blank
        · subst empty
          rw [← cons_append] at reads
          obtain ⟨left, inside, reads, text⟩ := ih reads.of_concat_blank (n + 1)
          refine ⟨left, fun piece mem => cons_append ▸ mem_append_left [.blank] (inside piece mem), reads, ?_⟩
          rw [← text, ← cons_append, chunks_append, unlines_append]
          simp [chunks, Piece.chunk, replicate_succ]
        · have framed := framed_intercalate start (reads.framed (by simp) empty) rest
          refine ⟨first :: (rest ++ [last]), fun _ mem => mem, reads, ?_⟩
          rw [unlines_eq (by simp [chunks]), append_assoc]
          exact framed.trim_blanks (n + 1)

end Trimming

def joinedPieces (all : List Entries) : List Piece := .blank :: [.blank].intercalate (all.map (layout 3 [])) ++ [.blank]

theorem unlines_joined (regular : ∀ entries ∈ all, Regular entries)
    (written : List.Forall₂ (fun entries text => Toml.write (.dict entries) = .ok text) all texts) :
    unlines (chunks (joinedPieces all)) = '\n' :: ("\n".intercalate texts).toList ++ ['\n'] := by
  have each : texts.map String.toList = all.map fun entries => unlines (chunks (layout 3 [] entries)) := by
    induction written with
    | nil => rfl
    | @cons entries text all texts first others ih =>
      obtain ⟨same, known, lines⟩ := (regular entries mem_cons_self).drafted.write
      rw [first] at known
      cases known
      rw [map_cons, map_cons, ih fun entries mem => regular entries (mem_cons_of_mem _ mem), lines]
  have joined : unlines (chunks ([Piece.blank].intercalate (all.map (layout 3 [])))) =
      ['\n'].intercalate (all.map fun entries => unlines (chunks (layout 3 [] entries))) := by
    rw [chunks, map_intercalate, unlines, flatMap_intercalate, map_map, map_map]
    rfl
  rw [joinedPieces, chunks_append, unlines_append, String.toList_intercalate, each]
  exact congrArg (fun body => '\n' :: body ++ ['\n']) joined

theorem adds_joined (array : isArrayKey key) (plain : ∀ k ∈ kept, isArrayKey k = false) (regular : ∀ entries ∈ all, Regular entries)
    (tells : ∀ entries ∈ all, Tells key kept entries) : Adds key kept ([.blank].intercalate (all.map (layout 3 []))) (all.flatMap (rows key kept)) := by
  have own {entries : Entries} (mem : entries ∈ all) := (regular entries mem).adds array plain (tells entries mem)
  cases all with
  | nil => exact fun _ _ reads => reads
  | cons entries all =>
    rw [map_cons, intercalate_cons_flatMap, flatMap_map, flatMap_cons]
    exact (own mem_cons_self).append (.flatMap fun other mem => adds_blank.append (own (mem_cons_of_mem _ mem)))

theorem readChars_of_read (read : Toml.read text = .ok table) : readChars text.toList = .ok table := by
  rw [Toml.read] at read
  generalize readChars text.toList = result at read ⊢
  cases result with
  | ok v =>
    cases read
    rfl
  | error refusal => cases refusal <;> cases read

theorem rows_of_joined (array : isArrayKey key) (plain : ∀ k ∈ kept, isArrayKey k = false)
    (regular : ∀ entries ∈ all, Regular entries) (tells : ∀ entries ∈ all, Tells key kept entries)
    (written : List.Forall₂ (fun entries text => Toml.write (.dict entries) = .ok text) all texts)
    (read : Toml.read (strip ("\n" ++ "\n".intercalate texts ++ "\n")) = .ok table) :
    ∃ base, table = .dict base ∧ rows key kept base = all.flatMap (rows key kept) := by
  have reads : Reads key kept none (joinedPieces all) (all.flatMap (rows key kept)) := by
    have whole := (adds_blank.append (adds_joined array plain regular tells)).append adds_blank [] [] (fun _ => .nil) none
    simpa [joinedPieces] using whole
  have sound : ∀ piece ∈ joinedPieces all, piece.Sound := by
    intro piece mem
    simp only [joinedPieces, cons_append, mem_cons, mem_append, not_mem_nil, or_false] at mem
    rcases mem with rfl | mem | rfl
    · trivial
    · rcases mem_intercalate mem with blank | ⟨own, present, mem⟩
      · rw [mem_singleton.mp blank]
        trivial
      · obtain ⟨entries, inside, rfl⟩ := mem_map.mp present
        exact (regular entries inside).drafted.sound (by simp) piece mem
    · trivial
  obtain ⟨left, inside, reads, text⟩ := reads.trim
  rw [unlines_joined regular written] at text
  refine reads.rows_of_readChars (fun mem => absurd (plain _ mem) (by decide)) array (fun piece mem => sound piece (inside piece mem)) ?_
  rw [← text]
  simpa [strip] using readChars_of_read read

end Rulewright.Toml
