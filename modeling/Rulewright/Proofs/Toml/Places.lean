import Rulewright.Proofs.Toml.Entries

/-!
Places in a document: the table at the top, and below a place the last table of one of its arrays. A header enters the next table of its
array, at whatever depth (`enter_below`, `eq_below`), and the tables that stand under such headers are read one after the other
(`readAll_array`).
-/

open List

namespace Rulewright.Toml

open Entries
open Scan (special)

def chunkLines (chunks : List (List Char × List Char)) : List (List Char) := chunks.flatMap fun chunk => Text.cut ['\n'] chunk.2

theorem chunkLines_append (front back : List (List Char × List Char)) : chunkLines (front ++ back) = chunkLines front ++ chunkLines back := by
  simp [chunkLines]

theorem chunkLines_intercalate (gap : List (List Char × List Char)) (parts : List (List (List Char × List Char))) :
    chunkLines (gap.intercalate parts) = (chunkLines gap).intercalate (parts.map chunkLines) := Text.flatMap_intercalate _ _ _

def Scans (chunks : List (List Char × List Char)) : Prop := ∀ chunk ∈ chunks, Scan.Lines chunk.1 chunk.2

theorem scans_blank (count : Nat) : Scans (replicate count ([], [])) := by
  intro chunk mem
  rw [eq_of_mem_replicate mem]
  exact Scan.lines_blank

theorem Scans.append {front back : List (List Char × List Char)} (first : Scans front) (second : Scans back) : Scans (front ++ back) := by
  intro chunk mem
  exact (mem_append.mp mem).elim (first chunk) (second chunk)

theorem Scans.intercalate {gap : List (List Char × List Char)} {parts : List (List (List Char × List Char))} (between : Scans gap)
    (each : ∀ part ∈ parts, Scans part) : Scans (gap.intercalate parts) := by
  intro chunk mem
  rcases Text.mem_intercalate mem with mem | ⟨part, present, mem⟩
  · exact between chunk mem
  · exact each part present chunk mem

theorem readChars_chunks {chunks : List (List Char × List Char)} (filled : chunks ≠ []) (each : Scans chunks) :
    (readChars (['\n'].intercalate (chunks.map Prod.fst))).toOption =
      (readAll (2 * (['\n'].intercalate (chunks.map Prod.fst)).length + 8) {} (chunkLines chunks)).map (·.document.root) := by
  have scans : scan (['\n'].intercalate (chunks.map Prod.fst)) = .ok (['\n'].intercalate (chunks.map Prod.snd)) := by
    apply scan_lines
    rw [forall₂_map_left_iff, forall₂_map_right_iff, forall₂_same]
    exact each
  have cut : Text.cut ['\n'] (['\n'].intercalate (chunks.map Prod.snd)) = chunkLines chunks := by
    rw [Text.cut_intercalate (by simpa using filled), flatMap_map]
    rfl
  rw [← readLines_toOption 0, readChars, scans]
  simp only [bind, Except.bind, cut]
  cases readLines (2 * (['\n'].intercalate (chunks.map Prod.fst)).length + 8) 0 {} (chunkLines chunks) <;> rfl

theorem readAll_blank (fuel : Nat) (d : Document) : readAll fuel ⟨d, none⟩ [[]] = some ⟨d, none⟩ := by
  rfl

def elements (key : String) (entries : Entries) : List Value :=
  match Entries.get? key entries with
  | some (.list items) => items
  | _ => []

def arrayEntry (key : String) (items : List Value) : Entries := if items.isEmpty then [] else [(key, .list items)]

structure Place where
  root : Entries → Value
  way : List Down
  names : List String
  table : ∀ entries, valueAt way (root entries) = .dict entries
  change : ∀ {entries changed : Entries} {f : Value → Value}, f (.dict entries) = .dict changed → changeAt f way (root entries) = root changed
  leads : ∀ (entries : Entries) (key : String) (rest : List String),
    (Document.mk (root entries) [] []).enterAll true (names ++ key :: rest) = (Document.mk (root entries) way []).enterAll true (key :: rest)

theorem valueAt_null (way : List Down) : valueAt way .null = .null := by
  induction way with
  | nil => rfl
  | cons down way ih =>
    cases down with
    | key name => exact ih
    | last => rfl

theorem valueAt_append (first second : List Down) (v : Value) : valueAt (first ++ second) v = valueAt second (valueAt first v) := by
  induction first generalizing v with
  | nil => rfl
  | cons down first ih =>
    cases down with
    | key name => exact ih _
    | last =>
      cases v with
      | list items => exact ih _
      | _ => exact (valueAt_null second).symm

theorem changeAt_append (f : Value → Value) (first second : List Down) (v : Value) :
    changeAt f (first ++ second) v = changeAt (changeAt f second) first v := by
  induction first generalizing v with
  | nil => rfl
  | cons down first ih =>
    cases down with
    | key name => simp only [cons_append, changeAt, ih]
    | last =>
      cases v with
      | list items => simp only [cons_append, changeAt, ih]
      | _ => rfl

theorem readAll_blocks {β : Type} {fuel : Nat} {blocks : List β} {lines : β → List (List Char)} {value? : β → Option Value} {gap : List (List Char)}
    (state : List Value → List Down → Reading) (skip : ∀ done way, readAll fuel (state done way) gap = some (state done way))
    (step : ∀ block ∈ blocks, ∀ done way, ∃ way', readAll fuel (state done way) (lines block) = (value? block).map fun v => state (done ++ [v]) way')
    (done : List Value) (way : List Down) :
    ∃ way', readAll fuel (state done way) (gap.intercalate (blocks.map lines)) = (blocks.mapM value?).map fun vs => state (done ++ vs) way' := by
  induction blocks generalizing done way with
  | nil => exact ⟨way, by simp [readAll]⟩
  | cons block blocks ih =>
    obtain ⟨middle, first⟩ := step block mem_cons_self done way
    have rest := ih fun block mem => step block (mem_cons_of_mem _ mem)
    cases read : value? block with
    | none =>
      refine ⟨way, ?_⟩
      have failed : readAll fuel (state done way) (lines block) = none := by rw [first, read]; rfl
      cases blocks with
      | nil => rw [map_singleton, intercalate_singleton, failed, mapM_cons, read]; rfl
      | cons next blocks =>
        rw [map_cons, map_cons, intercalate_cons_cons, append_assoc, readAll_append, failed, mapM_cons, read]
        rfl
    | some v =>
      have next : readAll fuel (state done way) (lines block) = some (state (done ++ [v]) middle) := by rw [first, read]; rfl
      cases blocks with
      | nil =>
        refine ⟨middle, ?_⟩
        rw [map_singleton, intercalate_singleton, next, mapM_cons, read]
        rfl
      | cons other blocks =>
        obtain ⟨last, others⟩ := rest (done ++ [v]) middle
        refine ⟨last, ?_⟩
        have whole : (block :: other :: blocks).mapM value? = ((other :: blocks).mapM value?).map (v :: ·) := by
          rw [mapM_cons, read]
          cases (other :: blocks).mapM value? <;> rfl
        rw [map_cons, map_cons, intercalate_cons_cons, append_assoc, readAll_append, next, Option.bind_some, readAll_append, skip,
          Option.bind_some, ← map_cons, others, whole]
        simp

namespace Place

variable {place : Place} {key : String} {base entries : Entries} {items : List Value} {fuel : Nat}

def focus (place : Place) : Focus where
  document entries := ⟨place.root entries, place.way, []⟩
  table := place.table
  update same := by simp only [Document.update, place.change same]

def start : Place where
  root := .dict
  way := []
  names := []
  table _ := rfl
  change same := same
  leads _ _ _ := rfl

def below (place : Place) (named : key.isEmpty = false) (base : Entries) (items : List Value) : Place where
  root entries := place.root (put key (.list (items ++ [.dict entries])) base)
  way := place.way ++ [.key key, .last]
  names := place.names ++ [key]
  table entries := by
    rw [valueAt_append, place.table]
    simp [valueAt, Value.field?, get?_put_self]
  change same := by
    rw [changeAt_append]
    apply place.change
    simp [changeAt, Value.field?, Value.set, get?_put_self, put_put, same]
  leads entries name rest := by
    obtain ⟨first, others, filled⟩ := exists_cons_of_ne_nil (show items ++ [Value.dict entries] ≠ [] by simp)
    have enters : Document.enter ⟨place.root (put key (.list (first :: others)) base), place.way, []⟩ true false key =
        .ok ⟨place.root (put key (.list (first :: others)) base), place.way ++ [.key key, .last], []⟩ := by
      simp [Document.enter, named, place.table, get?_put_self, valueAt_append, valueAt, Value.field?]
    rw [append_assoc, singleton_append, place.leads, filled, Document.enterAll, isEmpty_cons, enters]
    rfl

section

variable (place) (named : key.isEmpty = false)

theorem enter_array (array : get? key entries = none ∨ ∃ items, get? key entries = some (.list items)) :
    Document.enter ⟨place.root entries, place.way, []⟩ true true key = .ok ((place.below named entries (elements key entries)).focus.document []) := by
  have changed : changeAt (·.set key (.list (elements key entries ++ [.dict []]))) place.way (place.root entries) =
      place.root (put key (.list (elements key entries ++ [.dict []])) entries) := place.change rfl
  have value : valueAt (place.way ++ [.key key]) (place.root (put key (.list (elements key entries ++ [.dict []])) entries)) =
      .list (elements key entries ++ [.dict []]) := by
    rw [valueAt_append, place.table]
    simp [valueAt, Value.field?, get?_put_self]
  rcases array with found | ⟨items, found⟩
  · have empty : elements key entries = [] := by simp [elements, found]
    rw [empty, nil_append] at changed value
    simp [Document.enter, named, place.table, found, changed, value, focus, below, empty]
  · have all : elements key entries = items := by simp [elements, found]
    rw [all] at changed value
    simp [Document.enter, named, place.table, found, changed, value, focus, below, all]

theorem enter_below (array : get? key entries = none ∨ ∃ items, get? key entries = some (.list items)) :
    (Document.mk (place.root entries) [] []).enterAll true (place.names ++ [key]) =
      .ok ((place.below named entries (elements key entries)).focus.document []) := by
  rw [place.leads, Document.enterAll, isEmpty_nil, enter_array place named array]
  rfl

theorem eq_below {next : Document} (enters : (Document.mk (place.root entries) [] []).enterAll true (place.names ++ [key]) = .ok next) :
    next = (place.below named entries (elements key entries)).focus.document [] := by
  have array : get? key entries = none ∨ ∃ items, get? key entries = some (.list items) := by
    rw [place.leads] at enters
    obtain ⟨d, entered, -⟩ := bind_cases enters
    cases found : get? key entries with
    | none => exact .inl rfl
    | some existing =>
      cases existing with
      | list items => exact .inr ⟨items, rfl⟩
      | _ => simp [Document.enter, named, place.table, found, throw, throwThe, MonadExceptOf.throw] at entered
  rw [enter_below place named array] at enters
  exact (Except.ok.inj enters).symm

end

end Place

def heading (name : List Char) : List Char := '[' :: '[' :: name ++ [']', ']']

structure Heading (name : List Char) (names : List String) : Prop where
  filled : name ≠ []
  ordinary : ∀ c ∈ name, c ∉ special
  opens : ∀ d : Document, d.header (heading name) = { d with current := [] }.enterAll true names

namespace Heading

variable {name : List Char} {names : List String} (known : Heading name names)
include known

theorem scans {body : List (List Char × List Char)} (inside : Scans body) : Scans ((heading name, heading name) :: body) := by
  intro chunk mem
  rcases mem_cons.mp mem with rfl | mem
  · exact Scan.lines_heading known.filled known.ordinary
  · exact inside chunk mem

theorem chunkLines (body : List (List Char × List Char)) :
    Toml.chunkLines ((heading name, heading name) :: body) = heading name :: Toml.chunkLines body := by
  have single : '\n' ∉ heading name := by
    simp only [heading, cons_append, mem_cons, mem_append, not_mem_nil, or_false, Char.reduceEq, false_or]
    exact fun mem => known.ordinary _ mem (by decide)
  rw [Toml.chunkLines, flatMap_cons, Text.cut_of_not_mem single]
  rfl

theorem line (fuel : Nat) (d : Document) :
    Reading.line ⟨d, none⟩ fuel (heading name) = ({ d with current := [] }.enterAll true names).map fun next => ⟨next, none⟩ := by
  have trimmed : Text.trim (heading name) = heading name := by
    apply Text.trim_eq_self
    · rfl
    · rw [show heading name = '[' :: '[' :: name ++ [']'] ++ [']'] by simp [heading], getLast?_concat]
      rfl
  rw [← known.opens d]
  rw [heading, cons_append] at trimmed ⊢
  rw [Reading.line]
  simp only [Option.any_none, Bool.false_eq_true, if_false, trimmed]
  cases d.header ('[' :: ('[' :: name ++ [']', ']'])) <;> rfl

end Heading

section Filling

variable {key : String} {base entries : Entries} {fuel : Nat} {names : List String} {lines others : List (List Char)} {entries? next? : Option Entries} {begin : Place → Document}

def Reaches (fuel : Nat) (names : List String) (begin : Place → Document) (lines : List (List Char)) (entries? : Option Entries) : Prop :=
  ∀ place : Place, place.names = names → ∃ way, readAll fuel ⟨begin place, none⟩ lines =
    entries?.map fun entries => ⟨⟨place.root entries, way, []⟩, none⟩

def Fills (fuel : Nat) (names : List String) (lines : List (List Char)) (entries? : Option Entries) : Prop :=
  Reaches fuel names (fun place => place.focus.document []) lines entries?

def Extends (fuel : Nat) (names : List String) (base : Entries) (lines : List (List Char)) (entries? : Option Entries) : Prop :=
  ∀ way, Reaches fuel names (fun place => ⟨place.root base, way, []⟩) lines entries?

theorem Reaches.then (first : Reaches fuel names begin lines entries?)
    {next? : Entries → Option Entries} (more : ∀ entries ∈ entries?, Extends fuel names entries others (next? entries)) :
    Reaches fuel names begin (lines ++ others) (entries?.bind next?) := by
  intro place named
  obtain ⟨way, read⟩ := first place named
  rw [readAll_append, read]
  cases entries? with
  | none => exact ⟨way, rfl⟩
  | some entries => exact more entries rfl way place named

theorem Reaches.then_some (first : Reaches fuel names begin lines (some entries))
    (more : Extends fuel names entries others next?) : Reaches fuel names begin (lines ++ others) next? := by
  have both := first.then fun found same => (show Extends fuel names found others next? from Option.some.inj same ▸ more)
  exact both

theorem elements_array (absent : has key base = false) (items : List Value) : elements key (base ++ arrayEntry key items) = items := by
  rw [elements, get?_append_absent absent]
  cases items <;> simp [arrayEntry, Entries.get?]

theorem put_array (absent : has key base = false) (items : List Value) (v : Value) :
    put key v (base ++ arrayEntry key items) = base ++ [(key, v)] := by
  rw [put_append_absent absent]
  cases items <;> simp [arrayEntry, put]

theorem extends_array {β : Type} {blocks : List β} {body : β → List (List Char × List Char)} {read : β → Option Entries} {name : List Char}
    {gap : List (List Char × List Char)}
    (known : Heading name (names ++ [key])) (named : key.isEmpty = false) (absent : has key base = false)
    (blank : ∀ d, readAll fuel ⟨d, none⟩ (chunkLines gap) = some ⟨d, none⟩)
    (each : ∀ block ∈ blocks, Fills fuel (names ++ [key]) (chunkLines (body block)) (read block)) :
    Extends fuel names base (chunkLines (gap.intercalate (blocks.map fun block => (heading name, heading name) :: body block)))
      ((blocks.mapM fun block => (read block).map Value.dict).map fun values => base ++ arrayEntry key values) := by
  rintro way place rfl
  have step : ∀ block ∈ blocks, ∀ (items : List Value) (way : List Down),
      ∃ way', readAll fuel ⟨⟨place.root (base ++ arrayEntry key items), way, []⟩, none⟩ (chunkLines ((heading name, heading name) :: body block)) =
        ((read block).map Value.dict).map fun v => ⟨⟨place.root (base ++ arrayEntry key (items ++ [v])), way', []⟩, none⟩ := by
    intro block mem items way
    have array : get? key (base ++ arrayEntry key items) = none ∨ ∃ all, get? key (base ++ arrayEntry key items) = some (.list all) := by
      rw [get?_append_absent absent]
      cases items <;> simp [arrayEntry, get?]
    have enters := Place.enter_below place named array
    rw [elements_array absent] at enters
    obtain ⟨way', inside⟩ := each block mem (place.below named (base ++ arrayEntry key items) items) rfl
    refine ⟨way', ?_⟩
    rw [known.chunkLines, readAll_cons, known.line, enters]
    refine inside.trans ?_
    rw [Option.map_map]
    congr 1
    funext entries
    have filled (items : List Value) (v : Value) : arrayEntry key (items ++ [v]) = [(key, .list (items ++ [v]))] := by simp [arrayEntry]
    simp only [Function.comp_apply, filled, ← put_array absent items]
    rfl
  obtain ⟨way', whole⟩ := readAll_blocks _ (fun _ _ => blank _) step [] way
  refine ⟨way', ?_⟩
  rw [chunkLines_intercalate, map_map, Option.map_map]
  rw [arrayEntry, isEmpty_nil, if_pos rfl, append_nil] at whole
  exact whole

end Filling

end Rulewright.Toml
