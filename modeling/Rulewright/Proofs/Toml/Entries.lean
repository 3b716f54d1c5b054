import Rulewright.Proofs.Runs
import Rulewright.Proofs.Toml.Arrays
import Rulewright.Proofs.Toml.Lines
import Rulewright.Proofs.Toml.Numbers

/-!
Tables of entries. An entry knows how its value is written, what the scan makes of it and what is read for it; a table of them with
different keys is read entry by entry. Short and long texts, arrays of texts, numbers and truth values are entries.
-/

open List

namespace Rulewright

namespace Entries

variable {key : String} {entries : Entries}

theorem get?_append (key : String) (a b : Entries) : get? key (a ++ b) = (get? key a).or (get? key b) := by
  induction a with
  | nil => rfl
  | cons entry a ih =>
    obtain ⟨k, v⟩ := entry
    by_cases same : k = key <;> simp [get?, same, ih]

theorem get?_append_absent (absent : has key entries = false) (rest : Entries) : get? key (entries ++ rest) = get? key rest := by
  have none : get? key entries = none := by simpa [has] using absent
  rw [get?_append, none, Option.none_or]

theorem get?_append_present (present : has key entries) (rest : Entries) : get? key (entries ++ rest) = get? key entries := by
  rw [get?_append, Option.or_of_isSome present]

theorem put_put (key : String) (first second : Value) (entries : Entries) : put key second (put key first entries) = put key second entries := by
  induction entries with
  | nil => simp [put]
  | cons entry rest ih =>
    obtain ⟨k, v⟩ := entry
    by_cases same : k = key <;> simp [put, same, ih]

theorem put_append_absent (absent : has key entries = false) (value : Value) (rest : Entries) :
    put key value (entries ++ rest) = entries ++ put key value rest := by
  induction entries with
  | nil => rfl
  | cons entry others ih =>
    obtain ⟨k, v⟩ := entry
    by_cases same : k = key
    · simp [has, get?, same] at absent
    · have later : has key others = false := by simpa [has, get?, same] using absent
      simp [put, same, ih later]

theorem put_absent (absent : has key entries = false) (value : Value) : put key value entries = entries ++ [(key, value)] := by
  simpa [put] using put_append_absent absent value []

theorem has_eq_false_iff : has key entries = false ↔ ∀ entry ∈ entries, entry.1 ≠ key := by
  induction entries with
  | nil => simp [has, get?]
  | cons entry rest ih =>
    obtain ⟨k, v⟩ := entry
    by_cases same : k = key
    · simp [has, get?, same]
    · rw [has] at ih
      simp [has, get?, same, ih]

end Entries

namespace Toml

open Scan (sign fence quoted array)

variable {text : List Char}

structure Entry where
  key : List Char
  written : List Char
  scanned : List Char
  value : Option Value

namespace Entry

variable {table : List Entry} {fields : Entries}

def name (e : Entry) : String := String.ofList e.key

def chunk (e : Entry) : List Char × List Char := (e.key ++ sign ++ e.written, e.key ++ sign ++ e.scanned)

def lines (e : Entry) : List (List Char) := Text.cut ['\n'] e.chunk.2

structure Reads (fuel : Nat) (e : Entry) : Prop where
  bare : Bare e.key
  scans : Scan.AfterKey e.written e.scanned
  reads : ∀ (focus : Focus) (entries : Entries), readAll (fuel + 2) ⟨focus.document entries, none⟩ e.lines =
    if Entries.has e.name entries then none else e.value.map fun v => ⟨focus.document (Entries.put e.name v entries), none⟩

def fields? (table : List Entry) : Option Entries := table.mapM fun e => e.value.map (e.name, ·)

theorem readAll_table {fuel : Nat} (focus : Focus) (each : ∀ e ∈ table, e.Reads fuel) (distinct : (table.map name).Nodup)
    {entries : Entries} (absent : ∀ e ∈ table, Entries.has e.name entries = false) :
    readAll (fuel + 2) ⟨focus.document entries, none⟩ (table.flatMap lines) =
      (fields? table).map fun fields => ⟨focus.document (entries ++ fields), none⟩ := by
  induction table generalizing entries with
  | nil => simp [fields?, readAll]
  | cons e table ih =>
    rw [map_cons, nodup_cons] at distinct
    have new : Entries.has e.name entries = false := absent e mem_cons_self
    rw [flatMap_cons, readAll_append, (each e mem_cons_self).reads focus, new, if_neg Bool.false_ne_true, fields?, mapM_cons, ← fields?]
    cases e.value with
    | none => rfl
    | some v =>
      have next := @ih (fun e mem => each e (mem_cons_of_mem _ mem)) distinct.2 (entries ++ [(e.name, v)]) ?_
      · simp only [Option.map_some, Option.bind_some, Entries.put_absent new, next]
        cases fields? table <;> simp
      · intro other mem
        rw [Entries.has_eq_false_iff]
        intro entry inside
        rcases mem_append.mp inside with inside | inside
        · exact Entries.has_eq_false_iff.mp (absent other (mem_cons_of_mem _ mem)) entry inside
        · rw [mem_singleton] at inside
          subst inside
          rintro (same : e.name = other.name)
          exact distinct.1 (same ▸ mem_map_of_mem mem)

theorem fields?_iff :
    fields? table = some fields ↔ List.Forall₂ (fun e r => e.name = r.1 ∧ e.value = some r.2) table fields := by
  rw [fields?, mapM_some_iff]
  refine iff_of_eq (congrArg (List.Forall₂ · table fields) (funext fun e => funext fun r => ?_))
  simp [Prod.ext_iff, and_comm]

theorem fields?_names (read : fields? table = some fields) : fields.map Prod.fst = table.map name := by
  rw [eq_comm, ← forall₂_eq_eq_eq, forall₂_map_left_iff, forall₂_map_right_iff]
  exact (fields?_iff.mp read).imp fun e r same => same.1

end Entry

structure Line (value : List Char) : Prop where
  scans : Scan.AfterKey value value
  quiet : Quiet value
  trimmed : Text.trim value = value
  filled : value ≠ []
  closed : opensText value = .ok false
  single : '\n' ∉ value

theorem Line.content {key value : List Char} (bare : Bare key) (line : Line value) : Text.trim (key ++ sign ++ value) = key ++ sign ++ value := by
  have ends : Text.trimEnd value = value := by
    rw [← line.trimmed, Text.trim, Text.trimEnd_trimEnd]
  rw [trim_entry bare (by rw [ends]; exact line.filled), ends]

theorem Entry.reads_line {fuel : Nat} {key value : List Char} {v : Option Value} (bare : Bare key) (line : Line value)
    (read : (loadValue (fuel + 1) value (isStrictNumber (' ' :: value))).toOption.map Prod.fst = v) : Reads fuel ⟨key, value, value, v⟩ := by
  refine ⟨bare, line.scans, fun focus entries => ?_⟩
  subst read
  rw [lines, chunk, name, Text.cut_of_not_mem (newline_free bare line.single), readAll_cons,
    line_bare focus bare line.quiet line.trimmed (line.content bare), line.closed]
  cases loadValue (fuel + 1) value (isStrictNumber (' ' :: value)) <;> cases Entries.has (String.ofList key) entries <;> rfl

structure Simple (text : List Char) : Prop where
  filled : text ≠ []
  quote : '"' ∉ text
  backslash : '\\' ∉ text
  ret : '\r' ∉ text

theorem Simple.inner (simple : Simple text) : Scan.Inner (escapeLines text) := by
  refine ⟨?_, escapeLines_ne_nil simple.filled, getLast?_escapeLines simple.backslash⟩
  intro c mem
  simp only [Scan.specialInside, mem_cons, not_mem_nil, or_false, not_or]
  rcases mem_escapeLines mem with ⟨inside, newline⟩ | rfl | rfl
  · refine ⟨?_, newline, ?_⟩ <;> rintro rfl
    · exact simple.ret inside
    · exact simple.quote inside
  · decide
  · decide

theorem Simple.item (simple : Simple text) : Item (escapeLines text) :=
  ⟨escapeLines_ne_nil simple.filled, fun inside => simple.inner.plain _ inside (by decide), getLast?_escapeLines simple.backslash⟩

theorem line_of_scans (scans : Scan.AfterKey (quoted text) (quoted text)) (starts : text.head? ≠ some '"') (single : '\n' ∉ text) :
    Line (quoted text) := by
  refine ⟨scans, ?_, ?_, ?_, ?_, ?_⟩
  · simp [Quiet, quoted]
  · refine Text.trim_eq_self rfl ?_
    rw [quoted, getLast?_concat]
    rfl
  · simp [quoted]
  · cases text with
    | nil => rfl
    | cons c rest =>
      have other : c ≠ '"' := by simpa using starts
      obtain ⟨next, more, tail⟩ := exists_cons_of_ne_nil (show rest ++ ['"'] ≠ [] by simp)
      have whole : quoted (c :: rest) = '"' :: c :: next :: more := by simp [quoted, tail]
      simp [whole, opensText, isLongOpen, other, pure, Except.pure]
  · simpa [quoted] using single

theorem line_quoted (simple : Simple text) (single : '\n' ∉ text) : Line (quoted text) := by
  have inner := simple.inner
  rw [escapeLines_of_not_mem single] at inner
  exact line_of_scans (Scan.value_short inner) (fun first => simple.quote (mem_of_head? first)) single

theorem line_brackets {inner : List Char}
    (scans : ∀ done rest, (Scan.mid false false 1 ('[' :: done)).run (inner ++ rest) = (Scan.mid false false 1 (inner.reverse ++ '[' :: done)).run rest)
    (quiet : Quiet ('[' :: inner ++ [']'])) (single : '\n' ∉ inner) : Line ('[' :: inner ++ [']']) := by
  refine ⟨Scan.value_brackets scans, quiet, trim_brackets inner, by simp, ?_, by simpa using single⟩
  rw [opensText, trim_brackets, getLast?_concat]
  split
  · rfl
  · simp [isLongOpen]

theorem line_array {items : List (List Char)} (inner : ∀ text ∈ items, Scan.Inner text) : Line (array items) := by
  refine line_brackets (fun _ _ => Scan.run_items inner (by decide) (by decide)) ?_ ?_
  · cases items with
    | nil => simp [Quiet]
    | cons text items =>
      cases items <;> simp [Quiet, quoted, intercalate_cons_cons]
  · have free : ∀ text ∈ items.map quoted, '\n' ∉ text := by
      intro text mem inside
      obtain ⟨item, present, rfl⟩ := mem_map.mp mem
      have mem : '\n' ∈ item := by simpa [quoted] using inside
      exact (inner item present).plain _ mem (by decide)
    intro inside
    rcases Text.mem_intercalate inside with mem | ⟨text, present, mem⟩
    · exact absurd mem (by decide)
    · exact free text present mem

theorem line_numeral (n : Int) : Line (numeral n) := by
  have filled : numeral n ≠ [] := by
    rw [numeral]
    simp [digits]
  have free {c : Char} (other : c.isDigit = false) (sign : c ≠ '-') : c ∉ numeral n := numeral_free other sign
  have first : (numeral n).head? ≠ some '"' ∧ (numeral n).head? ≠ some '\'' ∧ (numeral n).head? ≠ some '[' := by
    refine ⟨fun wrong => ?_, fun wrong => ?_, fun wrong => ?_⟩
    all_goals exact numeral_free (by decide) (by decide) (mem_of_head? wrong)
  refine ⟨Scan.value_bare ?_, ?_, Text.trim_of_visible (visible_numeral n), filled, ?_, free (by decide) (by decide)⟩
  · intro c mem special
    simp only [Scan.special, mem_cons, not_mem_nil, or_false] at special
    rcases special with rfl | rfl | rfl | rfl | rfl | rfl | rfl <;> exact numeral_free (by decide) (by decide) mem
  · exact fun inside => free (by decide) (by decide) ((takeWhile_sublist _).subset inside)
  · obtain ⟨c, rest, start⟩ := exists_cons_of_ne_nil filled
    rw [start] at first ⊢
    obtain ⟨double, single, bracket⟩ := first
    simp only [head?_cons, ne_eq, Option.some.injEq] at double single bracket
    simp [opensText, isLongOpen, double, single, bracket, pure, Except.pure]

namespace Entry

variable {fuel : Nat} {key : String} {text out : List Char}

def short (key : String) (text : List Char) : Entry := ⟨key.toList, quoted text, quoted text, some (.str (String.ofList text))⟩

def long (key : String) (text out : List Char) : Entry :=
  ⟨key.toList, fence ++ text ++ fence, fence ++ out ++ fence, some (.str (String.ofList (asRead out)))⟩

def array (fuel : Nat) (key : String) (texts : List (List Char)) : Entry :=
  let written := Scan.array (texts.map escapeLines)
  ⟨key.toList, written, written, (loadValue (fuel + 1) written (isStrictNumber (' ' :: written))).toOption.map Prod.fst⟩

def number (key : String) (n : Int) : Entry :=
  ⟨key.toList, numeral n, numeral n, if (digits n).length ≤ Text.digitLimit then some (.int n) else none⟩

def truth (key : String) (b : Bool) : Entry :=
  let word := if b then ['t', 'r', 'u', 'e'] else ['f', 'a', 'l', 's', 'e']
  ⟨key.toList, word, word, some (.bool b)⟩

section

variable (bare : Bare key.toList)
include bare

theorem short_reads (simple : Simple text) (single : '\n' ∉ text) : (short key text).Reads fuel := by
  refine reads_line bare (line_quoted simple single) ?_
  have read := readText_quoted simple.filled simple.quote simple.backslash
  rw [escapeLines_of_not_mem single] at read
  exact congrArg (fun read => read.toOption.map Prod.fst) (loadValue_text read)

theorem long_reads (scans : Scan.AfterKey (fence ++ text ++ fence) (fence ++ out ++ fence)) (closes : Sealed out) :
    (long key text out).Reads fuel := ⟨bare, scans, fun focus => readAll_long focus bare closes⟩

theorem array_reads {texts : List (List Char)} (simple : ∀ text ∈ texts, Simple text) : (array fuel key texts).Reads fuel := by
  refine reads_line bare (line_array ?_) rfl
  intro item mem
  obtain ⟨text, present, rfl⟩ := mem_map.mp mem
  exact (simple text present).inner

theorem number_reads (n : Int) : (number key n).Reads fuel := by
  refine reads_line bare (line_numeral n) ?_
  rw [isStrictNumber_numeral, loadValue_numeral]
  split <;> rfl

theorem truth_reads (b : Bool) : (truth key b).Reads fuel := by
  have line : Line (if b then ['t', 'r', 'u', 'e'] else ['f', 'a', 'l', 's', 'e']) := by
    cases b <;> exact ⟨Scan.value_bare (by simp [Scan.special]), by simp [Quiet], by decide, by decide, rfl, by decide⟩
  refine reads_line bare line ?_
  cases b <;> rfl

end

end Entry
end Toml
end Rulewright
