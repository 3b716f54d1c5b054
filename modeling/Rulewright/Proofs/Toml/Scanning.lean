import Rulewright.Toml.Scan
import Mathlib

/-!
The first look at the parts of a printed document: headers, keys, and texts, arrays and numbers after them. Each part is left
as it is, and after it the scan stands where it stood; only a long text may change, at its line ends. So a document is scanned line
by line, whatever stands before and after a line.
-/

open List

namespace Rulewright.Toml.Scan

variable {s next : Scan} {c x : Char} {rest done text out : List Char} {long inside : Bool} {depth : Int} {items : List (List Char)}

def fresh (done : List Char) : Scan := { done }

def mid (long inside : Bool) (depth : Int) (done : List Char) : Scan :=
  { done, depth, inText := inside, quote := if inside then some '"' else none, inLongText := long, lineStart := false }

def special : List Char := ['\r', '\n', '\'', '"', '#', '[', ']']

def specialInside : List Char := ['\r', '\n', '"']

attribute [local simp] step atQuote atBracket push bind Except.bind pure Except.pure

theorem run_step (one : s.step c rest = .ok next) : s.run (c :: rest) = next.run rest := by
  rw [run, one]
  rfl

theorem step_ordinary (outside : s.key = .none) (comment : s.inComment = false) (start : s.lineStart = false)
    (ordinary : c ∉ special) : s.step c rest = .ok (s.push c) := by
  obtain ⟨done, depth, inText, quote, long, arrayHeader, header, lineStart, key, dotted, inComment⟩ := s
  obtain rfl := outside
  obtain rfl := comment
  obtain rfl := start
  simp only [special, mem_cons, not_mem_nil, or_false, not_or] at ordinary
  obtain ⟨cr, lf, single, double, hash, opening, closing⟩ := ordinary
  simp [cr, lf, single, double, hash, opening, closing]

theorem step_inside (plain : c ∉ specialInside) : (mid long true depth done).step c rest = .ok (mid long true depth (c :: done)) := by
  simp only [specialInside, mem_cons, not_mem_nil, or_false, not_or] at plain
  obtain ⟨cr, lf, double⟩ := plain
  simp [mid, cr, lf, double]

theorem run_each {state : List Char → Scan} (each : ∀ c ∈ text, ∀ done rest, (state done).step c rest = .ok (state (c :: done))) :
    (state done).run (text ++ rest) = (state (text.reverse ++ done)).run rest := by
  induction text generalizing done with
  | nil => rfl
  | cons c text ih =>
    rw [cons_append, run_step (each c mem_cons_self done _), ih fun c mem => each c (mem_cons_of_mem _ mem)]
    simp

theorem run_ordinary (outside : s.key = .none) (comment : s.inComment = false) (start : s.lineStart = false)
    (ordinary : ∀ c ∈ text, c ∉ special) : s.run (text ++ rest) = { s with done := text.reverse ++ s.done }.run rest :=
  @run_each rest s.done text ({ s with done := · }) fun c mem _ _ => step_ordinary outside comment start (ordinary c mem)

theorem run_inside (plain : ∀ c ∈ text, c ∉ specialInside) :
    (mid long true depth done).run (text ++ rest) = (mid long true depth (text.reverse ++ done)).run rest :=
  run_each fun c mem _ _ => step_inside (plain c mem)

theorem step_quote (quote : x ≠ '"') (backslash : x ≠ '\\') :
    (mid long inside depth (x :: done)).step '"' rest = .ok (mid long (!inside) depth ('"' :: x :: done)) := by
  cases inside <;>
    simp [mid, quotes, oddBackslashes, back, quote, backslash]

theorem step_quote_second (quote : x ≠ '"') :
    (mid long inside depth ('"' :: x :: done)).step '"' rest = .ok (mid long (!inside) depth ('"' :: '"' :: x :: done)) := by
  cases inside <;>
    simp [mid, quotes, back, quote]

theorem step_quote_third (backslash : x ≠ '\\') :
    (mid long inside depth ('"' :: '"' :: x :: done)).step '"' rest =
      .ok (mid (!long) (!long) depth ('"' :: '"' :: '"' :: x :: done)) := by
  cases inside <;> cases long <;>
    simp [mid, quotes, oddBackslashes, back, backslash]

theorem step_opening : (mid long false depth done).step '[' rest = .ok (mid long false (depth + 1) ('[' :: done)) := by
  simp [mid]

theorem step_closing : (mid long false depth done).step ']' rest = .ok (mid long false (depth - 1) (']' :: done)) := by
  simp [mid]

theorem step_newline_fresh : (fresh done).step '\n' rest = .ok (fresh ('\n' :: done)) := by
  simp [fresh, atLineEnd]

theorem step_newline : (mid false false 0 done).step '\n' rest = .ok (fresh ('\n' :: done)) := by
  simp [fresh, mid, atLineEnd]

def within (long : Bool) (q : Option Char) (depth : Int) (done : List Char) : Scan :=
  { done, depth, inText := q.isSome, quote := q, inLongText := long, lineStart := false }

theorem step_within_newline {a b : Char} {q : Option Char} (apart : b = a → a ≠ '\'' ∧ a ≠ '"') :
    (within true q depth (a :: b :: done)).step '\n' rest = .ok (within true q depth ('\n' :: a :: b :: done)) := by
  by_cases same : b = a
  · obtain ⟨single, double⟩ := apart same
    simp [within, atLineEnd, back, same, single, double]
  · simp [within, atLineEnd, back, same]

theorem step_newline_long {a b : Char} (apart : b = a → a ≠ '\'' ∧ a ≠ '"') :
    (mid true inside depth (a :: b :: done)).step '\n' rest = .ok (mid true inside depth ('\n' :: a :: b :: done)) := by
  cases inside <;> exact step_within_newline apart

def isNameChar (c : Char) : Bool :=
  (Text.isAlphanumeric c || c == '_') && !Text.isBlank c && !(['=', '.'] ++ special).contains c

def naming (done : List Char) : Scan := { done, lineStart := false, key := .inside }

theorem step_name_first (name : isNameChar c) : (fresh done).step c rest = .ok (naming (c :: done)) := by
  simp only [isNameChar, special, Bool.and_eq_true, Bool.not_eq_true', contains_eq_mem, decide_eq_false_iff_not] at name
  obtain ⟨⟨word, visible⟩, ordinary⟩ := name
  simp only [cons_append, nil_append, mem_cons, not_mem_nil, or_false, not_or] at ordinary
  obtain ⟨equals, dot, cr, lf, single, double, hash, opening, closing⟩ := ordinary
  have space : c ≠ ' ' := by rintro rfl; simp [Text.isBlank] at visible
  have tab : c ≠ '\t' := by rintro rfl; simp [Text.isBlank] at visible
  simp [fresh, naming, equals, cr, lf, single, double, hash, opening, closing, space, tab]

theorem step_name (name : isNameChar c) : (naming done).step c rest = .ok (naming (c :: done)) := by
  simp only [isNameChar, special, Bool.and_eq_true, Bool.not_eq_true', contains_eq_mem, decide_eq_false_iff_not] at name
  obtain ⟨⟨word, visible⟩, ordinary⟩ := name
  simp only [cons_append, nil_append, mem_cons, not_mem_nil, or_false, not_or] at ordinary
  obtain ⟨equals, dot, cr, lf, -⟩ := ordinary
  simp [naming, inKey, dot, cr, lf, visible, word]

theorem run_name (name : ∀ c ∈ text, isNameChar c) :
    (naming done).run (text ++ rest) = (naming (text.reverse ++ done)).run rest :=
  run_each fun c mem _ _ => step_name (name c mem)

def sign : List Char := [' ', '=', ' ']

theorem run_sign : (naming done).run (sign ++ rest) = (mid false false 0 (sign.reverse ++ done)).run rest := by
  have blank : (naming done).step ' ' ('=' :: ' ' :: rest) = .ok { naming (' ' :: done) with key := .after } := by
    simp [naming, inKey, Text.isBlank]
  have equals : { naming (' ' :: done) with key := .after }.step '=' (' ' :: rest) = .ok (mid false false 0 ('=' :: ' ' :: done)) := by
    simp [naming, mid, inKey, Text.isBlank]
  rw [sign, cons_append, cons_append, cons_append, nil_append, run_step blank, run_step equals]
  exact run_step (step_ordinary rfl rfl rfl (by decide))

theorem run_key (named : text ≠ []) (name : ∀ c ∈ text, isNameChar c) :
    (fresh done).run (text ++ sign ++ rest) = (mid false false 0 ((text ++ sign).reverse ++ done)).run rest := by
  obtain ⟨c, text, rfl⟩ := exists_cons_of_ne_nil named
  rw [append_assoc, cons_append, run_step (step_name_first (name c mem_cons_self)),
    run_name fun c mem => name c (mem_cons_of_mem _ mem), run_sign]
  simp

def heading (done : List Char) : Scan := { done, lineStart := false, inArrayHeader := true }

theorem run_heading (named : text ≠ []) (name : ∀ c ∈ text, c ∉ special) :
    (fresh done).run ('[' :: '[' :: text ++ ']' :: ']' :: rest) =
      (mid false false 0 (('[' :: '[' :: text ++ [']', ']']).reverse ++ done)).run rest := by
  have first : (fresh done).step '[' ('[' :: text ++ ']' :: ']' :: rest) = .ok (heading ('[' :: done)) := by
    simp [fresh, heading]
  have second : (heading ('[' :: done)).step '[' (text ++ ']' :: ']' :: rest) = .ok (heading ('[' :: '[' :: done)) := by
    simp [heading]
  cases text using List.reverseRecOn with
  | nil => contradiction
  | append_singleton front last =>
    have closing : last ≠ ']' := by
      rintro rfl
      exact name ']' (by simp) (by decide)
    have third (more : List Char) : (heading (last :: more)).step ']' (']' :: rest) = .ok (heading (']' :: last :: more)) := by
      simp [heading, back, closing]
    have fourth (more : List Char) : (heading (']' :: more)).step ']' rest = .ok (mid false false 0 (']' :: ']' :: more)) := by
      simp [heading, mid, back]
    rw [cons_append, run_step first, cons_append, run_step second,
      run_ordinary (s := heading ('[' :: '[' :: done)) rfl rfl rfl name]
    rw [reverse_append]
    change (heading (last :: (front.reverse ++ '[' :: '[' :: done))).run (']' :: ']' :: rest) = _
    rw [run_step (third _), run_step (fourth _)]
    simp

def AfterKey (value out : List Char) : Prop :=
  ∀ done rest, (mid false false 0 (' ' :: done)).run (value ++ rest) = (mid false false 0 (out.reverse ++ ' ' :: done)).run rest

theorem value_bare (ordinary : ∀ c ∈ text, c ∉ special) : AfterKey text text :=
  fun done _ => run_ordinary (s := mid false false 0 (' ' :: done)) rfl rfl rfl ordinary

structure Inner (text : List Char) : Prop where
  plain : ∀ c ∈ text, c ∉ specialInside
  filled : text ≠ []
  ends : text.getLast? ≠ some '\\'

def quoted (text : List Char) : List Char := '"' :: text ++ ['"']

theorem run_quoted (inner : Inner text) (quote : x ≠ '"') (backslash : x ≠ '\\') :
    (mid false false depth (x :: done)).run (quoted text ++ rest) = (mid false false depth ((quoted text).reverse ++ x :: done)).run rest := by
  obtain ⟨plain, filled, ends⟩ := inner
  cases text using List.reverseRecOn with
  | nil => exact absurd rfl filled
  | append_singleton front last =>
    have double : last ≠ '"' := by
      rintro rfl
      exact plain '"' (by simp) (by decide)
    have escape : last ≠ '\\' := by simpa using ends
    have opened : (mid false false depth (x :: done)).step '"' (front ++ [last] ++ '"' :: rest) =
        .ok (mid false true depth ('"' :: x :: done)) := step_quote quote backslash
    have closed (more : List Char) : (mid false true depth (last :: more)).step '"' rest = .ok (mid false false depth ('"' :: last :: more)) :=
      step_quote double escape
    have whole : quoted (front ++ [last]) ++ rest = '"' :: (front ++ [last] ++ '"' :: rest) := by simp [quoted]
    rw [whole, run_step opened, run_inside plain, reverse_append, reverse_singleton, singleton_append, cons_append,
      run_step (closed _)]
    simp [quoted]

theorem value_short (inner : Inner text) : AfterKey (quoted text) (quoted text) :=
  fun _ _ => run_quoted inner (by decide) (by decide)

def array (items : List (List Char)) : List Char := '[' :: [',', ' '].intercalate (items.map quoted) ++ [']']

theorem run_items (inner : ∀ text ∈ items, Inner text) (quote : x ≠ '"') (backslash : x ≠ '\\') :
    (mid false false depth (x :: done)).run ([',', ' '].intercalate (items.map quoted) ++ rest) =
      (mid false false depth (([',', ' '].intercalate (items.map quoted)).reverse ++ x :: done)).run rest := by
  induction items generalizing x done with
  | nil => rfl
  | cons text items ih =>
    have first : Inner text := inner text mem_cons_self
    have others : ∀ text ∈ items, Inner text := fun text mem => inner text (mem_cons_of_mem _ mem)
    cases items with
    | nil =>
      rw [map_singleton, intercalate_singleton]
      exact run_quoted first quote backslash
    | cons next items =>
      have comma (done rest : List Char) : (mid false false depth done).run ([',', ' '] ++ rest) = (mid false false depth (' ' :: ',' :: done)).run rest :=
        run_ordinary (s := mid false false depth done) rfl rfl rfl (by simp [special])
      rw [map_cons, map_cons, intercalate_cons_cons, ← map_cons, append_assoc, append_assoc,
        run_quoted first quote backslash, comma, ih others (by decide) (by decide)]
      simp

theorem value_brackets
    (scans : ∀ done rest, (mid false false 1 ('[' :: done)).run (text ++ rest) = (mid false false 1 (text.reverse ++ '[' :: done)).run rest) :
    AfterKey ('[' :: text ++ [']']) ('[' :: text ++ [']']) := by
  intro done rest
  have opened (more : List Char) : (mid false false 0 (' ' :: done)).step '[' more = .ok (mid false false 1 ('[' :: ' ' :: done)) := step_opening
  have closed (more : List Char) : (mid false false 1 more).step ']' rest = .ok (mid false false 0 (']' :: more)) := step_closing
  rw [cons_append, cons_append, append_assoc, singleton_append, run_step (opened _), scans, run_step (closed _)]
  simp

def fence : List Char := ['"', '"', '"']

def InLong (text out : List Char) : Prop :=
  ∀ done rest, (mid true true 0 (fence ++ ' ' :: done)).run (text ++ rest) = (mid true true 0 (out.reverse ++ (fence ++ ' ' :: done))).run rest

theorem run_fence (quote : x ≠ '"') (backslash : x ≠ '\\') :
    (mid long inside depth (x :: done)).run (fence ++ rest) = (mid (!long) (!long) depth (fence ++ x :: done)).run rest := by
  simp only [fence, cons_append, nil_append]
  rw [run_step (step_quote quote backslash), run_step (step_quote_second quote), run_step (step_quote_third backslash)]

theorem value_long (inside : InLong text out) (filled : out ≠ []) (quote : out.getLast? ≠ some '"')
    (backslash : out.getLast? ≠ some '\\') : AfterKey (fence ++ text ++ fence) (fence ++ out ++ fence) := by
  intro done rest
  rw [append_assoc, append_assoc, run_fence (by decide) (by decide), Bool.not_false, inside]
  cases out using List.reverseRecOn with
  | nil => contradiction
  | append_singleton front last =>
    have double : last ≠ '"' := by simpa using quote
    have escape : last ≠ '\\' := by simpa using backslash
    rw [reverse_append, reverse_singleton, singleton_append, cons_append, run_fence double escape]
    simp [fence]

def resting (start : Bool) (done : List Char) : Scan := if start then fresh done else mid false false 0 done

def Lines (text out : List Char) : Prop :=
  ∃ start, ∀ done rest, (fresh done).run (text ++ rest) = (resting start (out.reverse ++ done)).run rest

theorem lines_blank : Lines [] [] := ⟨true, fun _ _ => rfl⟩

theorem lines_heading (named : text ≠ []) (name : ∀ c ∈ text, c ∉ special) :
    Lines ('[' :: '[' :: text ++ [']', ']']) ('[' :: '[' :: text ++ [']', ']']) := by
  refine ⟨false, fun done rest => ?_⟩
  rw [append_assoc]
  exact run_heading named name

theorem lines_entry {value : List Char} (named : text ≠ []) (name : ∀ c ∈ text, isNameChar c) (scans : AfterKey value out) :
    Lines (text ++ sign ++ value) (text ++ sign ++ out) := by
  refine ⟨false, fun done rest => ?_⟩
  have last : (text ++ sign).reverse ++ done = ' ' :: ('=' :: ' ' :: text.reverse ++ done) := by simp [sign]
  rw [append_assoc, run_key named name, last, scans, resting, if_neg Bool.false_ne_true, reverse_append, append_assoc, last]

theorem run_newline (start : Bool) : (resting start done).run ('\n' :: rest) = (fresh ('\n' :: done)).run rest := by
  cases start
  · exact run_step step_newline
  · exact run_step step_newline_fresh

theorem run_lines {texts outs : List (List Char)} (each : List.Forall₂ Lines texts outs) (done : List Char) :
    ∃ start, (fresh done).run (['\n'].intercalate texts) = .ok (resting start ((['\n'].intercalate outs).reverse ++ done)) := by
  induction each generalizing done with
  | nil => exact ⟨true, rfl⟩
  | @cons text out texts outs first others ih =>
    obtain ⟨start, scans⟩ := first
    cases others with
    | nil =>
      refine ⟨start, ?_⟩
      have alone := scans done []
      rw [append_nil] at alone
      rw [intercalate_singleton, intercalate_singleton, alone]
      rfl
    | cons next others =>
      obtain ⟨last, rest⟩ := ih ('\n' :: (out.reverse ++ done))
      refine ⟨last, ?_⟩
      rw [intercalate_cons_cons, append_assoc, scans, singleton_append, run_newline, rest]
      simp

end Scan

theorem scan_lines {texts outs : List (List Char)} (each : List.Forall₂ Scan.Lines texts outs) :
    scan (['\n'].intercalate texts) = .ok (['\n'].intercalate outs) := by
  obtain ⟨start, run⟩ := Scan.run_lines each []
  have started : Scan.run {} (['\n'].intercalate texts) = .ok (Scan.resting start ((['\n'].intercalate outs).reverse ++ [])) := run
  rw [scan, started]
  cases start <;> simp [Scan.resting, Scan.fresh, Scan.mid, bind, Except.bind, pure, Except.pure]

end Rulewright.Toml
