import Rulewright.Text.Blank
import Rulewright.Text.Search
import Mathlib

/-!
Cutting and trimming texts. A cut at one character is `List.splitOn`; a text without the mark stays in one piece, and a trim leaves
alone what starts and ends with a visible character.
-/

open List

namespace Rulewright.Text

variable {sep first blank : Char} {mark cs front back piece : List Char} {c : Char}

theorem pieces_eq_splitOnPPrepend (sep : Char) (done cs : List Char) :
    pieces [sep] 0 done cs = List.splitOnPPrepend (· == sep) cs done := by
  induction cs generalizing done with
  | nil => rfl
  | cons c rest ih =>
    rw [pieces, List.splitOnPPrepend]
    by_cases same : c = sep
    · subst same
      simp [List.isPrefixOf, ih]
    · have apart : (sep == c) = false := by simpa using Ne.symm same
      simp [List.isPrefixOf, ih, apart, same]

theorem cut_eq_splitOn (sep : Char) (cs : List Char) : cut [sep] cs = cs.splitOn sep := by
  rw [cut, pieces_eq_splitOnPPrepend, splitOn_eq_splitOnP, splitOnP_eq_splitOnPPrepend]

theorem cut_append_sep (sep : Char) (front back : List Char) :
    cut [sep] (front ++ sep :: back) = cut [sep] front ++ cut [sep] back := by
  simp only [cut_eq_splitOn, splitOn_append_cons_self]

theorem cut_cons_sep (sep : Char) (cs : List Char) : cut [sep] (sep :: cs) = [] :: cut [sep] cs := by
  rw [cut_eq_splitOn, splitOn_cons_eq_if_modifyHead, if_pos (beq_self_eq_true sep), cut_eq_splitOn]

theorem cut_cons (apart : c ≠ sep) (cs : List Char) : cut [sep] (c :: cs) = (cut [sep] cs).modifyHead (c :: ·) := by
  rw [cut_eq_splitOn, splitOn_cons_eq_if_modifyHead, if_neg (by simpa using apart), cut_eq_splitOn]

theorem cut_of_not_mem (free : sep ∉ cs) : cut [sep] cs = [cs] := by
  rw [cut_eq_splitOn, splitOn_eq_singleton free]

theorem cut_ne_nil (sep : Char) (cs : List Char) : cut [sep] cs ≠ [] := by
  rw [cut_eq_splitOn]
  exact splitOn_ne_nil sep cs

theorem not_mem_of_cut_singleton (alone : cut [sep] cs = [piece]) : sep ∉ cs := by
  intro inside
  obtain ⟨front, back, rfl⟩ := append_of_mem inside
  have two := congrArg List.length alone
  rw [cut_append_sep, length_append, length_singleton] at two
  have first := length_pos_of_ne_nil (cut_ne_nil sep front)
  have second := length_pos_of_ne_nil (cut_ne_nil sep back)
  omega

theorem cut_append (free : sep ∉ front) (back : List Char) :
    ∃ head tail, cut [sep] back = head :: tail ∧ cut [sep] (front ++ back) = (front ++ head) :: tail := by
  obtain ⟨head, tail, pieces⟩ := exists_cons_of_ne_nil (cut_ne_nil sep back)
  refine ⟨head, tail, pieces, ?_⟩
  induction front with
  | nil => exact pieces
  | cons c front ih =>
    obtain ⟨apart, free⟩ := not_or.mp (mem_cons.not.mp free)
    rw [cons_append, cut_cons (Ne.symm apart), ih free]
    rfl

theorem cut_append_back (front : List Char) (free : sep ∉ back) :
    ∃ pieces last, cut [sep] front = pieces ++ [last] ∧ cut [sep] (front ++ back) = pieces ++ [last ++ back] := by
  induction front with
  | nil => exact ⟨[], [], rfl, cut_of_not_mem free⟩
  | cons c front ih =>
    obtain ⟨pieces, last, cut, joined⟩ := ih
    by_cases same : c = sep
    · subst same
      exact ⟨[] :: pieces, last, by rw [cut_cons_sep, cut]; rfl, by rw [cons_append, cut_cons_sep, joined]; rfl⟩
    · cases pieces with
      | nil => exact ⟨[], c :: last, by rw [cut_cons same, cut]; rfl, by rw [cons_append, cut_cons same, joined]; rfl⟩
      | cons first pieces =>
        exact ⟨(c :: first) :: pieces, last, by rw [cut_cons same, cut]; rfl, by rw [cons_append, cut_cons same, joined]; rfl⟩

theorem intercalate_cut (sep : Char) (cs : List Char) : [sep].intercalate (cut [sep] cs) = cs := by
  rw [cut_eq_splitOn, intercalate_splitOn]

theorem cut_intercalate {parts : List (List Char)} (filled : parts ≠ []) : cut [sep] ([sep].intercalate parts) = parts.flatMap (cut [sep]) := by
  induction parts with
  | nil => exact absurd rfl filled
  | cons part parts ih =>
    cases parts with
    | nil => simp
    | cons next parts =>
      rw [intercalate_cons_cons, append_assoc, singleton_append, cut_append_sep, ih (by simp), ← flatMap_cons]

theorem contains_iff : contains mark cs ↔ mark <:+: cs := by
  induction cs with
  | nil => simp [contains]
  | cons c rest ih => rw [contains, Bool.or_eq_true, isPrefixOf_iff_prefix, ih, infix_cons_iff]

theorem contains_of_head_not_mem (free : first ∉ cs) : contains (first :: mark) cs = false := by
  rw [Bool.eq_false_iff, Ne, contains_iff]
  intro inside
  exact free (inside.subset mem_cons_self)

theorem pieces_of_contains (absent : contains mark cs = false) (done : List Char) :
    pieces mark 0 done cs = [done.reverse ++ cs] := by
  induction cs generalizing done with
  | nil => simp [pieces]
  | cons c rest ih =>
    simp only [contains, Bool.or_eq_false_iff] at absent
    rw [pieces, absent.1, ih absent.2]
    simp

theorem cut_of_contains (absent : contains mark cs = false) : cut mark cs = [cs] := by
  rw [cut, pieces_of_contains absent, reverse_nil, nil_append]

theorem contains_mem (inside : sep ∈ cs) : contains [sep] cs := contains_iff.mpr ((singleton_infix_iff _ _).mpr inside)

theorem cutOnce_append_mark (free : first ∉ front) :
    cutOnce (first :: mark) (front ++ (first :: mark ++ back)) = some (front, back) := by
  induction front with
  | nil => simp [cutOnce]
  | cons c front ih =>
    obtain ⟨apart, free⟩ := not_or.mp (mem_cons.not.mp free)
    have other : (first == c) = false := by simpa using apart
    have rest := ih free
    rw [cons_append, cutOnce, List.isPrefixOf, other, rest]
    rfl

theorem cutOnce_append_sep (free : sep ∉ front) : cutOnce [sep] (front ++ sep :: back) = some (front, back) := cutOnce_append_mark free

theorem trimStart_of_head (visible : isBlank c = false) : trimStart (c :: cs) = c :: cs := by
  rw [trimStart, dropWhile_cons_of_neg (by simp [visible])]

theorem trimEnd_of_last (visible : isBlank c = false) : trimEnd (cs ++ [c]) = cs ++ [c] := by
  rw [trimEnd, reverse_append, reverse_singleton, singleton_append,
    dropWhile_cons_of_neg (by simp [visible]), reverse_cons, reverse_reverse]

theorem trimEnd_append_of_ne_nil (rest : trimEnd back ≠ []) : trimEnd (front ++ back) = front ++ trimEnd back := by
  rw [trimEnd] at rest
  rw [trimEnd, reverse_append, dropWhile_append, if_neg (by simpa using rest), reverse_append,
    reverse_reverse, trimEnd]

theorem trimEnd_append (visible : isBlank c = false) : trimEnd (front ++ c :: back) = front ++ c :: trimEnd back := by
  by_cases bare : trimEnd back = []
  · have blank : ∀ x ∈ back.reverse, isBlank x := by
      rw [trimEnd, reverse_eq_nil_iff] at bare
      exact dropWhile_eq_nil_iff.mp bare
    have last : trimEnd (front ++ c :: back) = trimEnd (front ++ [c]) := by
      rw [trimEnd, append_cons, reverse_append, dropWhile_append_of_pos blank, trimEnd]
    rw [last, bare, trimEnd_of_last visible]
  · have kept : trimEnd ([c] ++ back) = [c] ++ trimEnd back := trimEnd_append_of_ne_nil bare
    rw [singleton_append, singleton_append] at kept
    rw [trimEnd_append_of_ne_nil (by simp [kept]), kept]

theorem trimEnd_trimEnd (cs : List Char) : trimEnd (trimEnd cs) = trimEnd cs := by
  rw [trimEnd, trimEnd, reverse_reverse, dropWhile_idempotent]

theorem exists_trimEnd (cs : List Char) : ∃ blanks, cs = trimEnd cs ++ blanks ∧ ∀ c ∈ blanks, isBlank c := by
  refine ⟨(cs.reverse.takeWhile isBlank).reverse, ?_, fun c mem => mem_takeWhile_imp (mem_reverse.mp mem)⟩
  rw [trimEnd, ← reverse_append, takeWhile_append_dropWhile, reverse_reverse]

theorem trim_eq_self (first : cs.head?.all fun c => !isBlank c) (last : cs.getLast?.all fun c => !isBlank c) :
    trim cs = cs := by
  have start : trimStart cs = cs := by
    cases cs with
    | nil => rfl
    | cons c rest => exact trimStart_of_head (by simpa using first)
  rw [trim, start]
  cases cs using List.reverseRecOn with
  | nil => rfl
  | append_singleton front c => exact trimEnd_of_last (by simpa using last)

theorem trim_of_visible (visible : ∀ c ∈ cs, isBlank c = false) : trim cs = cs := by
  apply trim_eq_self
  · cases first : cs.head? with
    | none => rfl
    | some c => simp [visible c (mem_of_mem_head? first)]
  · cases last : cs.getLast? with
    | none => rfl
    | some c => simp [visible c (mem_of_getLast? last)]

theorem trimEnd_concat (hidden : isBlank blank) : trimEnd (cs ++ [blank]) = trimEnd cs := by
  rw [trimEnd, reverse_append, reverse_singleton, singleton_append, dropWhile_cons_of_pos hidden, trimEnd]

theorem trimEnd_concat_ne (hidden : isBlank blank) : trimEnd (cs ++ [blank]) ≠ cs ++ [blank] := by
  intro same
  obtain ⟨blanks, whole, -⟩ := exists_trimEnd cs
  have shorter := congrArg List.length (trimEnd_concat hidden ▸ same)
  have longer := congrArg List.length whole
  simp only [length_append, length_singleton] at shorter longer
  omega

theorem trim_concat_blank (visible : isBlank first = false) (hidden : isBlank blank) :
    trim (first :: cs ++ [blank]) = trim (first :: cs) := by
  rw [trim, cons_append, trimStart_of_head visible, ← cons_append, trimEnd_concat hidden, trim, trimStart_of_head visible]

theorem trim_cons_blank (blank : isBlank c) : trim (c :: cs) = trim cs := by
  rw [trim, trimStart, dropWhile_cons_of_pos blank]
  rfl

section Replacing

variable {old new cs front back done : List Char} {skip : Nat}

theorem pieces_skip : pieces old skip done cs = pieces old 0 done (cs.drop skip) := by
  induction cs generalizing skip with
  | nil => simp [pieces]
  | cons c cs ih =>
    cases skip with
    | zero => rfl
    | succ skip => rw [pieces, ih, drop_succ_cons]

theorem pieces_ne_nil : pieces old skip done cs ≠ [] := by
  fun_induction pieces old skip done cs <;> simp_all

theorem intercalate_pieces : new.intercalate (pieces old 0 done cs) = done.reverse ++ new.intercalate (pieces old 0 [] cs) := by
  induction cs generalizing done with
  | nil => simp [pieces, List.intercalate]
  | cons c cs ih =>
    rw [pieces, pieces]
    split
    · rw [intercalate_cons_of_ne_nil pieces_ne_nil, intercalate_cons_of_ne_nil pieces_ne_nil]
      simp
    · rw [ih, @ih [c]]
      simp

theorem intercalate_pieces_self (filled : old ≠ []) : old.intercalate (pieces old skip done cs) = done.reverse ++ cs.drop skip := by
  induction cs generalizing skip done with
  | nil => simp [pieces]
  | cons c cs ih =>
    cases skip with
    | succ skip => rw [pieces, ih, drop_succ_cons]
    | zero =>
      rw [pieces]
      split
      next begins =>
        obtain ⟨back, whole⟩ := isPrefixOf_iff_prefix.mp begins
        obtain ⟨d, rest, rfl⟩ := exists_cons_of_ne_nil filled
        cases whole
        rw [intercalate_cons_of_ne_nil pieces_ne_nil, ih]
        simp
      next =>
        rw [ih]
        simp

theorem replace_nil (filled : old ≠ []) : replace old new [] = [] := by
  simp [replace, filled, cut, pieces, List.intercalate]

theorem replace_append (filled : old ≠ []) : replace old new (old ++ back) = new ++ replace old new back := by
  obtain ⟨c, rest, rfl⟩ := exists_cons_of_ne_nil filled
  simp only [replace, isEmpty_cons, Bool.false_eq_true, if_false, cut, cons_append]
  rw [pieces, if_pos (by simp), intercalate_cons_of_ne_nil pieces_ne_nil, pieces_skip]
  simp

theorem replace_cons (filled : old ≠ []) (absent : ¬old <+: c :: cs) : replace old new (c :: cs) = c :: replace old new cs := by
  simp only [replace, List.isEmpty_iff, filled, if_false, cut]
  rw [pieces, if_neg (by simpa using absent), intercalate_pieces]
  simp

theorem replace_front (filled : old ≠ []) (absent : ∀ v, v <:+ front → v ≠ [] → ¬old <+: v ++ back) :
    replace old new (front ++ back) = front ++ replace old new back := by
  induction front with
  | nil => rfl
  | cons c front ih =>
    have here : ¬old <+: c :: (front ++ back) := absent (c :: front) suffix_rfl (by simp)
    rw [cons_append, replace_cons filled here, ih fun v ends => absent v (ends.trans (suffix_cons c front)), cons_append]

end Replacing

section Joining

variable {α β : Type} {sep part : List α} {parts : List (List α)}

theorem intercalate_cons_flatMap (sep first : List α) (rest : List (List α)) :
    sep.intercalate (first :: rest) = first ++ rest.flatMap (sep ++ ·) := by
  induction rest generalizing first with
  | nil => simp
  | cons next rest ih => rw [intercalate_cons_cons, ih, flatMap_cons, append_assoc, append_assoc]

theorem intercalate_nil (parts : List (List α)) : [].intercalate parts = parts.flatten := by
  cases parts <;> simp [intercalate_cons_flatMap]

theorem intercalate_append {front back : List (List α)} (start : front ≠ []) (rest : back ≠ []) :
    sep.intercalate (front ++ back) = sep.intercalate front ++ sep ++ sep.intercalate back := by
  obtain ⟨part, front, rfl⟩ := exists_cons_of_ne_nil start
  obtain ⟨next, back, rfl⟩ := exists_cons_of_ne_nil rest
  simp [intercalate_cons_flatMap]

theorem intercalate_flatten {parts : List (List (List α))} (filled : ∀ part ∈ parts, part ≠ []) :
    sep.intercalate (parts.map sep.intercalate) = sep.intercalate parts.flatten := by
  induction parts with
  | nil => rfl
  | cons part parts ih =>
    have others : ∀ part ∈ parts, part ≠ [] := fun part mem => filled part (mem_cons_of_mem _ mem)
    cases parts with
    | nil => simp
    | cons next parts =>
      have rest : (next :: parts).flatten ≠ [] := by
        have start : next ≠ [] := others next mem_cons_self
        simp [start]
      rw [map_cons, map_cons, intercalate_cons_cons, ← map_cons, ih others,
        ← intercalate_append (filled part mem_cons_self) rest]
      rfl

theorem intercalate_double {parts : List (List (List α))} (filled : ∀ part ∈ parts, part ≠ []) :
    (sep ++ sep).intercalate (parts.map sep.intercalate) = sep.intercalate ([[]].intercalate parts) := by
  induction parts with
  | nil => rfl
  | cons part parts ih =>
    have first : part ≠ [] := filled part mem_cons_self
    have others : ∀ part ∈ parts, part ≠ [] := fun part mem => filled part (mem_cons_of_mem _ mem)
    cases parts with
    | nil => simp
    | cons next parts =>
      have rest : [[]].intercalate (next :: parts) ≠ [] := by
        have start : next ≠ [] := others next mem_cons_self
        cases parts <;> simp [start, intercalate_cons_cons]
      have blank : sep.intercalate ([[]] ++ [[]].intercalate (next :: parts)) = sep ++ sep.intercalate ([[]].intercalate (next :: parts)) := by
        rw [intercalate_append (by simp) rest, intercalate_singleton, nil_append]
      rw [map_cons, map_cons, intercalate_cons_cons, ← map_cons, ih others, intercalate_cons_cons, append_assoc part,
        intercalate_append first (by simp), blank]
      simp

theorem flatMap_intercalate (f : α → List β) (gap : List α) (parts : List (List α)) :
    (gap.intercalate parts).flatMap f = (gap.flatMap f).intercalate (parts.map (·.flatMap f)) := by
  cases parts <;> simp [intercalate_cons_flatMap, flatMap_assoc, flatMap_map]

theorem map_intercalate (f : α → β) (gap : List α) (parts : List (List α)) :
    (gap.intercalate parts).map f = (gap.map f).intercalate (parts.map (List.map f)) := by
  cases parts <;> simp [intercalate_cons_flatMap, map_flatMap, flatMap_map]

theorem mem_intercalate {a : α} (mem : a ∈ sep.intercalate parts) : a ∈ sep ∨ ∃ part ∈ parts, a ∈ part := by
  cases parts with
  | nil => cases mem
  | cons part parts =>
    rw [intercalate_cons_flatMap, mem_append, mem_flatMap] at mem
    rcases mem with mem | ⟨other, present, mem⟩
    · exact .inr ⟨part, mem_cons_self, mem⟩
    · exact (mem_append.mp mem).imp_right fun mem => ⟨other, mem_cons_of_mem _ present, mem⟩

theorem infix_intercalate (present : part ∈ parts) : part <:+: sep.intercalate parts := by
  obtain ⟨front, back, rfl⟩ := append_of_mem present
  cases front with
  | nil => exact ⟨[], back.flatMap (sep ++ ·), by simp [intercalate_cons_flatMap]⟩
  | cons first front => exact ⟨first ++ front.flatMap (sep ++ ·) ++ sep, back.flatMap (sep ++ ·), by simp [intercalate_cons_flatMap]⟩

theorem mem_intercalate_of_mem {a : α} (present : part ∈ parts) (mem : a ∈ part) : a ∈ sep.intercalate parts :=
  (infix_intercalate present).subset mem

theorem length_le_intercalate (present : part ∈ parts) : part.length ≤ (sep.intercalate parts).length := (infix_intercalate present).length_le

theorem length_parts_le (filled : ∀ part ∈ parts, part ≠ []) : parts.length ≤ (sep.intercalate parts).length := by
  induction parts with
  | nil => simp
  | cons part parts ih =>
    have first : 0 < part.length := length_pos_iff.mpr (filled part mem_cons_self)
    have rest := ih fun part mem => filled part (mem_cons_of_mem _ mem)
    cases parts with
    | nil =>
      rw [intercalate_singleton, length_singleton]
      omega
    | cons next parts =>
      rw [intercalate_cons_cons, length_append, length_append, length_cons]
      omega

end Joining

theorem infix_of_mem_cut (mem : piece ∈ cut [sep] cs) : piece <:+: cs := by
  have whole : piece <:+: [sep].intercalate (cut [sep] cs) := infix_intercalate mem
  rwa [intercalate_cut] at whole

end Rulewright.Text
