import Rulewright.Proofs.Text.Cutting

/-!
The words of a text: what stands between its white space. A text has the words of its parts where blanks part them, and trimming keeps them all.
Where a mark stands only as a word of its own, cutting the text at the mark cuts its list of words (`cutOnce_words`).
-/

open List

namespace Rulewright.Text

def words (cs : List Char) : List (List Char) := (cs.splitOnP isBlank).filter (· ≠ [])

def Solid (cs : List Char) : Prop := ∀ c ∈ cs, isBlank c = false

variable {cs front back mark u v w rest new : List Char} {c : Char}

@[simp]
theorem words_nil : words [] = [] := rfl

theorem words_append_cons (blank : isBlank c) : words (front ++ c :: back) = words front ++ words back := by
  rw [words, splitOnP_append_cons _ _ blank, filter_append, words, words]

theorem words_cons (blank : isBlank c) : words (c :: cs) = words cs := @words_append_cons [] cs c blank

theorem words_solid (filled : w ≠ []) (visible : Solid w) : words w = [w] := by
  rw [words, splitOnP_eq_singleton visible]
  simp [filled]

theorem mem_words_solid (visible : Solid v) : w ∈ words v ↔ w = v ∧ v ≠ [] := by
  rw [words, splitOnP_eq_singleton visible]
  simp +contextual

theorem words_trim (cs : List Char) : words (trim cs) = words cs := by
  have start : words (trimStart cs) = words cs := by
    induction cs with
    | nil => rfl
    | cons c cs ih =>
      rw [trimStart, dropWhile_cons]
      split
      next blank => exact ih.trans (words_cons blank).symm
      next => rfl
  rw [trim, ← start]
  generalize trimStart cs = cs
  induction cs using reverseRecOn with
  | nil => rfl
  | append_singleton cs c ih =>
    cases blank : isBlank c with
    | true => rw [trimEnd_concat blank, ih, words_append_cons blank, words_nil, append_nil]
    | false => rw [trimEnd_of_last blank]

/-- Induction over a text word by word. -/
theorem words_induction {P : List Char → Prop} (last : ∀ w, Solid w → P w)
    (step : ∀ w c rest, Solid w → isBlank c = true → P rest → P (w ++ c :: rest)) (cs : List Char) : P cs := by
  have all : ∀ w, Solid w → P (w ++ cs) := by
    induction cs with
    | nil => simpa using last
    | cons c cs ih =>
      intro w visible
      cases blank : isBlank c with
      | true => exact step w c cs visible blank (ih [] (by simp [Solid]))
      | false => simpa using ih (w ++ [c]) (by simpa [Solid, or_imp, forall_and, blank] using visible)
  exact all [] (by simp [Solid])

theorem infix_of_mem_words (inside : w ∈ words cs) : w <:+: cs := by
  induction cs using words_induction with
  | last v visible => exact ((mem_words_solid visible).mp inside).1 ▸ infix_rfl
  | step v c rest visible blank ih =>
    rw [words_append_cons blank, mem_append] at inside
    obtain inside | inside := inside
    · exact ((mem_words_solid visible).mp inside).1 ▸ (prefix_append ..).isInfix
    · exact (ih inside).trans ((suffix_cons c rest).trans (suffix_append ..)).isInfix

theorem prefix_of_apart (apart : c ∉ u) (begins : u <+: w ++ c :: rest) : u <+: w := by
  induction u generalizing w with
  | nil => exact nil_prefix
  | cons d u ih =>
    obtain ⟨other, apart⟩ := not_or.mp (mem_cons.not.mp apart)
    cases w with
    | nil => exact absurd (cons_prefix_cons.mp begins).1.symm other
    | cons e w =>
      obtain ⟨rfl, rest⟩ := cons_prefix_cons.mp begins
      exact cons_prefix_cons.mpr ⟨rfl, ih apart rest⟩

theorem cutOnce_self (filled : mark ≠ []) : cutOnce mark (mark ++ rest) = some ([], rest) := by
  obtain ⟨c, tail, rfl⟩ := exists_cons_of_ne_nil filled
  rw [cons_append, cutOnce, if_pos (by simp)]
  simp

theorem isSome_cutOnce (mark cs : List Char) : (cutOnce mark cs).isSome = contains mark cs := by
  induction cs with
  | nil =>
    rw [cutOnce, contains]
    split <;> simp_all
  | cons c cs ih =>
    rw [cutOnce, contains]
    split <;> simp_all

theorem cutOnce_cons (later : ¬mark <+: c :: cs) : cutOnce mark (c :: cs) = (cutOnce mark cs).map fun r => (c :: r.1, r.2) := by
  rw [cutOnce, if_neg fun begins => later ( isPrefixOf_iff_prefix.mp begins)]

theorem cutOnce_free (free : ¬mark <:+: w) (apart : c ∉ mark) :
    cutOnce mark (w ++ c :: rest) = (cutOnce mark rest).map fun r => (w ++ c :: r.1, r.2) := by
  induction w with
  | nil => exact cutOnce_cons fun begins => free (prefix_of_apart (w := []) apart begins).isInfix
  | cons d w ih =>
    have later : ¬mark <+: d :: (w ++ c :: rest) := fun begins => free (prefix_of_apart (w := d :: w) apart begins).isInfix
    rw [cons_append, cutOnce_cons later, ih fun inside => free (inside.trans (suffix_cons d w).isInfix), Option.map_map]
    rfl

/-- The mark stands in the text only as a word of its own. -/
def Whole (mark cs : List Char) : Prop := ∀ w ∈ words cs, mark <:+: w → w = mark

section Mark

variable (filled : mark ≠ []) (visible : Solid mark)
include filled visible

theorem cutOnce_words (whole : Whole mark cs) (found : cutOnce mark cs = some (front, back)) :
    words cs = words front ++ mark :: words back ∧ mark ∉ words front ∧
      ∀ new, words (front ++ new) = words front ++ words new ∧ words (new ++ back) = words new ++ words back := by
  have own : words mark = [mark] := words_solid filled visible
  have word : ∀ v, Solid v → Whole mark v → mark <:+: v → v = mark := fun v clear whole inside =>
    whole v ((mem_words_solid clear).mpr ⟨rfl, fun empty => filled (infix_nil.mp (empty ▸ inside))⟩) inside
  induction cs using words_induction generalizing front with
  | last v clear =>
    have inside : mark <:+: v := contains_iff.mp (by rw [← isSome_cutOnce, found]; rfl)
    obtain rfl := word v clear whole inside
    have found := found.symm.trans (append_nil v ▸ cutOnce_self filled)
    cases found
    simp [own]
  | step v c rest clear blank ih =>
    rw [Whole, words_append_cons blank, forall_mem_append] at whole
    by_cases inside : mark <:+: v
    · obtain rfl := word v clear whole.1 inside
      rw [cutOnce_self filled] at found
      cases found
      simp [words_append_cons blank, words_cons blank, own]
    · rw [cutOnce_free inside fun held => by simp [visible c held] at blank] at found
      obtain ⟨⟨front, back⟩, later, same⟩ := Option.map_eq_some_iff.mp found
      cases same
      obtain ⟨all, early, sides⟩ := ih whole.2 later
      have absent : mark ∉ words v := fun held => inside (infix_of_mem_words held)
      simp [words_append_cons blank, all, early, sides, absent]

theorem not_infix_of_words (free : ∀ w ∈ words cs, ¬mark <:+: w) : ¬mark <:+: cs := by
  intro inside
  obtain ⟨r, found⟩ := Option.isSome_iff_exists.mp ((isSome_cutOnce mark cs).trans (contains_iff.mpr inside))
  have all := (cutOnce_words filled visible (fun w inside held => absurd held (free w inside)) found).1
  exact free mark (by simp [all]) infix_rfl

/-- Of a text where the mark is left out some times, the words were there before. -/
theorem erased_words (k : Nat) (whole : Whole mark cs) : words ([].intercalate (cutAtMost mark k cs)) ⊆ words cs := by
  induction k generalizing cs with
  | zero => simp [cutAtMost]
  | succ k ih =>
    rw [cutAtMost]
    cases found : cutOnce mark cs with
    | none => simp
    | some r =>
      obtain ⟨front, back⟩ := r
      obtain ⟨all, -, sides⟩ := cutOnce_words filled visible whole found
      have rest : _ ⊆ words back := ih fun w inside => whole w (by simp [all, inside])
      dsimp only
      rw [intercalate_nil, flatten_cons, ← intercalate_nil, (sides _).1, all]
      exact append_subset.mpr ⟨subset_append_left .., fun w inside => mem_append_right _ (mem_cons_of_mem _ (rest inside))⟩

theorem replaced_words (whole : Whole mark cs) : words (new.intercalate (cutAtMost mark 1 cs)) ⊆ words cs ++ words new := by
  cases found : cutOnce mark cs with
  | none => simp [cutAtMost, found]
  | some r =>
    obtain ⟨front, back⟩ := r
    obtain ⟨all, -, sides⟩ := cutOnce_words filled visible whole found
    have text : new.intercalate (cutAtMost mark 1 cs) = front ++ (new ++ back) := by simp [cutAtMost, found]
    rw [text, (sides _).1, (sides _).2, all]
    intro w
    simp only [mem_append, mem_cons]
    tauto

end Mark

end Rulewright.Text
