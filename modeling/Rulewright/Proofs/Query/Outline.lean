import Rulewright.Proofs.Query.Patterns
import Rulewright.Proofs.Source.Cover

/-!
A pattern and the outline of its node are two printings of one tree. Where no anonymous node fills a field and no kind or field has the mark
of a capture, the pattern without its captures is the outline, except for captures that the prefix itself has (`pattern_without_captures`).
-/

open List

namespace Rulewright.Query

open Source (Node)
open Inference (preorder)

/-- A capture as it stands in a pattern, with any digits. -/
def captureText (digits : List Char) : List Char := ' ' :: '@' :: 't' :: 'a' :: 'g' :: (digits ++ ['n'])

/-- The length of the capture at the beginning of a text, or zero. -/
def captureLength (cs : List Char) : Nat :=
  let digits := (cs.drop 5).takeWhile Char.isDigit
  if digits ≠ [] ∧ captureText digits <+: cs then (captureText digits).length else 0

/-- A text without its captures. -/
def erase : List Char → List Char
  | [] => []
  | c :: rest => if captureLength (c :: rest) = 0 then c :: erase rest else erase ((c :: rest).drop (captureLength (c :: rest)))
  termination_by cs => cs.length

def HasCapture (cs : List Char) : Prop := ∃ digits, digits ≠ [] ∧ (∀ c ∈ digits, c.isDigit = true) ∧ captureText digits <:+: cs

section Erasing

variable {digits u cs : List Char} {c : Char}

theorem captureLength_append (filled : digits ≠ []) (all : ∀ c ∈ digits, c.isDigit = true) :
    captureLength (captureText digits ++ cs) = (captureText digits).length := by
  have own : ((captureText digits ++ cs).drop 5).takeWhile Char.isDigit = digits := by
    change (digits ++ ['n'] ++ cs).takeWhile Char.isDigit = digits
    rw [append_assoc, takeWhile_append_of_pos all]
    simp
  rw [captureLength, own, if_pos ⟨filled, prefix_append _ _⟩]

theorem captureLength_eq_zero :
    captureLength cs = 0 ↔ ∀ digits, digits ≠ [] → (∀ c ∈ digits, c.isDigit = true) → ¬captureText digits <+: cs := by
  constructor
  · rintro none digits filled all ⟨rest, rfl⟩
    rw [captureLength_append filled all] at none
    cases none
  · intro none
    rw [captureLength, if_neg fun both => none _ both.1 (fun c inside => mem_takeWhile_imp inside) both.2]

theorem erase_capture (filled : digits ≠ []) (all : ∀ c ∈ digits, c.isDigit = true) : erase (captureText digits ++ cs) = erase cs := by
  have length : captureLength (captureText digits ++ cs) = _ := captureLength_append filled all
  rw [captureText, cons_append] at length ⊢
  rw [erase, length, if_neg (by simp)]
  simp

theorem erase_captureName (k : Nat) : erase (' ' :: (captureName k).toList ++ cs) = erase cs := by
  rw [digits_captureName]
  exact erase_capture (by simp) fun _ => isDigit_toString

theorem erase_cons (none : captureLength (c :: cs) = 0) : erase (c :: cs) = c :: erase cs := by rw [erase, if_pos none]

theorem erase_cons_of_ne (visible : c ≠ ' ') : erase (c :: cs) = c :: erase cs :=
  erase_cons (captureLength_eq_zero.mpr fun _ _ _ begins => visible (cons_prefix_cons.mp begins).1.symm)

theorem erase_append (free : '@' ∉ u) (other : cs.head? ≠ some '@') : erase (u ++ cs) = u ++ erase cs := by
  induction u with
  | nil => rfl
  | cons c u ih =>
    obtain ⟨-, free⟩ := not_or.mp (mem_cons.not.mp free)
    rw [cons_append, erase_cons, ih free, cons_append]
    refine captureLength_eq_zero.mpr fun digits _ _ begins => ?_
    obtain ⟨-, begins⟩ := cons_prefix_cons.mp begins
    cases u with
    | nil =>
      obtain ⟨rest, rfl⟩ := begins
      exact other rfl
    | cons d u => exact free (mem_cons.mpr (.inl (cons_prefix_cons.mp begins).1))

theorem erase_of_free (free : '@' ∉ u) : erase u = u := by
  have whole : erase (u ++ []) = u ++ erase [] := erase_append free (by simp)
  simpa [erase] using whole

theorem erase_length_le (cs : List Char) : (erase cs).length ≤ cs.length := by
  fun_induction erase cs with
  | case1 => simp
  | case2 c rest _ ih => simpa using ih
  | case3 c rest _ ih => exact ih.trans (by simp)

theorem hasCapture_cons : HasCapture (c :: cs) ↔ captureLength (c :: cs) ≠ 0 ∨ HasCapture cs := by
  simp only [HasCapture, infix_cons_iff, ne_eq, captureLength_eq_zero]
  grind

theorem erase_eq_self : erase cs = cs ↔ ¬HasCapture cs := by
  induction cs with
  | nil => simp [erase, HasCapture, captureText]
  | cons c cs ih =>
    rw [hasCapture_cons]
    by_cases none : captureLength (c :: cs) = 0
    · simp [erase_cons none, ih, none]
    · have shorter := erase_length_le ((c :: cs).drop (captureLength (c :: cs)))
      rw [erase, if_neg none]
      refine iff_of_false (fun same => ?_) (by simp [none])
      rw [same, length_drop, length_cons] at shorter
      omega

theorem erase_parenthesis (u cs : List Char) : erase (u ++ '(' :: cs) = erase u ++ '(' :: erase cs := by
  -- A capture has no parenthesis, so one that begins before the parenthesis ends before it.
  have before {digits u : List Char} (all : ∀ c ∈ digits, c.isDigit = true) (begins : captureText digits <+: u ++ '(' :: cs) :
      captureText digits <+: u := by
    obtain begins | ⟨v, same⟩ := prefix_or_prefix_of_prefix begins (prefix_append u ('(' :: cs))
    · exact begins
    · cases v with
      | nil => exact ⟨[], by simpa using same.symm⟩
      | cons d v =>
        rw [← same, prefix_append_right_inj] at begins
        have inside : '(' ∈ captureText digits := by simp [← same, (cons_prefix_cons.mp begins).1]
        have digit : '(' ∈ digits := by simpa [captureText] using inside
        cases all _ digit
  induction size : u.length using Nat.strongRecOn generalizing u with
  | ind _ ih =>
    by_cases none : captureLength u = 0
    · cases u with
      | nil => rw [nil_append, erase_cons_of_ne (by decide), erase, nil_append]
      | cons c u =>
        rw [erase_cons none, cons_append, cons_append, erase_cons, ih u.length (by rw [← size, length_cons]; omega) u rfl]
        exact captureLength_eq_zero.mpr fun digits filled all begins => captureLength_eq_zero.mp none digits filled all (before all begins)
    · simp only [captureLength_eq_zero, not_forall, not_not] at none
      obtain ⟨digits, filled, all, v, rfl⟩ := none
      rw [append_assoc, erase_capture filled all, erase_capture filled all]
      exact ih v.length (by rw [← size, length_append, captureText, length_cons]; omega) v rfl

end Erasing

/-- Neither the node's kind nor a field that a child fills has the mark of a capture, and no anonymous child fills a field. -/
structure IsPlain (n : Node) : Prop where
  kind : '@' ∉ n.label.kind.toList
  field : ∀ c ∈ n.children, ∀ f, c.fieldName? = some f → '@' ∉ f.toList
  anonymous : ∀ c ∈ n.children, c.named = false → c.fieldName? = none

/-- Without its captures a pattern is the outline, after what is left of the indentation and the prefix. -/
theorem erase_text {n : Node} (plain : ∀ m ∈ preorder n, IsPlain m) (k : Nat) (depth : Int) (mark : String) (rest : List Char) :
    erase (((Pattern.of k n).text depth mark).toList ++ rest) = erase (Source.indent depth ++ mark).toList ++
      '(' :: (n.kind ++ " " ++ Source.outlines (depth + 1) n.children ++ ")").toList ++ erase rest := by
  induction n using Node.induction generalizing k depth mark rest with
  | step label children ih =>
    have own := plain _ (Source.self_mem_preorder _)
    have below (cs : List Node) (inside : cs ⊆ children) : ∀ k rest, rest.head? ≠ some '@' →
        erase ((Pattern.texts (depth + 1) (Pattern.ofAll k cs)).toList ++ rest) = (Source.outlines (depth + 1) cs).toList ++ erase rest := by
      induction cs with
      | nil => exact fun _ _ _ => rfl
      | cons c cs others =>
        intro k rest other
        obtain ⟨first, inside⟩ := cons_subset.mp inside
        rw [Pattern.ofAll, Source.outlines]
        by_cases named : c.named
        · have free : '@' ∉ (Source.indent (depth + 1) ++ c.fieldMark).toList := by
            have field := own.field c first
            rw [Node.fieldMark]
            cases known : c.fieldName? <;> simp_all [Source.indent]
          have whole := ih c first (fun m lower => plain m (Source.mem_preorder_of_child first lower)) k (depth + 1) c.fieldMark
            ((Pattern.texts (depth + 1) (Pattern.ofAll (k + c.reached.length) cs)).toList ++ rest)
          rw [erase_of_free free, others inside _ _ other] at whole
          obtain ⟨label, children⟩ := c
          rw [if_pos named, if_pos named, Pattern.texts, Pattern.node_of]
          simp only [String.toList_append, append_assoc] at whole ⊢
          rw [show "\n".toList = ['\n'] from rfl, singleton_append, erase_cons_of_ne (by decide), whole]
          simp [Source.Node.outline, Node.kind]
        · rw [if_neg named, if_neg named, own.anonymous c first (by simpa using named)]
          simpa using others inside k rest other
    obtain ⟨j, whole⟩ : ∃ j, Pattern.of k ⟨label, children⟩ = ⟨⟨label, children⟩, Pattern.ofAll k children, captureName j⟩ := ⟨_, by rw [Pattern.of]⟩
    have written : ((Pattern.of k ⟨label, children⟩).text depth mark).toList ++ rest = (Source.indent depth ++ mark).toList ++
        '(' :: (label.kind.toList ++ ' ' :: ((Pattern.texts (depth + 1) (Pattern.ofAll k children)).toList ++
          ')' :: (' ' :: (captureName j).toList ++ rest))) := by
      simp [whole, Pattern.text, Node.kind]
    rw [written, erase_parenthesis, erase_append own.kind (by simp), ← singleton_append (x := ' '), erase_append (by simp),
      below children (Subset.refl _) k _ (by simp), erase_cons_of_ne (by decide), erase_captureName]
    · simp [Node.kind]
    · cases Pattern.ofAll k children <;> simp [Pattern.texts]

/-- A pattern can be written exactly if the texts of its leaves can be read. Without its captures it is the outline exactly if the prefix, after
the indentation, has none of its own. -/
theorem pattern_without_captures (n : Node) (depth : Int) (mark : String) (w : Writer) (plain : ∀ m ∈ preorder n, IsPlain m) :
    ((∃ written, w.pattern depth mark n = .ok written) ↔ ∀ m ∈ n.reached, m.IsReadable) ∧
      ∀ text w', w.pattern depth mark n = .ok (text, w') →
        (erase text.toList = (n.outline depth mark).toList ↔ ¬HasCapture (Source.indent depth ++ mark).toList) := by
  rw [Writer.pattern_eq]
  constructor
  · rw [← checkAll_ok_iff]
    cases checkAll n.reached <;> simp [bind, Except.bind, pure, Except.pure]
  · intro text w' written
    obtain ⟨_, -, written⟩ := bind_cases written
    cases written
    have shown : (n.outline depth mark).toList = (Source.indent depth ++ mark).toList ++
        '(' :: (n.kind ++ " " ++ Source.outlines (depth + 1) n.children ++ ")").toList := by
      obtain ⟨label, children⟩ := n
      simp [Source.Node.outline, Node.kind]
    have erased := erase_text plain w.count depth mark []
    rw [append_nil, erase_of_free (u := []) (by simp), append_nil] at erased
    rw [erased, shown, append_cancel_right_eq, erase_eq_self]

theorem isPlain_word {kind : String} (free : '@' ∉ kind.toList) (text : String) (named : Bool) : IsPlain (Source.word kind text named) :=
  ⟨free, by simp [Source.word], by simp [Source.word]⟩

theorem sum_without_captures : ∃ text w', ({} : Writer).pattern 1 "left: " (Source.operation "a" "+" "b") = .ok (text, w') ∧
    erase text.toList = ((Source.operation "a" "+" "b").outline 1 "left: ").toList := by
  have plain : ∀ m ∈ preorder (Source.operation "a" "+" "b"), IsPlain m := by
    intro m inside
    rcases mem_cons.mp inside with rfl | (inside : m ∈ (Source.operation "a" "+" "b").children)
    · exact ⟨by decide, by simp [Source.word, Node.fieldName?], by simp [Source.word, Node.fieldName?]⟩
    · simp only [Source.operation, mem_cons, not_mem_nil, or_false] at inside
      rcases inside with rfl | rfl | rfl <;> exact isPlain_word (by decide) _ _
  have readable : ∀ m ∈ (Source.operation "a" "+" "b").reached, m.IsReadable := by
    rw [← checkAll_ok_iff]
    rfl
  have unmarked : ¬HasCapture (Source.indent 1 ++ "left: ").toList := erase_eq_self.mp (erase_of_free (by decide))
  obtain ⟨writes, erased⟩ := pattern_without_captures (Source.operation "a" "+" "b") 1 "left: " {} plain
  obtain ⟨⟨text, w'⟩, written⟩ := writes.mpr readable
  exact ⟨text, w', written, (erased text w' written).mpr unmarked⟩

/-- A capture in the prefix is deleted with the others, and stands in the outline. -/
theorem marked_outline_differs : preorder (Source.word "identifier" "x" true) = [Source.word "identifier" "x" true] ∧
    IsPlain (Source.word "identifier" "x" true) ∧
    (({} : Writer).pattern 0 " @tag1n" (Source.word "identifier" "x" true)).toOption.map Prod.fst = some " @tag1n(identifier ) @tag1n" ∧
    erase " @tag1n(identifier ) @tag1n".toList = "(identifier )".toList ∧
    (Source.word "identifier" "x" true).outline 0 " @tag1n" = " @tag1n(identifier )" := by
  refine ⟨rfl, isPlain_word (by decide) _ _, rfl, ?_, rfl⟩
  · have first : erase (captureText ['1'] ++ ("(identifier )".toList ++ captureText ['1'])) = erase ("(identifier )".toList ++ captureText ['1']) :=
      erase_capture (by simp) (by simp)
    have last : erase (captureText ['1'] ++ []) = erase [] := erase_capture (by simp) (by simp)
    have middle : erase ("(identifier )".toList ++ captureText ['1']) = "(identifier )".toList ++ erase (captureText ['1']) :=
      erase_append (by decide) (by decide)
    rw [append_nil, erase] at last
    rw [middle, last, append_nil] at first
    exact first

end Rulewright.Query
