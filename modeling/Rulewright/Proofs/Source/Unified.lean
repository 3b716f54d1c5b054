import Rulewright.Proofs.Source.Cover

/-!
The text of a node and its unified source. Where an inner node has only white space outside its children, unifying moves white space and
changes nothing else (`source_keeps_code`): the bytes of a node are those of its children with white space between them, and texts that can
be decoded one by one can be decoded together (`decode_append`).
-/

open List

namespace Rulewright.Text

theorem decodeFrom_append {done base : List Char} {place place' : Nat} {o o' : Option Begun} {first rest : List UInt8} {s : String}
    (decoded : decodeFrom done place o first = .text s) (same : o'.map Begun.pending = o.map Begun.pending) :
    decodeFrom (done ++ base) place' o' (first ++ rest) = decodeFrom (s.toList.reverse ++ base) (place' + first.length) none rest := by
  induction first generalizing done place place' o o' with
  | nil =>
    cases o with
    | none =>
      cases decoded
      simp_all
    | some b => cases decoded
  | cons byte first ih =>
    rw [cons_append, length_cons, Nat.add_comm first.length, ← Nat.add_assoc]
    cases o with
    | none =>
      obtain rfl : o' = none := by simpa using same
      simp only [decodeFrom] at decoded ⊢
      split at decoded
      next ascii => rw [if_pos ascii, ← cons_append, ih decoded rfl]
      next wide =>
        rw [if_neg wide]
        split at decoded
        · exact ih decoded rfl
        · cases decoded
    | some b =>
      obtain ⟨b', rfl, pending⟩ : ∃ b', o' = some b' ∧ b'.pending = b.pending := by simpa using same
      simp only [decodeFrom, pending] at decoded ⊢
      split at decoded
      next within =>
        rw [if_pos within]
        split at decoded
        next last => rw [if_pos last, ← cons_append, ih decoded rfl]
        next more =>
          rw [if_neg more]
          exact ih decoded rfl
      next => cases decoded

theorem decode_append {first second : List UInt8} {s t : String} (one : decode first = .text s) (other : decode second = .text t) :
    decode (first ++ second) = .text (s ++ t) := by
  have joined : decodeFrom ([] ++ []) 0 none (first ++ second) = _ := decodeFrom_append one rfl
  have after : decodeFrom ([] ++ s.toList.reverse) (0 + first.length) none (second ++ []) = _ := decodeFrom_append other rfl
  simp only [append_nil, nil_append] at joined after
  rw [decode, joined, after]
  simp [decodeFrom]

end Rulewright.Text

namespace Rulewright.Source

open Text
open Inference (preorder preorders)

def slice (bytes : List UInt8) (first last : Nat) : List UInt8 := (bytes.take last).drop first

/-- Between two offsets there is white space only. -/
def IsBlankBetween (bytes : List UInt8) (first last : Nat) : Prop :=
  first ≤ last ∧ ∃ s, decode (slice bytes first last) = .text s ∧ ∀ c ∈ s.toList, isBlank c = true

mutual

/-- The leaves can be decoded, and the bytes of an inner node outside its children are white space. -/
def Parsed.IsWhole (bytes : List UInt8) : Parsed → Prop
  | ⟨_, _, _, first, last, children⟩ =>
    (children = [] → first ≤ last ∧ ∃ s, decode (slice bytes first last) = .text s) ∧
      (children ≠ [] → AreWhole bytes first last children)

def AreWhole (bytes : List UInt8) (first last : Nat) : List Parsed → Prop
  | [] => IsBlankBetween bytes first last
  | p :: rest => IsBlankBetween bytes first p.startByte ∧ p.IsWhole bytes ∧ AreWhole bytes p.stopByte last rest

end

def Node.KeepsCode (n : Node) : Prop := ∃ s t, n.source = .ok s ∧ n.text = .ok t ∧ squeeze s.toList = squeeze t.toList

section Whole

variable {bytes : List UInt8} {a b c : Nat}

theorem slice_append (first : a ≤ b) (second : b ≤ c) : slice bytes a b ++ slice bytes b c = slice bytes a c := by
  have front : slice bytes a b = (slice bytes a c).take (b - a) := by simp [slice, take_drop, first, take_take, second]
  have back : slice bytes b c = (slice bytes a c).drop (b - a) := by simp [slice, drop_drop, first]
  rw [front, back, take_append_drop]

theorem squeeze_append (front back : List Char) : squeeze (front ++ back) = squeeze front ++ squeeze back := filter_append ..

theorem squeeze_blank {cs : List Char} (blank : ∀ c ∈ cs, isBlank c = true) : squeeze cs = [] := by simpa [squeeze] using blank

theorem text_ok_iff {n : Node} {s : String} : n.text = .ok s ↔ n.label.content = .text s := by
  rw [Node.text]
  cases n.label.content <;> simp

theorem keeps_code (bytes : List UInt8) (place : Place) (p : Parsed) (whole : p.IsWhole bytes) :
    p.startByte ≤ p.stopByte ∧ ∀ n ∈ preorder (p.locate bytes place), n.KeepsCode := by
  refine (Parsed.locate.mutual_induct bytes (fun place p => p.IsWhole bytes →
      p.startByte ≤ p.stopByte ∧ ∀ n ∈ preorder (p.locate bytes place), n.KeepsCode)
    (fun place i ps => ∀ first last, AreWhole bytes first last ps → first ≤ last ∧
      (∀ n ∈ preorders (locateAll bytes place i ps), n.KeepsCode) ∧
      ∃ t parts, decode (slice bytes first last) = .text t ∧ (locateAll bytes place i ps).mapM Node.source = .ok parts ∧
        (parts.flatMap fun part => squeeze part.toList) = squeeze t.toList) ?_ ?_ ?_).1 place p whole
  · intro place kind named field first last children below whole
    obtain ⟨leaf, inner⟩ := whole
    cases children with
    | nil =>
      obtain ⟨ordered, s, decoded⟩ := leaf rfl
      refine ⟨ordered, fun n inside => ?_⟩
      obtain rfl := mem_singleton.mp inside
      have text := text_ok_iff (n := Parsed.locate bytes place ⟨kind, named, field, first, last, []⟩) |>.mpr decoded
      exact ⟨s, s, text, text, rfl⟩
    | cons c rest =>
      obtain ⟨ordered, nodes, t, parts, decoded, read, same⟩ := below _ _ (inner (by simp))
      refine ⟨ordered, fun n inside => ?_⟩
      rw [Parsed.locate, preorder] at inside
      rcases mem_cons.mp inside with rfl | lower
      · refine ⟨_, t, by rw [source_inner (by simp [locateAll]), read]; rfl, text_ok_iff.mpr decoded, ?_⟩
        rw [squeeze_join, same]
      · exact nodes n lower
  · intro place i first last blank
    obtain ⟨ordered, s, decoded, blank⟩ := blank
    exact ⟨ordered, by simp [locateAll, preorders], s, [], decoded, rfl, (squeeze_blank blank).symm⟩
  · intro place i p rest one others first last whole
    obtain ⟨⟨before, s, gap, blank⟩, own, after⟩ := whole
    obtain ⟨within, nodes⟩ := one own
    obtain ⟨behind, more, t, parts, decoded, read, same⟩ := others _ _ after
    obtain ⟨part, text, source, content, alike⟩ := nodes _ (self_mem_preorder _)
    have own : decode (slice bytes p.startByte p.stopByte) = .text text := by
      rw [← text_ok_iff.mp content]
      cases p
      rfl
    refine ⟨by omega, ?_, s ++ text ++ t, part :: parts, ?_, mapM_cons_ok source read, ?_⟩
    · rw [locateAll, preorders]
      exact forall_mem_append.mpr ⟨nodes, more⟩
    · rw [← slice_append (before.trans within) behind, ← slice_append before within]
      exact decode_append (decode_append gap own) decoded
    · rw [flatMap_cons, alike, same, String.toList_append, String.toList_append, squeeze_append, squeeze_append, squeeze_blank blank, nil_append]

end Whole

/-- In trees whose text outside the leaves is white space, unified source and text have the same code; so nodes with one unified source have
the same code in their texts. -/
theorem source_keeps_code {bytes bytes' : List UInt8} {p q : Parsed} (first : p.IsWhole bytes) (second : q.IsWhole bytes') (place place' : Place) :
    (∀ n ∈ preorder (p.locate bytes place), ∃ s t, n.source = .ok s ∧ n.text = .ok t ∧ withoutBlanks s = withoutBlanks t) ∧
      ∀ n ∈ preorder (p.locate bytes place), ∀ m ∈ preorder (q.locate bytes' place'), n.source = m.source →
        ∃ t u, n.text = .ok t ∧ m.text = .ok u ∧ withoutBlanks t = withoutBlanks u := by
  constructor
  · intro n inside
    obtain ⟨s, t, source, text, same⟩ := (keeps_code bytes place p first).2 n inside
    exact ⟨s, t, source, text, congrArg String.ofList same⟩
  · intro n inside m within equal
    obtain ⟨s, t, source, text, same⟩ := (keeps_code bytes place p first).2 n inside
    obtain ⟨s', u, source', text', same'⟩ := (keeps_code bytes' place' q second).2 m within
    rw [source, source'] at equal
    cases equal
    exact ⟨t, u, text, text', congrArg String.ofList (same.symm.trans same')⟩

/-- The bytes of `é + b`. -/
def sumBytes : List UInt8 := [195, 169, 32, 43, 32, 98]

def sumParsed : Parsed where
  kind := "binary_expression"
  named := true
  field := none
  startByte := 0
  stopByte := 6
  children := [⟨"identifier", true, none, 0, 2, []⟩, ⟨"+", false, none, 3, 4, []⟩, ⟨"identifier", true, none, 5, 6, []⟩]

theorem sum_isWhole : sumParsed.IsWhole sumBytes := by
  have leaf {kind : String} {named : Bool} {first last : Nat} {s : String} (ordered : first ≤ last)
      (decoded : decode (slice sumBytes first last) = .text s) : Parsed.IsWhole sumBytes ⟨kind, named, none, first, last, []⟩ :=
    ⟨fun _ => ⟨ordered, s, decoded⟩, fun inner => absurd rfl inner⟩
  refine ⟨by rintro ⟨⟩, fun _ => ⟨⟨by decide, "", rfl, by simp⟩, leaf (s := "é") (by decide) (by decide), ⟨by decide, " ", rfl, by simp [isBlank]⟩,
    leaf (s := "+") (by decide) (by decide), ⟨by decide, " ", rfl, by simp [isBlank]⟩, leaf (s := "b") (by decide) (by decide), by decide, "", rfl, by simp⟩⟩

theorem sum_keeps_code :
    ∃ s t, (sumParsed.locate sumBytes [0]).source = .ok s ∧ (sumParsed.locate sumBytes [0]).text = .ok t ∧ withoutBlanks s = withoutBlanks t :=
  (source_keeps_code sum_isWhole sum_isWhole [0] [0]).1 _ (self_mem_preorder _)

end Rulewright.Source
