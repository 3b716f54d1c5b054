import Rulewright.Proofs.Query.Patterns
import Rulewright.Proofs.Text.Cutting

/-!
Reading a tagged text back. A text is tagged by one replacement for each capture, and a later one may find its text inside a name that an
earlier one put there. Where no text overlaps a name that stands there already, the tagged text is made of names and of characters of the
original (`Reads`), and since no name begins another, it can be read back in one way.
-/

open List

namespace Rulewright.Query

variable {capture : String × Node}

open Source (Node)

def Agree (v u : List Char) : Prop := v <+: u ∨ u <+: v

instance (v u : List Char) : Decidable (Agree v u) := inferInstanceAs (Decidable (_ ∨ _))

theorem agree_head {c d : Char} {v u : List Char} (agree : Agree (c :: v) (d :: u)) : c = d := by
  obtain begins | begins := agree
  · exact (cons_prefix_cons.mp begins).1
  · exact (cons_prefix_cons.mp begins).1.symm

theorem agree_of_append {v u rest : List Char} (begins : v <+: u ++ rest) : Agree v u :=
  prefix_or_prefix_of_prefix begins (prefix_append u rest)

def Apart (text name : List Char) : Prop :=
  (∀ v ∈ text.tails, v ≠ [] → ¬Agree v name) ∧ ∀ v ∈ name.tails, v ≠ [] → ¬Agree text v

instance (text name : List Char) : Decidable (Apart text name) := inferInstanceAs (Decidable (_ ∧ _))

inductive Reads (names : List (List Char × List Char)) : List Char → List Char → Prop
  | nil : Reads names [] []
  | char {r s : List Char} (c : Char) : Reads names r s → Reads names (c :: r) (c :: s)
  | name {r s name text : List Char} : (name, text) ∈ names → Reads names r s → Reads names (name ++ r) (text ++ s)

def readBack (names : List (List Char × List Char)) : Nat → List Char → List Char
  | _, [] => []
  | skip + 1, _ :: rest => readBack names skip rest
  | 0, c :: rest =>
    match names.find? fun entry => entry.1.isPrefixOf (c :: rest) with
    | some (name, text) => text ++ readBack names (name.length - 1) rest
    | none => c :: readBack names 0 rest

section Reading

variable {names more : List (List Char × List Char)} {r s name text : List Char} {skip : Nat}

theorem Reads.refl (s : List Char) : Reads names s s := by
  induction s with
  | nil => exact .nil
  | cons c s ih => exact .char c ih

theorem Reads.mono (reads : Reads names r s) (subset : ∀ entry ∈ names, entry ∈ more) : Reads more r s := by
  induction reads with
  | nil => exact .nil
  | char c _ ih => exact .char c ih
  | name listed _ ih => exact .name (subset _ listed) ih

theorem Reads.front (reads : Reads names r s) (apart : ∀ entry ∈ names, ∀ v, v <:+ text → v ≠ [] → ¬Agree v entry.1)
    (begins : text <+: r) : ∃ r' s', r = text ++ r' ∧ s = text ++ s' ∧ Reads names r' s' := by
  induction reads generalizing text with
  | nil =>
    obtain rfl := prefix_nil.mp begins
    exact ⟨[], [], rfl, rfl, .nil⟩
  | @char r s c tail ih =>
    cases text with
    | nil => exact ⟨_, _, rfl, rfl, .char c tail⟩
    | cons d text =>
      obtain ⟨rfl, below⟩ := cons_prefix_cons.mp begins
      obtain ⟨r', s', rfl, rfl, after⟩ := ih (fun entry listed v ends => apart entry listed v (ends.trans (suffix_cons d text))) below
      exact ⟨r', s', rfl, rfl, after⟩
  | name listed tail =>
    cases text with
    | nil => exact ⟨_, _, rfl, rfl, .name listed tail⟩
    | cons d text => exact absurd (agree_of_append begins) (apart _ listed _ suffix_rfl (by simp))

theorem Reads.replace (reads : Reads names r s) (filled : text ≠ []) (apart : ∀ entry ∈ names, Apart text entry.1) :
    Reads (names ++ [(name, text)]) (Text.replace text name r) s := by
  have positive := length_pos_iff.mpr filled
  induction size : r.length using Nat.strongRecOn generalizing r s with
  | ind _ ih =>
    by_cases begins : text <+: r
    · obtain ⟨r', s', rfl, rfl, tail⟩ := reads.front (fun entry listed v ends => (apart entry listed).1 v ((mem_tails ..).mpr ends)) begins
      rw [Text.replace_append filled]
      refine .name (mem_append_right _ mem_cons_self) (ih r'.length ?_ tail rfl)
      rw [← size, length_append]
      omega
    · cases reads with
      | nil =>
        rw [Text.replace_nil filled]
        exact .nil
      | char c tail =>
        rw [Text.replace_cons filled begins]
        exact .char c (ih _ (by rw [← size, length_cons]; omega) tail rfl)
      | @name r s old _ listed tail =>
        rw [Text.replace_front filled fun v ends nonempty begins =>
          (apart _ listed).2 v ((mem_tails ..).mpr ends) nonempty (agree_of_append begins)]
        cases old with
        | nil => exact absurd (.inr nil_prefix) ((apart _ listed).1 text ((mem_tails ..).mpr suffix_rfl) filled)
        | cons d old => exact .name (mem_append_left _ listed) (ih _ (by rw [← size, length_append, length_cons]; omega) tail rfl)

theorem readBack_skip : readBack names skip r = readBack names 0 (r.drop skip) := by
  induction r generalizing skip with
  | nil => simp [readBack]
  | cons c r ih =>
    cases skip with
    | zero => rfl
    | succ skip => rw [readBack, ih, drop_succ_cons]

theorem Reads.readBack (reads : Reads names r s) (marked : ∀ entry ∈ names, ['@', 't', 'a', 'g'] <+: entry.1)
    (only : ∀ entry ∈ names, ∀ other ∈ names, Agree entry.1 other.1 → entry = other) (plain : ¬['@', 't', 'a', 'g'] <:+: s) :
    readBack names 0 r = s := by
  induction reads with
  | nil => rfl
  | @char r s c tail ih =>
    have absent : names.find? (fun entry => entry.1.isPrefixOf (c :: r)) = none := by
      rw [find?_eq_none]
      intro entry listed begins
      -- The mark would be made of characters: no name begins within it.
      have mark := (marked entry listed).trans ( isPrefixOf_iff_prefix.mp begins)
      obtain ⟨rfl, inner⟩ := cons_prefix_cons.mp mark
      obtain ⟨_, s', -, rfl, -⟩ := tail.front (fun entry listed v ends filled agree => by
        obtain ⟨c, v, rfl⟩ := exists_cons_of_ne_nil filled
        have letter : c ∈ ['t', 'a', 'g'] := ends.subset mem_cons_self
        obtain ⟨rest, start⟩ := marked entry listed
        rw [← start] at agree
        rw [agree_head agree] at letter
        exact absurd letter (by decide)) inner
      exact plain ⟨[], s', rfl⟩
    rw [Query.readBack, absent]
    exact congrArg _ (ih fun inside => plain (inside.trans (suffix_cons c s).isInfix))
  | @name r s name text listed tail ih =>
    obtain ⟨rest, rfl⟩ := marked _ listed
    have found : names.find? (fun entry => entry.1.isPrefixOf (['@', 't', 'a', 'g'] ++ rest ++ r)) = some (['@', 't', 'a', 'g'] ++ rest, text) := by
      cases search : names.find? (fun entry => entry.1.isPrefixOf (['@', 't', 'a', 'g'] ++ rest ++ r)) with
      | none => exact absurd ( isPrefixOf_iff_prefix.mpr (prefix_append _ r)) (find?_eq_none.mp search _ listed)
      | some entry =>
        have begins := find?_some search
        rw [ isPrefixOf_iff_prefix] at begins
        rw [only _ (mem_of_find?_eq_some search) _ listed (agree_of_append begins)]
    have rest_read := ih fun inside => plain (inside.trans (suffix_append text s).isInfix)
    simp only [cons_append, nil_append] at found ⊢
    rw [Query.readBack, found]
    dsimp only
    rw [readBack_skip]
    simp [rest_read]

end Reading

namespace Writer

def Numbered (w : Writer) : Prop := ∃ ks : List Nat, w.captures.map Prod.fst = ks.map captureName ∧ ks.Nodup

theorem write_numbered {w : Writer} {simplify : Bool} {nodes : List Node} (done : write simplify nodes = .ok w) : w.Numbered := by
  obtain ⟨texts, taken, part, written⟩ := write_eq simplify nodes
  obtain ⟨_, -, done⟩ := bind_cases (written.symm.trans done)
  cases done
  have names := part.map Prod.fst
  rw [map_fst_number] at names
  obtain ⟨ks, within, same⟩ := sublist_map_iff.mp names
  exact ⟨ks, same, within.nodup (nodup_range' 1)⟩

def entry (capture : String × Node) : List Char × List Char :=
  (capture.1.toList, (capture.2.source.toOption.getD "").toList)

theorem source_of_entry (filled : (entry capture).2 ≠ []) : ∃ t, capture.2.source = .ok t ∧ t ≠ "" := by
  cases read : capture.2.source with
  | error e => simp [entry, read, Except.toOption] at filled
  | ok t => exact ⟨t, rfl, by simpa [entry, read] using filled⟩

def untag (w : Writer) (text : String) : String := String.ofList (readBack (w.captures.map entry) 0 text.toList)

section Tagging

variable {w : Writer} {captures : List (String × Node)} {names : List (List Char × List Char)} {text s : String} {simplify : Bool} {nodes : List Node}

theorem Numbered.name (numbered : w.Numbered) (held : capture ∈ w.captures) : ∃ k, capture.1 = captureName k := by
  obtain ⟨ks, named, -⟩ := numbered
  have inside : capture.1 ∈ ks.map captureName := named ▸ mem_map_of_mem held
  obtain ⟨k, -, same⟩ := mem_map.mp inside
  exact ⟨k, same.symm⟩

theorem Numbered.unique (numbered : w.Numbered) {one other : String × Node} (first : one ∈ w.captures) (second : other ∈ w.captures)
    (agree : Agree one.1.toList other.1.toList) : one = other := by
  obtain ⟨i, left⟩ := numbered.name first
  obtain ⟨j, right⟩ := numbered.name second
  have same : one.1 = other.1 := by
    rw [left, right] at agree ⊢
    obtain begins | begins := agree
    · rw [captureName_inj begins]
    · rw [captureName_inj begins]
  obtain ⟨ks, named, once⟩ := numbered
  have distinct : (w.captures.map Prod.fst).Nodup := by
    rw [named]
    exact once.map captureName_injective
  exact inj_on_of_nodup_map distinct first second same

theorem tagAll_reads (reads : Reads names text.toList s.toList) (filled : ∀ capture ∈ captures, (entry capture).2 ≠ [])
    (clear : ∀ capture ∈ captures, ∀ known ∈ names, Apart (entry capture).2 known.1)
    (apart : captures.Pairwise fun earlier later => Apart (entry later).2 (entry earlier).1) :
    ∃ r, tagAll captures text = .ok r ∧ Reads (names ++ captures.map entry) r.toList s.toList := by
  induction captures generalizing names text with
  | nil => exact ⟨text, rfl, by simpa using reads⟩
  | cons capture rest ih =>
    obtain ⟨t, read, nonempty⟩ := source_of_entry (filled capture mem_cons_self)
    have own : entry capture = (capture.1.toList, t.toList) := by rw [entry, read]; rfl
    obtain ⟨later, apart⟩ := pairwise_cons.mp apart
    have next : Reads (names ++ [entry capture]) (Text.replaceAll text t capture.1).toList s.toList := by
      rw [Text.replaceAll, String.toList_ofList, own]
      exact reads.replace (by simpa using nonempty) fun known listed => by simpa [own] using clear capture mem_cons_self known listed
    obtain ⟨r, done, reads⟩ := ih next (fun c held => filled c (mem_cons_of_mem _ held)) (fun c held known listed => by
      obtain listed | listed := mem_append.mp listed
      · exact clear c (mem_cons_of_mem _ held) known listed
      · rw [mem_singleton.mp listed]
        exact later c held) apart
    refine ⟨r, ?_, by simpa using reads⟩
    rw [tagAll, read]
    exact done

theorem mem_longestFirst : capture ∈ w.longestFirst ↔ capture ∈ w.captures := mem_mergeSort

/-- A tagged text is read back as the original, if no text overlaps the name of a capture that was put before it. -/
theorem untag_tag (written : write simplify nodes = .ok w) (filled : ∀ capture ∈ w.captures, (entry capture).2 ≠ [])
    (plain : Text.holds s "@tag" = false) (apart : w.longestFirst.Pairwise fun earlier later => Apart (entry later).2 (entry earlier).1) :
    ∃ r, w.tag s = .ok r ∧ w.untag r = s := by
  have numbered := write_numbered written
  obtain ⟨r, tagged, reads⟩ := tagAll_reads (@Reads.refl [] s.toList)
    (fun capture held => filled capture (mem_longestFirst.mp held)) (by simp) apart
  have listed : Reads (w.captures.map entry) r.toList s.toList := reads.mono fun known held => by
    obtain ⟨capture, sorted, rfl⟩ := mem_map.mp held
    exact mem_map_of_mem (mem_longestFirst.mp sorted)
  refine ⟨r, tagged, ?_⟩
  rw [untag, listed.readBack]
  · exact String.ofList_toList
  · intro known held
    obtain ⟨capture, captured, rfl⟩ := mem_map.mp held
    obtain ⟨k, same⟩ := numbered.name captured
    rw [entry, same, digits_captureName]
    exact prefix_append _ _
  · intro known held other held' agree
    obtain ⟨one, first, rfl⟩ := mem_map.mp held
    obtain ⟨two, second, rfl⟩ := mem_map.mp held'
    rw [numbered.unique first second agree]
  · intro inside
    have present : Text.contains "@tag".toList s.toList = true := Text.contains_iff.mpr inside
    rw [Text.holds, present] at plain
    cases plain

end Tagging

def call (callee argument : String) : Node where
  label := { (default : Source.Label) with kind := "call", named := true, size := callee.length + argument.length + 2 }
  children := [Source.word "identifier" callee true,
    { label := { (default : Source.Label) with kind := "argument_list", named := true, size := argument.length + 2 },
      children := [Source.word "(" "(" false, Source.word "identifier" argument true, Source.word ")" ")" false] }]

def tagged (nodes : List Node) (text : String) : Except Source.Error (String × String) := do
  let w ← write false nodes
  let r ← w.tag text
  return (r, w.untag r)

def callWriter (callee argument : String) : Writer := ((write false [call callee argument]).toOption).getD {}

theorem untag_tag_call : ∃ r, (callWriter "foo" "bar").tag "foo(bar, baz)" = .ok r ∧ (callWriter "foo" "bar").untag r = "foo(bar, baz)" := by
  have written : write false [call "foo" "bar"] = .ok (callWriter "foo" "bar") := rfl
  refine untag_tag written ?_ ?_ ?_
  · decide +kernel
  · decide +kernel
  · have sorted : (callWriter "foo" "bar").longestFirst.map entry =
        [("@tag4n".toList, "foo ( bar )".toList), ("@tag3n".toList, "( bar )".toList), ("@tag1n".toList, "foo".toList), ("@tag2n".toList, "bar".toList)] := by
      cbv
    rw [← pairwise_map (f := entry) (R := fun earlier later => Apart later.2 earlier.1), sorted]
    decide +kernel

/-- The name of an argument stands in the name that was put for the callee. -/
theorem tag_inside_name : tagged [call "f" "n"] "f" = .ok ("@tag1@tag2n", "@tag1n") := by
  cbv

end Writer

end Rulewright.Query
