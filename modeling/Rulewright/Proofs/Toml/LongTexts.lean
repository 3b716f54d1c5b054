import Rulewright.Proofs.Toml.Lines

/-!
Long texts under the scan. A line end after two equal quotes is dropped and the quote stands a third time, as if a long text had just
been opened there. So a text without double quotes is read as it was written exactly if no line of it ends with two single quotes and
its first line, if there are others, does not end with a blank. With double quotes, what stands between them is scanned as if
it stood outside the text, and so is a text on one line that has quotes of its own at both ends.
-/

open List

namespace Rulewright.Toml

open Scan
open Scan (mid fence InLong specialInside)

attribute [local simp] step atQuote atBracket push bind Except.bind pure Except.pure

variable {a b c third : Char} {text done rest base front whole : List Char} {depth : Int}

def endLine : List Char → List Char
  | a :: b :: done =>
    if (a = '\'' ∨ a = '"') ∧ b = a then a :: a :: b :: (if done.head? = some a then ' ' :: done.tail else done)
    else '\n' :: a :: b :: done
  | done => '\n' :: done

def joinAfter (done text : List Char) : List Char := text.foldl (fun done c => if c = '\n' then endLine done else c :: done) done

def joinLines (text : List Char) : List Char := (joinAfter [] text).reverse

theorem joinAfter_cons (c : Char) (text : List Char) :
    joinAfter done (c :: text) = joinAfter (if c = '\n' then endLine done else c :: done) text := rfl

theorem endLine_pair (quote : a = '\'' ∨ a = '"') (done : List Char) :
    endLine (a :: a :: done) = a :: a :: a :: (if done.head? = some a then ' ' :: done.tail else done) := if_pos ⟨quote, rfl⟩

def EndsPaired (text : List Char) : Prop := ['\'', '\''] <:+ text ∨ ['"', '"'] <:+ text

theorem endLine_cases (done : List Char) :
    endLine done = '\n' :: done ∧ ¬ EndsPaired done.reverse ∨
      ∃ a rest, (a = '\'' ∨ a = '"') ∧ done = a :: a :: rest ∧ EndsPaired done.reverse := by
  have suffix (x : Char) : [x, x] <:+ done.reverse ↔ [x, x] <+: done := by
    rw [← reverse_prefix, reverse_reverse]
    rfl
  simp only [EndsPaired, suffix]
  rcases done with _ | ⟨a, _ | ⟨b, done⟩⟩
  · exact .inl ⟨rfl, by simp⟩
  · exact .inl ⟨rfl, by simp [cons_prefix_cons]⟩
  · by_cases pair : (a = '\'' ∨ a = '"') ∧ b = a
    · obtain ⟨quote, rfl⟩ := pair
      rcases quote with rfl | rfl <;> simp [cons_prefix_cons]
    · refine .inl ⟨if_neg pair, ?_⟩
      simp only [cons_prefix_cons]
      rintro (⟨rfl, rfl, -⟩ | ⟨rfl, rfl, -⟩) <;> simp at pair

theorem length_endLine (done : List Char) : (endLine done).length = done.length + 1 := by
  rcases endLine_cases done with ⟨whole, -⟩ | ⟨a, rest, quote, rfl, -⟩
  · rw [whole, length_cons]
  · rw [endLine_pair quote]
    split
    next third =>
      obtain ⟨more, rfl⟩ : ∃ more, rest = a :: more := ⟨rest.tail, (cons_head?_tail third).symm⟩
      simp
    next => simp

theorem mem_endLine (inside : c ∈ endLine done) : c ∈ done ∨ c = '\n' ∨ c = ' ' := by
  rcases endLine_cases done with ⟨whole, -⟩ | ⟨a, rest, quote, rfl, -⟩
  · rw [whole] at inside
    rcases mem_cons.mp inside with rfl | inside
    · exact .inr (.inl rfl)
    · exact .inl inside
  · rw [endLine_pair quote] at inside
    split at inside
    · simp only [mem_cons] at inside ⊢
      have tail (mem : c ∈ rest.tail) : c ∈ rest := mem_of_mem_tail mem
      tauto
    · simp only [mem_cons] at inside ⊢
      tauto

theorem count_endLine (done : List Char) (paired : EndsPaired done.reverse) : (endLine done).count '\n' = done.count '\n' := by
  rcases endLine_cases done with ⟨-, apart⟩ | ⟨a, rest, quote, rfl, -⟩
  · exact absurd paired apart
  · have other : (a == '\n') = false := by rcases quote with rfl | rfl <;> decide
    rw [endLine_pair quote]
    split
    next third =>
      obtain ⟨more, rfl⟩ : ∃ more, rest = a :: more := ⟨rest.tail, (cons_head?_tail third).symm⟩
      simp [count_cons, other]
    next => simp [count_cons, other]

theorem length_joinAfter (done text : List Char) : (joinAfter done text).length = done.length + text.length := by
  induction text generalizing done with
  | nil => rfl
  | cons c text ih =>
    rw [joinAfter_cons, ih]
    split
    · rw [length_endLine, length_cons]
      omega
    · simp only [length_cons]
      omega

theorem mem_joinAfter (inside : c ∈ joinAfter done text) : c ∈ done ∨ c ∈ text ∨ c = '\n' ∨ c = ' ' := by
  induction text generalizing done with
  | nil => exact .inl inside
  | cons x text ih =>
    rw [joinAfter_cons] at inside
    rcases ih inside with mem | mem | mem
    · split at mem
      · rcases mem_endLine mem with mem | mem
        · exact .inl mem
        · exact .inr (.inr mem)
      · rcases mem_cons.mp mem with rfl | mem
        · exact .inr (.inl mem_cons_self)
        · exact .inl mem
    · exact .inr (.inl (mem_cons_of_mem _ mem))
    · exact .inr (.inr mem)

def LinesApart (text : List Char) : Prop := ∀ front rest, text = front ++ '\n' :: rest → ¬ EndsPaired front

def HasPairedEnd (done text : List Char) : Prop := ∃ front rest, text = front ++ '\n' :: rest ∧ EndsPaired (done.reverse ++ front)

theorem hasPairedEnd_cons : HasPairedEnd done (c :: text) ↔ c = '\n' ∧ EndsPaired done.reverse ∨ HasPairedEnd (c :: done) text := by
  have move (front : List Char) : done.reverse ++ c :: front = (c :: done).reverse ++ front := by simp
  constructor
  · rintro ⟨_ | ⟨x, front⟩, rest, same, paired⟩
    · exact .inl ⟨(List.cons.inj same).1, by simpa using paired⟩
    · cases same
      exact .inr ⟨front, rest, rfl, move front ▸ paired⟩
  · rintro (⟨rfl, paired⟩ | ⟨front, rest, rfl, paired⟩)
    · exact ⟨[], text, rfl, by simpa using paired⟩
    · exact ⟨c :: front, rest, rfl, move front ▸ paired⟩

theorem joinAfter_cases (done text : List Char) : joinAfter done text = text.reverse ++ done ∧ ¬HasPairedEnd done text ∨
    (joinAfter done text).count '\n' < done.count '\n' + text.count '\n' ∧ HasPairedEnd done text := by
  induction text generalizing done with
  | nil => exact .inl ⟨rfl, by simp [HasPairedEnd]⟩
  | cons c text ih =>
    rw [joinAfter_cons, hasPairedEnd_cons]
    by_cases newline : c = '\n'
    · subst newline
      rw [if_pos rfl]
      rcases endLine_cases done with ⟨stays, apart⟩ | ⟨-, -, -, -, paired⟩
      · simpa [stays, apart, Nat.add_right_comm, ← Nat.add_assoc] using ih ('\n' :: done)
      · -- the line end is lost, so one is missing in the end
        refine .inr ⟨?_, .inl ⟨rfl, paired⟩⟩
        rw [count_cons_self, ← count_endLine done paired]
        rcases ih (endLine done) with ⟨same, -⟩ | ⟨fewer, -⟩
        · rw [same, count_append, count_reverse]
          omega
        · omega
    · simpa [newline] using ih (c :: done)

theorem joinLines_cases (text : List Char) :
    joinLines text = text ∧ LinesApart text ∨ (joinLines text).count '\n' < text.count '\n' ∧ ¬LinesApart text := by
  have apart : LinesApart text ↔ ¬HasPairedEnd [] text := by simp [LinesApart, HasPairedEnd]
  rw [apart, not_not, joinLines, count_reverse]
  exact (joinAfter_cases [] text).imp (And.imp_left fun same => by simp [same]) (by simpa using ·)

theorem joinLines_eq_iff : joinLines text = text ↔ LinesApart text := by
  rcases joinLines_cases text with both | ⟨fewer, paired⟩
  · exact iff_of_true both.1 both.2
  · refine iff_of_false (fun same => ?_) paired
    rw [same] at fewer
    exact Nat.lt_irrefl _ fewer

theorem length_joinLines (text : List Char) : (joinLines text).length = text.length := by
  rw [joinLines, length_reverse, length_joinAfter, length_nil, Nat.zero_add]

theorem count_joinLines_le (text : List Char) : (joinLines text).count '\n' ≤ text.count '\n' := by
  rcases joinLines_cases text with ⟨same, -⟩ | ⟨fewer, -⟩
  · rw [same]
  · exact Nat.le_of_lt fewer

theorem joinLines_eq_of_count (same : (joinLines text).count '\n' = text.count '\n') : joinLines text = text := by
  rcases joinLines_cases text with ⟨whole, -⟩ | ⟨fewer, -⟩
  · exact whole
  · omega

theorem mem_joinLines (inside : c ∈ joinLines text) : c ∈ text ∨ c = '\n' ∨ c = ' ' := by
  rw [joinLines, mem_reverse] at inside
  rcases mem_joinAfter inside with mem | mem
  · cases mem
  · exact mem

theorem asRead_sublist (text : List Char) : (asRead text).Sublist text := by
  by_cases several : '\n' ∈ text
  · obtain ⟨first, rest, rfl, single⟩ := eq_append_cons_of_mem several
    obtain ⟨blanks, whole, -⟩ := Text.exists_trimEnd first
    rw [asRead_lines single]
    have part : (Text.trimEnd first).Sublist (Text.trimEnd first ++ blanks) := sublist_append_left _ _
    rw [← whole] at part
    exact part.append (List.Sublist.refl _)
  · rw [asRead_single several]

theorem asRead_joinLines_iff : asRead (joinLines text) = text ↔ LinesApart text ∧ asRead text = text := by
  constructor
  · intro same
    have kept : asRead (joinLines text) = joinLines text := by
      apply (asRead_sublist _).eq_of_length
      rw [same, length_joinLines]
    have whole : joinLines text = text := kept.symm.trans same
    rw [whole] at same
    exact ⟨joinLines_eq_iff.mp whole, same⟩
  · rintro ⟨apart, same⟩
    rw [joinLines_eq_iff.mpr apart, same]

structure Held (text : List Char) : Prop where
  scans : Scan.AfterKey (fence ++ text ++ fence) (fence ++ joinLines text ++ fence)
  closes : Sealed (joinLines text)

theorem Held.of_fenced (scans : InLong text (joinLines text)) (fenced : Fenced (joinLines text)) : Held text :=
  ⟨value_long scans fenced.filled fenced.ends fun wrong => fenced.free (mem_of_getLast? wrong), fenced.sealed⟩

theorem step_newline_pair {inside : Bool} (quote : a = '\'' ∨ a = '"') :
    (mid true inside depth (a :: a :: third :: done)).step '\n' rest =
      .ok (mid true inside depth (a :: a :: a :: (if third = a then ' ' else third) :: done)) := by
  by_cases same : third = a <;> rcases quote with rfl | rfl <;>
    simp [mid, atLineEnd, back, same]

theorem step_endLine (started : done ≠ []) (free : '"' ∉ done) :
    (mid true true 0 (done ++ '"' :: base)).step '\n' rest = .ok (mid true true 0 (endLine done ++ '"' :: base)) := by
  rcases endLine_cases done with ⟨stays, apart⟩ | ⟨a, more, quote, rfl, -⟩
  · rw [stays]
    rcases done with _ | ⟨a, _ | ⟨b, done⟩⟩
    · exact absurd rfl started
    · have other : a ≠ '"' := by simpa [eq_comm] using free
      exact step_newline_long fun same => absurd same.symm other
    · refine step_newline_long fun same => ?_
      subst same
      have double : b ≠ '"' := fun same => free (same ▸ mem_cons_self)
      refine ⟨?_, double⟩
      rintro rfl
      exact apart (.inl ⟨done.reverse, by simp⟩)
  · have single : a ≠ '"' := fun same => free (same ▸ mem_cons_self)
    rw [endLine_pair quote]
    cases more with
    | nil =>
      refine (step_newline_pair quote).trans ?_
      simp [single.symm]
    | cons third more =>
      refine (step_newline_pair quote).trans ?_
      by_cases same : third = a <;> simp [same]

theorem run_joinAfter (plain : ∀ c ∈ text, c ≠ '"' ∧ c ≠ '\r') (started : done ≠ [] ∨ text.head? ≠ some '\n') (free : '"' ∉ done) :
    (mid true true 0 (done ++ '"' :: base)).run (text ++ rest) = (mid true true 0 (joinAfter done text ++ '"' :: base)).run rest := by
  induction text generalizing done with
  | nil => rfl
  | cons c text ih =>
    obtain ⟨double, ret⟩ := plain c mem_cons_self
    have others := fun c mem => plain c (mem_cons_of_mem _ mem)
    rw [joinAfter_cons, cons_append]
    by_cases newline : c = '\n'
    · subst newline
      have some : done ≠ [] := by simpa using started
      have filled : endLine done ≠ [] := by
        rw [← length_pos_iff, length_endLine]
        omega
      have outside : '"' ∉ endLine done := by
        intro inside
        rcases mem_endLine inside with mem | wrong | wrong
        · exact free mem
        · exact absurd wrong (by decide)
        · exact absurd wrong (by decide)
      rw [if_pos rfl, run_step (step_endLine some free), ih others (.inl filled) outside]
    · have step : (mid true true 0 (done ++ '"' :: base)).step c (text ++ rest) = .ok (mid true true 0 (c :: done ++ '"' :: base)) :=
        step_inside (by simp [specialInside, newline, double, ret])
      rw [if_neg newline, run_step step, ih others (.inl (by simp)) (by simp [free, double.symm])]

theorem Held.of_plain (filled : text ≠ []) (first : text.head? ≠ some '\n') (quote : '"' ∉ text) (backslash : '\\' ∉ text) (ret : '\r' ∉ text) :
    Held text := by
  have plain : ∀ c ∈ text, c ≠ '"' ∧ c ≠ '\r' :=
    fun c mem => ⟨fun same => quote (same ▸ mem), fun same => ret (same ▸ mem)⟩
  have free {c : Char} (outside : c ∉ text) (newline : c ≠ '\n') (blank : c ≠ ' ') : c ∉ joinLines text := by
    intro inside
    rcases mem_joinLines inside with mem | wrong | wrong
    · exact outside mem
    · exact newline wrong
    · exact blank wrong
  have double : '"' ∉ joinLines text := free quote (by decide) (by decide)
  refine .of_fenced (fun done rest => ?_) ⟨?_, ?_, ?_, free backslash (by decide) (by decide), ?_⟩
  · rw [joinLines, reverse_reverse]
    exact run_joinAfter plain (.inr first) not_mem_nil
  · rw [← length_pos_iff, length_joinLines, length_pos_iff]
    exact filled
  · exact fun wrong => double (mem_of_head? wrong)
  · exact fun wrong => double (mem_of_getLast? wrong)
  · exact fun inside => double (inside.subset (by decide))

def turn (q : Option Char) (c : Char) : Option Char :=
  if c = '\'' ∨ c = '"' then (if q = none then some c else if q = some c then none else q) else q

def deeper (q : Option Char) (c : Char) : Int :=
  if q = none then (if c = '[' then 1 else if c = ']' then -1 else 0) else 0

def Balanced (last : Option Char) : Option Char → Int → List Char → Prop
  | q, depth, [] => q = last ∧ depth = 0
  | q, depth, c :: text => (q = none → c ≠ '#') ∧ Balanced last (turn q c) (depth + deeper q c) text

instance decidableBalanced (last : Option Char) : ∀ q depth text, Decidable (Balanced last q depth text)
  | q, depth, [] => inferInstanceAs (Decidable (q = last ∧ depth = 0))
  | q, depth, c :: text =>
    have := decidableBalanced last (turn q c) (depth + deeper q c) text
    inferInstanceAs (Decidable ((q = none → c ≠ '#') ∧ Balanced last (turn q c) (depth + deeper q c) text))

section Steps

variable {long : Bool} {q : Option Char} {depth : Int}

theorem step_within_quote (known : q = none ∨ q = some '"' ∨ q = some '\'') (quote : c = '\'' ∨ c = '"') (backslash : a ≠ '\\')
    (apart : ¬ (a = c ∧ b = c)) :
    (within long q depth (a :: b :: done)).step c rest = .ok (within long (turn q c) depth (c :: a :: b :: done)) := by
  by_cases first : a = c
  · have second : b ≠ c := fun same => apart ⟨first, same⟩
    rcases known with rfl | rfl | rfl <;> rcases quote with rfl | rfl <;>
      simp [within, turn, quotes, back, first, second]
  · rcases known with rfl | rfl | rfl <;> rcases quote with rfl | rfl <;>
      simp [within, turn, quotes, oddBackslashes, back, first, backslash]

theorem step_within_other (ret : c ≠ '\r') (newline : c ≠ '\n') (single : c ≠ '\'') (double : c ≠ '"') (comment : q = none → c ≠ '#') :
    (within long q depth done).step c rest = .ok (within long q (depth + deeper q c) (c :: done)) := by
  cases q with
  | none =>
    have hash : c ≠ '#' := comment rfl
    by_cases opening : c = '['
    · simp [within, deeper, opening]
    · by_cases closing : c = ']'
      · simp [within, deeper, closing]
        omega
      · simp [within, deeper, ret, newline, single, double, hash, opening, closing]
  | some x =>
    simp [within, deeper, ret, newline, single, double]

theorem turn_known (known : q = none ∨ q = some '"' ∨ q = some '\'') (c : Char) : turn q c = none ∨ turn q c = some '"' ∨ turn q c = some '\'' := by
  rw [turn]
  split
  next quote => rcases known with rfl | rfl | rfl <;> rcases quote with rfl | rfl <;> decide
  next => exact known

theorem step_within (known : q = none ∨ q = some '"' ∨ q = some '\'') (ret : c ≠ '\r') (backslash : a ≠ '\\')
    (apart : b = a → a = '\'' ∨ a = '"' → c ≠ a ∧ c ≠ '\n') (comment : q = none → c ≠ '#') (flat : long = false → c ≠ '\n') :
    (within long q depth (a :: b :: done)).step c rest = .ok (within long (turn q c) (depth + deeper q c) (c :: a :: b :: done)) := by
  by_cases quote : c = '\'' ∨ c = '"'
  · have level : depth + deeper q c = depth := by rcases quote with rfl | rfl <;> simp [deeper]
    rw [level]
    refine step_within_quote known quote backslash ?_
    rintro ⟨rfl, rfl⟩
    exact (apart rfl quote).1 rfl
  · have stays : turn q c = q := if_neg quote
    rw [stays]
    obtain ⟨single, double⟩ := not_or.mp quote
    by_cases newline : c = '\n'
    · subst newline
      have level : depth + deeper q '\n' = depth := by simp [deeper]
      have long : long := by simpa using flat
      rw [level, long]
      exact step_within_newline fun same => ⟨fun quote => (apart same (.inl quote)).2 rfl, fun quote => (apart same (.inr quote)).2 rfl⟩
    · exact step_within_other ret newline single double comment

end Steps

@[mk_iff]
structure Tidy (text : List Char) : Prop where
  filled : text ≠ []
  first : text.head? ≠ some '\n'
  starts : text.head? ≠ some '"'
  ends : text.getLast? ≠ some '"'
  backslash : '\\' ∉ text
  ret : '\r' ∉ text
  double : ¬ fence <:+: text
  single : ¬ ['\'', '\'', '\''] <:+: text
  lines : LinesApart text

instance : DecidablePred LinesApart := fun _ => decidable_of_iff _ joinLines_eq_iff

instance : DecidablePred Tidy := fun _ => decidable_of_iff _ (tidy_iff ..).symm

theorem last_two (base : List Char) (starts : front.head? ≠ some '"') :
    ∃ a b more, front.reverse ++ (fence ++ base) = a :: b :: more ∧ (a = '\\' → '\\' ∈ front) ∧ (b = a → front = [] ∧ a = '"' ∨ [a, a] <:+ front) := by
  rcases last : front.reverse with _ | ⟨a, _ | ⟨b, more⟩⟩
  · exact ⟨'"', '"', '"' :: base, rfl, fun wrong => absurd wrong (by decide), fun _ => .inl ⟨by simpa using last, rfl⟩⟩
  · have whole : front = [a] := by rw [← reverse_reverse front, last]; rfl
    refine ⟨a, '"', '"' :: '"' :: base, rfl, fun same => by simp [whole, same], fun same => ?_⟩
    rw [whole, ← same] at starts
    exact absurd rfl starts
  · have whole : front = more.reverse ++ [b, a] := by rw [← reverse_reverse front, last]; simp
    refine ⟨a, b, more ++ (fence ++ base), rfl, fun same => by simp [whole, same], ?_⟩
    rintro rfl
    exact .inr ⟨more.reverse, whole.symm⟩

theorem Tidy.run (tidy : Tidy whole) {long : Bool} (flat : long = false → '\n' ∉ whole)
    {last q : Option Char} (front : List Char) (known : q = none ∨ q = some '"' ∨ q = some '\'') (parts : whole = front ++ text)
    (balanced : Balanced last q depth text) :
    (within long q depth (front.reverse ++ (fence ++ base))).run (text ++ rest) =
      (within long last 0 (whole.reverse ++ (fence ++ base))).run rest := by
  induction text generalizing q depth front with
  | nil =>
    obtain ⟨rfl, rfl⟩ := balanced
    rw [parts, append_nil, nil_append]
  | cons c text ih =>
    obtain ⟨comment, balanced⟩ := balanced
    have starts : front.head? ≠ some '"' := by
      intro wrong
      apply tidy.starts
      rw [parts, head?_append, wrong]
      rfl
    obtain ⟨a, b, more, ends, escape, pair⟩ := last_two base starts
    have ret : c ≠ '\r' := by
      rintro rfl
      exact tidy.ret (by simp [parts])
    have backslash : a ≠ '\\' := by
      intro wrong
      exact tidy.backslash (by simp [parts, escape wrong])
    have apart : b = a → a = '\'' ∨ a = '"' → c ≠ a ∧ c ≠ '\n' := by
      intro same quote
      rcases pair same with ⟨rfl, rfl⟩ | ends
      · exact ⟨fun wrong => tidy.starts (by simp [parts, wrong]), fun wrong => tidy.first (by simp [parts, wrong])⟩
      · obtain ⟨before, rfl⟩ := ends
        constructor
        · rintro rfl
          have three : [c, c, c] <:+: whole := ⟨before, text, by simp [parts]⟩
          rcases quote with rfl | rfl
          · exact tidy.single three
          · exact tidy.double three
        · rintro rfl
          refine tidy.lines (before ++ [a, a]) text parts ?_
          rcases quote with rfl | rfl
          · exact .inl ⟨before, rfl⟩
          · exact .inr ⟨before, rfl⟩
    have line : long = false → c ≠ '\n' := by
      rintro short rfl
      exact flat short (by simp [parts])
    have moved : c :: (front.reverse ++ (fence ++ base)) = (front ++ [c]).reverse ++ (fence ++ base) := by simp
    have step : (within long q depth (a :: b :: more)).step c (text ++ rest) = .ok _ := step_within known ret backslash apart comment line
    rw [← ends, moved] at step
    rw [cons_append, run_step step]
    exact ih (front ++ [c]) (turn_known known c) (by rw [parts]; simp) balanced

structure Legible (text : List Char) : Prop where
  tidy : Tidy text
  balanced : Balanced (some '"') (some '"') 0 text

theorem Legible.held (legible : Legible text) : Held text := by
  obtain ⟨tidy, balanced⟩ := legible
  have whole : joinLines text = text := joinLines_eq_iff.mpr tidy.lines
  refine .of_fenced ?_ ?_
  · rw [whole]
    intro done rest
    exact tidy.run (fun wrong => absurd wrong (by decide)) [] (.inr (.inl rfl)) rfl balanced
  · rw [whole]
    exact ⟨tidy.filled, tidy.starts, tidy.ends, tidy.backslash, tidy.double⟩

structure Literal (body : List Char) : Prop where
  tidy : Tidy body
  quote : '"' ∉ body
  single : '\n' ∉ body
  balanced : Balanced none none 0 body

theorem Literal.scans (literal : Literal text) : Scan.AfterKey (fence ++ quoted text ++ fence) (fence ++ quoted text ++ fence) := by
  obtain ⟨tidy, -, single, balanced⟩ := literal
  intro done rest
  -- the quote after the first three closes the long text
  have opened (more : List Char) : (mid false false 0 (' ' :: done)).run (fence ++ '"' :: more) =
      (within false none 0 (fence ++ '"' :: ' ' :: done)).run more := by
    simp only [fence, cons_append, nil_append]
    rw [run_step (step_quote (by decide) (by decide)), run_step (step_quote_second (by decide))]
    rfl
  have inside : (within false none 0 (fence ++ '"' :: ' ' :: done)).run (text ++ ('"' :: fence ++ rest)) =
      (within false none 0 (text.reverse ++ (fence ++ '"' :: ' ' :: done))).run ('"' :: fence ++ rest) :=
    tidy.run (fun _ => single) [] (.inl rfl) rfl balanced
  -- and the quote before the last three opens a text on the line, so the last one closes what the others opened
  have closed {x : Char} (double : x ≠ '"') (escape : x ≠ '\\') (more : List Char) :
      (within false none 0 (x :: more)).run ('"' :: fence ++ rest) = (mid false false 0 ('"' :: fence ++ x :: more)).run rest := by
    change (mid false false 0 (x :: more)).run ('"' :: '"' :: '"' :: '"' :: rest) = _
    rw [run_step (step_quote double escape), run_step (step_quote_second double), run_step (step_quote_third escape)]
    rfl
  have parts : fence ++ quoted text ++ fence ++ rest = fence ++ '"' :: (text ++ ('"' :: fence ++ rest)) := by simp [quoted]
  rw [parts, opened, inside]
  cases text using List.reverseRecOn with
  | nil => exact absurd rfl tidy.filled
  | append_singleton front last =>
    have double : last ≠ '"' := by simpa using tidy.ends
    have escape : last ≠ '\\' := by
      rintro rfl
      exact tidy.backslash (by simp)
    rw [reverse_append, reverse_singleton, singleton_append, cons_append, closed double escape]
    simp [quoted, fence]

theorem Literal.joinLines (literal : Literal text) : joinLines (quoted text) = quoted text := by
  rw [joinLines_eq_iff]
  rintro front rest parts
  have inside : '\n' ∈ quoted text := by simp [parts]
  exact absurd inside (by simpa [quoted] using literal.single)

theorem Literal.held (literal : Literal text) : Held (quoted text) := by
  have single : '\n' ∉ quoted text := by simpa [quoted] using literal.single
  refine ⟨?_, ?_⟩
  · rw [literal.joinLines]
    exact literal.scans
  · rw [literal.joinLines]
    refine ⟨?_, by simpa [quoted] using literal.tidy.backslash, fun several => absurd several single⟩
    rw [asRead_single single]
    exact readText_literal literal.tidy.filled literal.quote literal.tidy.backslash

def Clear (text : List Char) : Prop := Legible text ∨ ∃ body, text = quoted body ∧ Literal body

theorem Clear.held (clear : Clear text) : Held text := by
  rcases clear with legible | ⟨body, rfl, literal⟩
  · exact legible.held
  · exact literal.held

theorem Clear.joinLines (clear : Clear text) : joinLines text = text := by
  rcases clear with legible | ⟨body, rfl, literal⟩
  · exact joinLines_eq_iff.mpr legible.tidy.lines
  · exact literal.joinLines

end Rulewright.Toml
