import Rulewright.Toml.Reader
import Rulewright.Proofs.Text.Cutting
import Rulewright.Proofs.Toml.Scanning

/-!
Reading texts: between quotes, with line ends escaped, and between three quotes, with anything in them but backslashes and three quotes.
-/

open List

namespace Rulewright.Toml

open Scan (quoted fence)

variable {text cs mark : List Char} {c head : Char} {strict : Bool} {fuel width count : Nat}

section Escapes

variable {mark letter : Char}

def escaped (mark letter : Char) (text : List Char) : List Char := text.flatMap fun c => if c = mark then ['\\', letter] else [c]

@[simp]
theorem escaped_nil : escaped mark letter [] = [] := rfl

theorem escaped_mark (text : List Char) : escaped mark letter (mark :: text) = '\\' :: letter :: escaped mark letter text := by
  simp [escaped]

theorem escaped_cons (other : c ≠ mark) (text : List Char) : escaped mark letter (c :: text) = c :: escaped mark letter text := by
  simp [escaped, other]

theorem escaped_of_not_mem (free : mark ∉ text) : escaped mark letter text = text := by
  induction text with
  | nil => rfl
  | cons c text ih =>
    obtain ⟨other, free⟩ := not_or.mp (mem_cons.not.mp free)
    rw [escaped_cons (Ne.symm other), ih free]

theorem mem_escaped (inside : c ∈ escaped mark letter text) : c ∈ text ∧ c ≠ mark ∨ c = '\\' ∨ c = letter := by
  obtain ⟨x, mem, inside⟩ := mem_flatMap.mp inside
  by_cases same : x = mark
  · right
    simpa [same] using inside
  · rw [if_neg same, mem_singleton] at inside
    subst inside
    exact .inl ⟨mem, same⟩

theorem escaped_ne_nil (filled : text ≠ []) : escaped mark letter text ≠ [] := by
  obtain ⟨c, text, rfl⟩ := exists_cons_of_ne_nil filled
  by_cases same : c = mark <;> simp [escaped, same]

section

variable (known : escapes.lookup letter = some mark)
include known

theorem letter_ne : letter ≠ '\\' := by
  rintro rfl
  cases known

theorem getLast?_escaped (free : '\\' ∉ text) : (escaped mark letter text).getLast? ≠ some '\\' := by
  cases text using List.reverseRecOn with
  | nil => simp
  | append_singleton front last =>
    have other : last ≠ '\\' := by
      rintro rfl
      exact free (by simp)
    by_cases same : last = mark <;> simp [escaped, same, other, letter_ne known]

theorem cut_escaped (free : '\\' ∉ text) (rest : '\\' ∉ cs) :
    ∀ piece ∈ (Text.cut ['\\'] (escaped mark letter text ++ cs)).drop 1, piece.head? = some letter := by
  induction text with
  | nil =>
    rw [escaped_nil, nil_append, Text.cut_of_not_mem rest]
    simp
  | cons c text ih =>
    obtain ⟨other, others⟩ := not_or.mp (mem_cons.not.mp free)
    obtain ⟨head, tail, cut⟩ := exists_cons_of_ne_nil (Text.cut_ne_nil '\\' (escaped mark letter text ++ cs))
    have later := ih others
    rw [cut] at later
    by_cases same : c = mark
    · rw [same, escaped_mark, cons_append, cons_append, Text.cut_cons_sep, Text.cut_cons (letter_ne known), cut]
      intro piece mem
      rcases mem_cons.mp mem with rfl | mem
      · rfl
      · exact later piece mem
    · rw [escaped_cons same, cons_append, Text.cut_cons (Ne.symm other), cut]
      exact later

theorem checkEscapes_ok {pieces : List (List Char)} (each : ∀ piece ∈ pieces, piece.head? = some letter) : checkEscapes false pieces = .ok () := by
  induction pieces with
  | nil => rfl
  | cons piece pieces ih =>
    obtain ⟨rest, rfl⟩ : ∃ rest, piece = letter :: rest := by
      have head := each piece mem_cons_self
      cases piece with
      | nil => cases head
      | cons c rest =>
        cases head
        exact ⟨rest, rfl⟩
    rw [checkEscapes, known]
    exact ih fun piece mem => each piece (mem_cons_of_mem _ mem)

theorem contains_escaped {other : Char} (apart : other ≠ letter) (free : '\\' ∉ text) (rest : '\\' ∉ cs) : Text.contains ['\\', other] (escaped mark letter text ++ cs) = false := by
  induction text with
  | nil => exact Text.contains_of_head_not_mem rest
  | cons c text ih =>
    obtain ⟨first, others⟩ := not_or.mp (mem_cons.not.mp free)
    by_cases same : c = mark
    · rw [same, escaped_mark]
      simp [Text.contains, List.isPrefixOf, apart, Ne.symm (letter_ne known), ih others]
    · rw [escaped_cons same]
      simp [Text.contains, List.isPrefixOf, first, ih others]

end

theorem unescape_cons (other : c ≠ '\\') (cs : List Char) : unescape (c :: cs) = (unescape cs).map (c :: ·) := by
  rw [unescape]
  · cases unescape cs <;> rfl
  · rintro rfl
    exact absurd rfl other
  · rintro c' rest rfl
    exact absurd rfl other

theorem unescape_plain (free : '\\' ∉ cs) : unescape cs = .ok cs := by
  induction cs with
  | nil => rw [unescape]
  | cons c cs ih =>
    obtain ⟨apart, free⟩ := not_or.mp (mem_cons.not.mp free)
    rw [unescape_cons (Ne.symm apart), ih free]
    rfl

theorem unescape_escaped (known : escapes.lookup letter = some mark) (free : '\\' ∉ text) (rest : '\\' ∉ cs) :
    unescape (escaped mark letter text ++ cs) = .ok (text ++ cs) := by
  induction text with
  | nil => exact unescape_plain rest
  | cons c text ih =>
    obtain ⟨apart, others⟩ := not_or.mp (mem_cons.not.mp free)
    by_cases same : c = mark
    · rw [same, escaped_mark, cons_append, cons_append, unescape, known, ih others]
      rfl
    · rw [escaped_cons same, cons_append, unescape_cons (Ne.symm apart), ih others]
      rfl

end Escapes

def escapeLines (text : List Char) : List Char := text.flatMap fun c => if c = '\n' then ['\\', 'n'] else [c]

theorem escapeLines_eq (text : List Char) : escapeLines text = escaped '\n' 'n' text := rfl

theorem escapeLines_cons (other : c ≠ '\n') (text : List Char) : escapeLines (c :: text) = c :: escapeLines text := escaped_cons other text

theorem escapeLines_of_not_mem (free : '\n' ∉ text) : escapeLines text = text := escaped_of_not_mem free

theorem mem_escapeLines (inside : c ∈ escapeLines text) : c ∈ text ∧ c ≠ '\n' ∨ c = '\\' ∨ c = 'n' := mem_escaped inside

theorem getLast?_escapeLines (free : '\\' ∉ text) : (escapeLines text).getLast? ≠ some '\\' := getLast?_escaped (by decide) free

theorem escapeLines_ne_nil (filled : text ≠ []) : escapeLines text ≠ [] := escaped_ne_nil filled

theorem endsOdd_of_last (visible : text.getLast? ≠ some '\\') : endsOdd text = false := by
  cases text using List.reverseRecOn with
  | nil => rfl
  | append_singleton front last =>
    have other : (last == '\\') = false := by simpa using visible
    simp [endsOdd, other]

theorem replaceHexEscapes_absent (absent : Text.contains mark cs = false) :
    replaceHexEscapes mark width cs = .ok cs := by
  rw [replaceHexEscapes, Text.cut_of_contains absent]

theorem checkClosed_short (filled : text ≠ []) (ends : text.getLast? ≠ some '\\') : checkClosed false false 0 [text, []] = .ok () := by
  have visible : text.isEmpty = false := by simpa using filled
  simp [checkClosed, visible, endsOdd_of_last ends]

theorem readText_of_unescape {inner tail : List Char} (opens : inner = head :: tail) (apart : head ≠ '"') (filled : text ≠ [])
    (starts : ∀ rest, text = '"' :: rest → rest ≠ [] ∧ rest.head? ≠ some '"')
    (closed : checkClosed false false 0 (Text.cut ['"'] (inner ++ ['"'])) = .ok ())
    (checked : checkEscapes false ((Text.cut ['\\'] (inner ++ ['"'])).drop 1) = .ok ())
    (small : replaceHexEscapes ['\\', 'u'] 4 ('"' :: (inner ++ ['"'])) = .ok ('"' :: (inner ++ ['"'])))
    (large : replaceHexEscapes ['\\', 'U'] 8 ('"' :: (inner ++ ['"'])) = .ok ('"' :: (inner ++ ['"'])))
    (plain : unescape (inner ++ ['"']) = .ok (text ++ ['"'])) : readText (quoted inner) '"' = .ok (String.ofList text) := by
  obtain ⟨piece, pieces, cut⟩ : ∃ piece pieces, Text.cut ['"'] (inner ++ ['"']) = (head :: piece) :: pieces := by
    obtain ⟨piece, pieces, cut⟩ := exists_cons_of_ne_nil (Text.cut_ne_nil '"' (tail ++ ['"']))
    exact ⟨piece, pieces, by rw [opens, cons_append, Text.cut_cons apart, cut, modifyHead_cons]⟩
  rw [cut] at closed
  have same : (Text.cut ['\\'] ('"' :: (inner ++ ['"']))).drop 1 = (Text.cut ['\\'] (inner ++ ['"'])).drop 1 := by
    rw [Text.cut_cons (by decide)]
    cases Text.cut ['\\'] (inner ++ ['"']) <;> rfl
  have whole : quoted inner = '"' :: (inner ++ ['"']) := rfl
  rw [readText, whole, drop_succ_cons, drop_zero, cut]
  simp only [closed, same, checked, small, large, unescape_cons (show '"' ≠ '\\' by decide), plain, bind, Except.bind, beq_self_eq_true, if_true,
    Bool.false_eq_true, if_false]
  obtain ⟨c, rest, rfl⟩ := exists_cons_of_ne_nil filled
  by_cases double : c = '"'
  · subst double
    obtain ⟨some, other⟩ := starts rest rfl
    obtain ⟨d, rest, rfl⟩ := exists_cons_of_ne_nil some
    have apart : d ≠ '"' := by simpa using other
    simp [dropEnds, Ne.symm apart, pure, Except.pure, Except.map]
  · cases rest <;> simp [dropEnds, double, pure, Except.pure, Except.map]

theorem readText_escaped {mark letter : Char} (known : escapes.lookup letter = some mark) (filled : text ≠ []) (starts : text.head? ≠ some '"')
    (free : '\\' ∉ text) (closed : checkClosed false false 0 (Text.cut ['"'] (escaped mark letter text ++ ['"'])) = .ok ()) :
    readText (quoted (escaped mark letter text)) '"' = .ok (String.ofList text) := by
  obtain ⟨head, tail, opens, apart⟩ : ∃ head tail, escaped mark letter text = head :: tail ∧ head ≠ '"' := by
    obtain ⟨first, rest, rfl⟩ := exists_cons_of_ne_nil filled
    by_cases same : first = mark
    · exact ⟨'\\', _, by rw [same, escaped_mark], by decide⟩
    · exact ⟨first, _, escaped_cons same rest, by simpa using starts⟩
  have quotes : '\\' ∉ ['"'] := by decide
  have hex (other : Char) (width : Nat) (none : escapes.lookup other = none) :
      replaceHexEscapes ['\\', other] width ('"' :: (escaped mark letter text ++ ['"'])) = .ok ('"' :: (escaped mark letter text ++ ['"'])) := by
    have unlike : other ≠ letter := by
      rintro rfl
      rw [known] at none
      cases none
    refine replaceHexEscapes_absent ?_
    simp [Text.contains, List.isPrefixOf, contains_escaped known unlike free quotes]
  refine readText_of_unescape opens apart filled (fun rest same => ?_) closed (checkEscapes_ok known (cut_escaped known free quotes))
    (hex 'u' 4 (by decide)) (hex 'U' 8 (by decide)) (unescape_escaped known free quotes)
  simp [same] at starts

theorem readText_quoted (filled : text ≠ []) (quote : '"' ∉ text) (free : '\\' ∉ text) :
    readText (quoted (escapeLines text)) '"' = .ok (String.ofList text) := by
  have plain : '"' ∉ escapeLines text := by
    intro inside
    rcases mem_escapeLines inside with ⟨mem, -⟩ | wrong | wrong
    · exact quote mem
    all_goals exact absurd wrong (by decide)
  refine readText_escaped (by decide) filled (fun first => quote (mem_of_head? first)) free ?_
  rw [← escapeLines_eq, Text.cut_append_sep, Text.cut_of_not_mem plain]
  exact checkClosed_short (escapeLines_ne_nil filled) (getLast?_escapeLines free)

theorem checkClosed_long (filled : cs ≠ []) (ends : cs.getLast? ≠ some '"') (free : '\\' ∉ cs)
    (apart : ¬ fence <:+: List.replicate (count + 1) '"' ++ cs) :
    checkClosed true false count (Text.cut ['"'] (cs ++ fence)) = .ok () := by
  induction size : cs.length using Nat.strong_induction_on generalizing cs count with | _ n ih => ?_
  have few : count ≤ 1 := by
    by_contra many
    obtain ⟨more, rfl⟩ : ∃ more, count = more + 2 := ⟨count - 2, by omega⟩
    exact apart ⟨[], List.replicate more '"' ++ cs, by simp [fence, replicate_succ]⟩
  by_cases inside : '"' ∈ cs
  · obtain ⟨front, back, rfl, before⟩ := eq_append_cons_of_mem inside
    have rest : back ≠ [] := by
      rintro rfl
      simp at ends
    have visible : endsOdd front = false := endsOdd_of_last fun wrong => free (by simp [mem_of_getLast? wrong])
    have shorter : back.length < n := by
      rw [← size, length_append, length_cons]
      omega
    have others : '\\' ∉ back := fun wrong => free (by simp [wrong])
    have backEnds : back.getLast? ≠ some '"' := by
      intro wrong
      simp [getLast?_append, getLast?_cons, wrong] at ends
    rw [append_assoc, cons_append, Text.cut_append_sep, Text.cut_of_not_mem before]
    cases front with
    | nil =>
      have next : checkClosed true false (count + 1) (Text.cut ['"'] (back ++ fence)) = .ok () := by
        refine ih back.length shorter rest backEnds others (fun wrong => apart ?_) rfl
        rw [replicate_succ'] at wrong
        simpa using wrong
      simpa [checkClosed] using next
    | cons c front =>
      have next : checkClosed true false 0 (Text.cut ['"'] (back ++ fence)) = .ok () := by
        refine ih back.length shorter rest backEnds others (fun wrong => apart ?_) rfl
        exact wrong.trans ⟨List.replicate (count + 1) '"' ++ c :: front, [], by simp⟩
      have low : ¬ 1 < count := by omega
      simpa [checkClosed, visible, low] using next
  · have visible : endsOdd cs = false := endsOdd_of_last fun wrong => free (mem_of_getLast? wrong)
    obtain ⟨c, rest, rfl⟩ := exists_cons_of_ne_nil filled
    have low : ¬ 1 < count := by omega
    have pieces : Text.cut ['"'] (c :: rest ++ fence) = [c :: rest, [], [], []] := by
      rw [fence, Text.cut_append_sep, Text.cut_of_not_mem inside]
      rfl
    rw [pieces]
    simp [checkClosed, visible, low]

theorem readText_fence (closed : checkClosed true false 0 (Text.cut ['"'] (cs ++ fence)) = .ok ()) (free : '\\' ∉ cs) :
    readText (fence ++ cs ++ fence) '"' = .ok (String.ofList cs) := by
  have pieces : Text.cut ['"'] ((fence ++ cs ++ fence).drop 1) = [] :: [] :: Text.cut ['"'] (cs ++ fence) := by
    simp only [fence, cons_append, nil_append, drop_succ_cons, drop_zero, Text.cut_cons_sep]
  have backslash : '\\' ∉ fence ++ cs ++ fence := by simpa [fence] using free
  have escapes : checkEscapes false ((Text.cut ['\\'] (fence ++ cs ++ fence)).drop 1) = .ok () := by
    rw [Text.cut_of_not_mem backslash]
    rfl
  have hex (mark : List Char) (width : Nat) : replaceHexEscapes ('\\' :: mark) width (fence ++ cs ++ fence) = .ok (fence ++ cs ++ fence) :=
    replaceHexEscapes_absent (Text.contains_of_head_not_mem backslash)
  rw [readText, pieces]
  simp only [drop_succ_cons, drop_zero, closed, escapes, hex, unescape_plain backslash, bind, Except.bind, beq_self_eq_true, if_true]
  have inner : dropEnds 1 (dropEnds 2 (fence ++ cs ++ fence)) = cs := by
    simp [fence, dropEnds, take_take]
  simpa [fence, pure, Except.pure] using congrArg String.ofList inner

theorem readText_long (filled : cs ≠ []) (starts : cs.head? ≠ some '"') (ends : cs.getLast? ≠ some '"') (free : '\\' ∉ cs)
    (apart : ¬ fence <:+: cs) : readText (fence ++ cs ++ fence) '"' = .ok (String.ofList cs) := by
  obtain ⟨c, rest, start⟩ := exists_cons_of_ne_nil filled
  have other : c ≠ '"' := by
    rintro rfl
    simp [start] at starts
  refine readText_fence (checkClosed_long filled ends free fun wrong => ?_) free
  -- a run of three cannot start with the quote before the text, which does not go on with one
  have wrong : fence <:+: '"' :: cs := wrong
  rcases infix_cons_iff.mp wrong with first | inside
  · rw [start, fence, cons_prefix_cons, cons_prefix_cons] at first
    exact other first.2.1.symm
  · exact apart inside

theorem readText_literal (filled : cs ≠ []) (quote : '"' ∉ cs) (free : '\\' ∉ cs) :
    readText (fence ++ quoted cs ++ fence) '"' = .ok (String.ofList (quoted cs)) := by
  refine readText_fence ?_ (by simpa [quoted] using free)
  obtain ⟨c, rest, rfl⟩ := exists_cons_of_ne_nil filled
  have visible : endsOdd (c :: rest) = false := endsOdd_of_last fun wrong => free (mem_of_getLast? wrong)
  have pieces : Text.cut ['"'] (quoted (c :: rest) ++ fence) = [[], c :: rest, [], [], [], []] := by
    have parts : quoted (c :: rest) ++ fence = '"' :: (c :: rest ++ '"' :: fence) := by simp [quoted]
    rw [parts, Text.cut_cons_sep, Text.cut_append_sep, Text.cut_of_not_mem quote]
    rfl
  rw [pieces]
  simp [checkClosed, visible]

theorem lower_ne (t : c.toLower ≠ 't') (f : c.toLower ≠ 'f') :
    (String.ofList ((c :: cs).map Char.toLower) == "true" || String.ofList ((c :: cs).map Char.toLower) == "false") = false := by
  have apart (word : List Char) (other : word.head? ≠ some c.toLower) : String.ofList ((c :: cs).map Char.toLower) ≠ String.ofList word := by
    intro same
    rw [String.ofList_inj] at same
    subst same
    simp at other
  have first := apart ['t', 'r', 'u', 'e'] (by simpa using Ne.symm t)
  have second := apart ['f', 'a', 'l', 's', 'e'] (by simpa using Ne.symm f)
  rw [Bool.or_eq_false_iff, beq_eq_false_iff_ne, beq_eq_false_iff_ne]
  exact ⟨first, second⟩

theorem loadValue_text {s : String} (reads : readText ('"' :: cs) '"' = .ok s) :
    loadValue (fuel + 1) ('"' :: cs) strict = .ok (.str s, .str) := by
  rw [loadValue]
  simp only [lower_ne (show '"'.toLower ≠ 't' by decide) (by decide), reads]
  rfl

end Rulewright.Toml
