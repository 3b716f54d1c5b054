import Rulewright.Proofs.Toml.Entries
import Rulewright.Toml.Writer

/-!
Texts on one line as the writer writes them: between quotes, with a backslash before each quote and each backslash inside. Printable
characters are scanned as they stand and read back, after a key and in a list. Two things go wrong: an `x` after a backslash is taken for
a number in hexadecimal digits, and two quotes in front are taken for the start of a long text.
-/

open List

namespace Rulewright.Toml

open Scan (quoted mid)

variable {text rest done mark lead : List Char} {x : Char} {long : Bool} {depth : Int}

def escapeText (text : List Char) : List Char := text.flatMap fun c => if c = '"' ∨ c = '\\' then ['\\', c] else [c]

@[simp] theorem escapeText_nil : escapeText [] = [] := rfl

theorem escapeText_special (special : x = '"' ∨ x = '\\') (text : List Char) : escapeText (x :: text) = '\\' :: x :: escapeText text := by
  simp [escapeText, special]

theorem escapeText_quote (text : List Char) : escapeText ('"' :: text) = '\\' :: '"' :: escapeText text := escapeText_special (.inl rfl) text

theorem escapeText_backslash (text : List Char) : escapeText ('\\' :: text) = '\\' :: '\\' :: escapeText text := escapeText_special (.inr rfl) text

theorem escapeText_cons (quote : x ≠ '"') (backslash : x ≠ '\\') (text : List Char) : escapeText (x :: text) = x :: escapeText text := by
  simp [escapeText, quote, backslash]

theorem escapeText_append (front back : List Char) : escapeText (front ++ back) = escapeText front ++ escapeText back := flatMap_append

@[elab_as_elim]
theorem escape_induction {P : List Char → Prop} (text : List Char) (nil : P []) (quote : ∀ text, P text → P ('"' :: text))
    (backslash : ∀ text, P text → P ('\\' :: text)) (other : ∀ c text, c ≠ '"' → c ≠ '\\' → P text → P (c :: text)) : P text := by
  induction text with
  | nil => exact nil
  | cons c text ih =>
    by_cases double : c = '"'
    · exact double ▸ quote text ih
    · by_cases escape : c = '\\'
      · exact escape ▸ backslash text ih
      · exact other c text double escape ih

theorem mem_escapeText (inside : x ∈ escapeText text) : x ∈ text ∨ x = '\\' := by
  obtain ⟨c, mem, inside⟩ := mem_flatMap.mp inside
  split at inside
  · rcases mem_cons.mp inside with rfl | inside
    · exact .inr rfl
    · exact .inl (mem_singleton.mp inside ▸ mem)
  · exact .inl (mem_singleton.mp inside ▸ mem)

theorem escapeText_ne_nil (filled : text ≠ []) : escapeText text ≠ [] := by
  obtain ⟨c, text, rfl⟩ := exists_cons_of_ne_nil filled
  simp only [escapeText, flatMap_cons]
  split <;> simp

def escapeFor (quote : Char) (text : List Char) : List Char := text.flatMap fun c => if c = quote ∨ c = '\\' then ['\\', c] else [c]

theorem escapeFor_double (text : List Char) : escapeFor '"' text = escapeText text := rfl

theorem head?_escapeFor {quote : Char} (other : quote ≠ '\\') (text : List Char) : (escapeFor quote text).head? ≠ some quote := by
  cases text with
  | nil => simp [escapeFor]
  | cons c text =>
    by_cases escape : c = quote ∨ c = '\\'
    · simpa [escapeFor, escape] using other.symm
    · simp only [escapeFor, flatMap_cons, if_neg escape, singleton_append, head?_cons, ne_eq, Option.some.injEq]
      exact (not_or.mp escape).1

theorem head?_escapeText (text : List Char) : (escapeText text).head? ≠ some '"' := @head?_escapeFor '"' (by decide) text

theorem endsOdd_concat (front : List Char) : endsOdd (front ++ ['\\']) = !endsOdd front := by
  simp only [endsOdd, reverse_append, reverse_singleton, singleton_append, beq_self_eq_true, takeWhile_cons_of_pos,
    length_cons]
  rcases Nat.mod_two_eq_zero_or_one (front.reverse.takeWhile (· == '\\')).length with even | odd
  · simp [Nat.add_mod, even]
  · simp [Nat.add_mod, odd]

theorem endsOdd_other (other : x ≠ '\\') (front : List Char) : endsOdd (front ++ [x]) = false := endsOdd_of_last (by simpa using other)

theorem endsOdd_pair (front : List Char) : endsOdd (front ++ ['\\', '\\']) = endsOdd front := by
  rw [append_cons, endsOdd_concat, endsOdd_concat, Bool.not_not]

theorem endsOdd_append_escapeText {front : List Char} (even : endsOdd front = false) : endsOdd (front ++ escapeText text) = false := by
  induction text using escape_induction generalizing front with
  | nil => simpa using even
  | quote text ih =>
    rw [escapeText_quote, append_cons, append_cons]
    exact ih (endsOdd_other (by decide) _)
  | backslash text ih =>
    rw [escapeText_backslash, append_cons, append_cons]
    exact ih (by rw [append_assoc]; exact (endsOdd_pair front).trans even)
  | other c text quote backslash ih =>
    rw [escapeText_cons quote backslash, append_cons]
    exact ih (endsOdd_other backslash _)

theorem endsOdd_escapeText (text : List Char) : endsOdd (escapeText text) = false := @endsOdd_append_escapeText text [] rfl

structure Quotable (text : List Char) : Prop where
  printable : ∀ c ∈ text, Text.isPrintable c = true
  starts : ∀ rest, text = '"' :: rest → rest ≠ [] ∧ rest.head? ≠ some '"'
  hex : Text.contains ['\\', 'x'] text = false

theorem Quotable.free (quotable : Quotable text) (other : Text.isPrintable x = false) : x ∉ text := by
  intro mem
  rw [quotable.printable x mem] at other
  cases other

theorem Quotable.single (quotable : Quotable text) : '\n' ∉ text := quotable.free (by decide +kernel)

theorem Quotable.ret (quotable : Quotable text) : '\r' ∉ text := quotable.free (by decide +kernel)

theorem Quotable.written_single (quotable : Quotable text) : '\n' ∉ escapeText text := by
  intro mem
  rcases mem_escapeText mem with mem | wrong
  · exact quotable.single mem
  · exact absurd wrong (by decide)

theorem replace_absent {old new cs : List Char} (filled : old ≠ []) (absent : Text.contains old cs = false) : Text.replace old new cs = cs := by
  rw [Text.replace, if_neg (by simpa using filled), Text.cut_of_contains absent, intercalate_singleton]

theorem replace_char (old : Char) (new cs : List Char) : Text.replace [old] new cs = cs.flatMap fun c => if c = old then new else [c] := by
  induction cs with
  | nil => exact Text.replace_nil (by simp)
  | cons c cs ih =>
    rw [flatMap_cons, ← ih]
    by_cases same : c = old
    · rw [same, if_pos rfl, ← Text.replace_append (by simp)]
      rfl
    · rw [if_neg same, Text.replace_cons (by simp) (by simpa using Ne.symm same)]
      rfl

theorem replace_single (text : List Char) :
    Text.replace ['\\', '\''] ['\''] (escapeFor '\'' text) = text.flatMap fun c => if c = '\\' then ['\\', '\\'] else [c] := by
  induction text with
  | nil => exact Text.replace_nil (by simp)
  | cons c text ih =>
    rw [flatMap_cons, ← ih]
    by_cases single : c = '\''
    · rw [single, if_neg (by decide), ← Text.replace_append (by simp)]
      rfl
    · by_cases escape : c = '\\'
      · -- the second backslash is not followed by a quote, which has one of its own
        have whole : escapeFor '\'' (c :: text) = '\\' :: '\\' :: escapeFor '\'' text := by simp [escapeFor, escape]
        have apart : ¬['\''] <+: escapeFor '\'' text := by
          rintro ⟨after, same⟩
          exact head?_escapeFor (show '\'' ≠ '\\' by decide) text (by rw [← same]; rfl)
        rw [whole, if_pos escape, Text.replace_cons (by simp) (by simp), Text.replace_cons (by simp) (by simpa using apart)]
        rfl
      · have whole : escapeFor '\'' (c :: text) = c :: escapeFor '\'' text := by simp [escapeFor, single, escape]
        rw [whole, if_neg escape, Text.replace_cons (by simp) (by simpa using fun same => absurd same.symm escape)]
        rfl

theorem quoteFor_cases (s : String) : Text.quoteFor s = '\'' ∨ Text.quoteFor s = '"' ∧ '"' ∉ s.toList := by
  unfold Text.quoteFor
  split
  next both =>
    simp only [Bool.and_eq_true, Bool.not_eq_true', contains_eq_mem, decide_eq_false_iff_not] at both
    exact .inr ⟨rfl, both.2⟩
  next => exact .inl rfl

theorem toList_quotedBody {s : String} (printable : ∀ c ∈ s.toList, Text.isPrintable c) :
    (Text.quotedBody s).toList = escapeFor (Text.quoteFor s) s.toList := by
  have each : ∀ c ∈ s.toList, (Text.escapeIn (Text.quoteFor s) c).toList = if c = Text.quoteFor s ∨ c = '\\' then ['\\', c] else [c] := by
    intro c mem
    have apart (d : Char) (other : Text.isPrintable d = false) : c ≠ d := by
      rintro rfl
      rw [printable c mem] at other
      cases other
    by_cases own : c = Text.quoteFor s ∨ c = '\\'
    · simp [Text.escapeIn, own]
    · simp [Text.escapeIn, own, apart '\n' (by decide +kernel), apart '\r' (by decide +kernel), apart '\t' (by decide +kernel), printable c mem]
  rw [Text.quotedBody, String.toList_join, flatMap_map, flatMap_congr each]
  rfl

theorem isPrefixOf_escapeText {letter : Char} (quote : letter ≠ '"') (backslash : letter ≠ '\\') (text rest : List Char) :
    [letter].isPrefixOf (escapeText text ++ rest) = [letter].isPrefixOf (text ++ rest) := by
  induction text using escape_induction with
  | nil => rfl
  | quote text => simp [escapeText_quote, List.isPrefixOf, quote, backslash]
  | backslash text => simp [escapeText_backslash, List.isPrefixOf]
  | other c text double escape => simp [escapeText_cons double escape, List.isPrefixOf]

theorem contains_escapeText {letter : Char} (quote : letter ≠ '"') (backslash : letter ≠ '\\') (text : List Char) :
    Text.contains ['\\', letter] (escapeText text) = Text.contains ['\\', letter] text := by
  have starts (text : List Char) : [letter].isPrefixOf (escapeText text) = [letter].isPrefixOf text := by
    simpa using isPrefixOf_escapeText quote backslash text []
  induction text using escape_induction with
  | nil => rfl
  | quote text ih => simp [escapeText_quote, Text.contains, List.isPrefixOf, quote, ih]
  | backslash text ih => simp [escapeText_backslash, Text.contains, List.isPrefixOf, backslash, ih, starts]
  | other c text double escape ih => simp [escapeText_cons double escape, Text.contains, List.isPrefixOf, ih, starts]

theorem quotedText_quotable {s : String} (printable : ∀ c ∈ s.toList, Text.isPrintable c)
    (hex : Text.contains ['\\', 'x'] s.toList = false) : quotedText s = .ok ("\"" ++ String.ofList (escapeText s.toList) ++ "\"") := by
  have body : (if Text.quoteFor s == '\'' then Text.replace ['"'] ['\\', '"'] (Text.replace ['\\', '\''] ['\''] (Text.quotedBody s).toList)
      else (Text.quotedBody s).toList) = escapeText s.toList := by
    rw [toList_quotedBody printable]
    rcases quoteFor_cases s with single | ⟨double, -⟩
    · rw [single, if_pos (by decide), replace_single, replace_char, flatMap_assoc]
      congr 1
      funext c
      by_cases escape : c = '\\' <;> by_cases quote : c = '"' <;> simp [escape, quote]
    · rw [double, if_neg (by decide), escapeFor_double]
  have whole : Text.contains ['\\', 'x'] (escapeText s.toList) = false := by rw [contains_escapeText (by decide) (by decide), hex]
  simp only [quotedText, body, Text.cut_of_contains whole, joinEscapes, bind, Except.bind, pure, Except.pure]

def Settles (done : List Char) : Prop :=
  ∃ n x before, done = List.replicate (2 * n) '\\' ++ x :: before ∧ x ≠ '\\' ∧ (x = '"' → ∃ y more, before = y :: more ∧ y ≠ '"')

theorem settles_cons (quote : x ≠ '"') (backslash : x ≠ '\\') : Settles (x :: done) := ⟨0, x, done, rfl, backslash, fun same => absurd same quote⟩

theorem settles_quote (apart : x ≠ '"') : Settles ('"' :: x :: done) := ⟨0, '"', x :: done, rfl, by decide, fun _ => ⟨x, done, rfl, apart⟩⟩

theorem Settles.pair (settles : Settles done) : Settles ('\\' :: '\\' :: done) := by
  obtain ⟨n, x, before, rfl, other, apart⟩ := settles
  exact ⟨n + 1, x, before, by rfl, other, apart⟩

theorem oddBackslashes_replicate {s : Scan} {ahead before : List Char} {k n : Nat} (other : x ≠ '\\') {fuel : Nat} (enough : n < fuel)
    (ends : s.done = List.replicate k '\\' ++ (List.replicate n '\\' ++ x :: before)) :
    s.oddBackslashes ahead fuel (k + 1) = (n % 2 == 1) := by
  induction n generalizing k fuel with
  | zero =>
    obtain ⟨fuel, rfl⟩ : ∃ m, fuel = m + 1 := ⟨fuel - 1, by omega⟩
    have here : s.back ahead (k + 1) = some x := by simp [Scan.back, ends]
    simp [Scan.oddBackslashes, here, other]
  | succ n ih =>
    obtain ⟨fuel, rfl⟩ : ∃ m, fuel = m + 1 := ⟨fuel - 1, by omega⟩
    have here : s.back ahead (k + 1) = some '\\' := by simp [Scan.back, ends, replicate_succ]
    have later := @ih (k + 1) fuel (by omega) (by rw [ends, replicate_succ, replicate_succ']; simp)
    rw [Scan.oddBackslashes, here, later]
    rcases Nat.mod_two_eq_zero_or_one n with even | odd
    · simp [even, Nat.add_mod]
    · simp [odd, Nat.add_mod]

theorem step_of_atQuote {inside after : Bool}
    (turns : (mid long inside depth done).atQuote '"' ('"' :: rest) = mid long after depth done) :
    (mid long inside depth done).step '"' rest = .ok (mid long after depth ('"' :: done)) := by
  simp only [mid] at turns ⊢
  simp only [Scan.step, Bool.false_and, Bool.false_eq_true, if_false, beq_self_eq_true, if_true, bind, Except.bind, turns]
  rfl

theorem step_backslashes {inside : Bool} {n : Nat} (other : x ≠ '\\') :
    (mid long inside depth (List.replicate (n + 1) '\\' ++ x :: done)).step '"' rest =
      .ok (mid long (if n % 2 = 0 then inside else !inside) depth ('"' :: (List.replicate (n + 1) '\\' ++ x :: done))) := by
  have single : (mid long inside depth (List.replicate (n + 1) '\\' ++ x :: done)).quotes ('"' :: rest) '"' = 1 := by
    simp [Scan.quotes, mid, Scan.back, replicate_succ]
  have counted : (mid long inside depth (List.replicate (n + 1) '\\' ++ x :: done)).oddBackslashes ('"' :: rest)
      (('"' :: rest).length + (mid long inside depth (List.replicate (n + 1) '\\' ++ x :: done)).done.length) 1 = ((n + 1) % 2 == 1) :=
    @oddBackslashes_replicate x _ _ done 0 (n + 1) other _ (by simp [mid]; omega) (by simp [mid])
  apply step_of_atQuote
  rcases Nat.mod_two_eq_zero_or_one n with even | odd
  · have more : (n + 1) % 2 = 1 := by omega
    simp only [Scan.atQuote, single, counted, more]
    cases inside <;> simp [mid, even]
  · have more : (n + 1) % 2 = 0 := by omega
    simp only [Scan.atQuote, single, counted, more]
    cases inside <;> simp [mid, odd]

theorem run_escapeText (plain : ∀ c ∈ text, c ≠ '\r' ∧ c ≠ '\n') (settles : Settles done) :
    (mid long true depth done).run (escapeText text ++ rest) = (mid long true depth ((escapeText text).reverse ++ done)).run rest ∧
      Settles ((escapeText text).reverse ++ done) := by
  have escape (done cs : List Char) : (mid long true depth done).run ('\\' :: cs) = (mid long true depth ('\\' :: done)).run cs :=
    Scan.run_step (Scan.step_inside (by decide))
  induction text using escape_induction generalizing done with
  | nil => exact ⟨rfl, settles⟩
  | quote text ih =>
    obtain ⟨n, x, before, rfl, other, -⟩ := settles
    have step (cs : List Char) : (mid long true depth ('\\' :: (List.replicate (2 * n) '\\' ++ x :: before))).run ('"' :: cs) =
        (mid long true depth ('"' :: '\\' :: (List.replicate (2 * n) '\\' ++ x :: before))).run cs := by
      apply Scan.run_step
      rw [← cons_append, ← replicate_succ, step_backslashes other, if_pos (by omega)]
    rw [escapeText_quote, cons_append, cons_append, escape, step]
    simpa using ih (fun c mem => plain c (mem_cons_of_mem _ mem)) (settles_quote (by decide))
  | backslash text ih =>
    rw [escapeText_backslash, cons_append, cons_append, escape, escape]
    simpa using ih (fun c mem => plain c (mem_cons_of_mem _ mem)) settles.pair
  | other c text quote backslash ih =>
    have first := plain c mem_cons_self
    have step (cs : List Char) : (mid long true depth done).run (c :: cs) = (mid long true depth (c :: done)).run cs :=
      Scan.run_step (Scan.step_inside (by simp [Scan.specialInside, first.1, first.2, quote]))
    rw [escapeText_cons quote backslash, cons_append, step]
    simpa using ih (fun c mem => plain c (mem_cons_of_mem _ mem)) (settles_cons quote backslash)

theorem Settles.step_closing (settles : Settles done) :
    (mid false true depth done).step '"' rest = .ok (mid false false depth ('"' :: done)) := by
  obtain ⟨n, x, before, rfl, other, apart⟩ := settles
  cases n with
  | zero =>
    by_cases quote : x = '"'
    · obtain ⟨y, more, rfl, different⟩ := apart quote
      subst quote
      exact Scan.step_quote_second different
    · exact Scan.step_quote quote other
  | succ n =>
    have odd : 2 * (n + 1) = (2 * n + 1) + 1 := by omega
    rw [odd, step_backslashes other, if_neg (by omega)]
    rfl

theorem Quotable.run (quotable : Quotable text) (quote : x ≠ '"') (backslash : x ≠ '\\') :
    (mid false false depth (x :: done)).run (quoted (escapeText text) ++ rest) =
      (mid false false depth ((quoted (escapeText text)).reverse ++ x :: done)).run rest := by
  have plain : ∀ c ∈ text, c ≠ '\r' ∧ c ≠ '\n' := by
    intro c mem
    refine ⟨?_, ?_⟩ <;> rintro rfl
    · exact quotable.ret mem
    · exact quotable.single mem
  have whole : quoted (escapeText text) ++ rest = '"' :: (escapeText text ++ '"' :: rest) := by simp [quoted]
  obtain ⟨inside, settles⟩ := @run_escapeText text ('"' :: rest) ('"' :: x :: done) false depth plain (settles_quote quote)
  rw [whole, Scan.run_step (Scan.step_quote quote backslash), Bool.not_false, inside, Scan.run_step settles.step_closing]
  simp [quoted]

theorem Quotable.line (quotable : Quotable text) : Line (quoted (escapeText text)) :=
  line_of_scans (fun _ _ => quotable.run (by decide) (by decide)) (head?_escapeText text) quotable.written_single

theorem checkClosed_escapeText {front : List Char} (quote : '"' ∉ front) (even : endsOdd front = false) (filled : front ≠ [] ∨ text ≠ []) :
    checkClosed false false 0 (Text.cut ['"'] (front ++ escapeText text ++ ['"'])) = .ok () := by
  induction text using escape_induction generalizing front with
  | nil =>
    rw [escapeText_nil, append_nil, Text.cut_append_sep, Text.cut_of_not_mem quote]
    simp [checkClosed, even, Text.cut, Text.pieces]
  | quote text ih =>
    have whole : front ++ escapeText ('"' :: text) ++ ['"'] = (front ++ ['\\']) ++ '"' :: ([] ++ escapeText text ++ ['"']) := by
      simp [escapeText_quote]
    have odd : endsOdd (front ++ ['\\']) := by rw [endsOdd_concat, even]; rfl
    have some : (front ++ ['\\']).isEmpty = false := by simp
    rw [whole, Text.cut_append_sep, Text.cut_of_not_mem (by simpa using quote), singleton_append, checkClosed, some, odd]
    cases text with
    | nil => rfl
    | cons d text => exact ih (by simp) rfl (.inr (by simp))
  | backslash text ih =>
    rw [escapeText_backslash, append_cons front, append_cons (front ++ _)]
    exact ih (by simpa using quote) (by rw [append_assoc]; exact (endsOdd_pair front).trans even) (.inl (by simp))
  | other c text double backslash ih =>
    rw [escapeText_cons double backslash, append_cons front]
    exact ih (by simpa using ⟨quote, Ne.symm double⟩) (endsOdd_other backslash front) (.inl (by simp))

theorem checkEscapes_second (pieces : List (List Char)) : checkEscapes true pieces = checkEscapes false (pieces.drop 1) := by
  cases pieces with
  | nil => rfl
  | cons piece pieces =>
    cases piece with
    | nil => rfl
    | cons c piece => simp [checkEscapes]

theorem checkEscapes_escapeText (free : '\\' ∉ rest) :
    checkEscapes false ((Text.cut ['\\'] (escapeText text ++ rest)).drop 1) = .ok () := by
  induction text using escape_induction with
  | nil =>
    rw [escapeText_nil, nil_append, Text.cut_of_not_mem free]
    rfl
  | quote text ih =>
    obtain ⟨head, tail, cut⟩ := exists_cons_of_ne_nil (Text.cut_ne_nil '\\' (escapeText text ++ rest))
    rw [escapeText_quote, cons_append, cons_append, Text.cut_cons_sep, Text.cut_cons (by decide), cut]
    rw [cut] at ih
    simpa [checkEscapes, escapes] using ih
  | backslash text ih =>
    change checkEscapes true _ = _
    rw [checkEscapes_second]
    exact ih
  | other c text double backslash ih =>
    rw [escapeText_cons double backslash, cons_append, Text.cut_cons backslash]
    cases cut : Text.cut ['\\'] (escapeText text ++ rest) <;> simpa [cut] using ih

theorem replaceHex_odd {width : Nat} {pieces : List (List Char)} (odd : ∀ piece ∈ pieces.dropLast, endsOdd piece) :
    replaceHex mark width true pieces = .ok (pieces.flatMap (mark ++ ·)) := by
  induction pieces with
  | nil => rfl
  | cons piece pieces ih =>
    cases pieces with
    | nil => simp [replaceHex, bind, Except.bind, pure, Except.pure]
    | cons next pieces =>
      have here : endsOdd piece := odd piece (by simp)
      have later := ih fun piece mem => odd piece (by simp [mem])
      rw [replaceHex, here, later]
      simp [bind, Except.bind, pure, Except.pure]

theorem pieces_escapeText {letter : Char} (quote : letter ≠ '"') (backslash : letter ≠ '\\') (even : endsOdd done.reverse = false) :
    (∀ piece ∈ (Text.pieces ['\\', letter] 0 done (escapeText text ++ ['"'])).dropLast, endsOdd piece) ∧
      ∀ more, text = letter :: more → ∀ piece ∈ (Text.pieces ['\\', letter] 0 [] (escapeText more ++ ['"'])).dropLast, endsOdd piece := by
  induction text using escape_induction generalizing done with
  | nil => simp [Text.pieces, List.isPrefixOf]
  | quote text ih =>
    have kept : Text.pieces ['\\', letter] 0 done (escapeText ('"' :: text) ++ ['"']) =
        Text.pieces ['\\', letter] 0 ('"' :: '\\' :: done) (escapeText text ++ ['"']) := by
      simp [escapeText_quote, Text.pieces, List.isPrefixOf, quote]
    rw [kept]
    exact ⟨(ih (by rw [reverse_cons]; exact endsOdd_other (by decide) _)).1, fun _ same => absurd (List.cons.inj same).1.symm quote⟩
  | backslash text ih =>
    refine ⟨?_, fun _ same => absurd (List.cons.inj same).1.symm backslash⟩
    by_cases follows : ∃ more, text = letter :: more
    · obtain ⟨more, rfl⟩ := follows
      -- the second backslash and the letter are taken for an escape
      have cut : Text.pieces ['\\', letter] 0 done (escapeText ('\\' :: letter :: more) ++ ['"']) =
          ('\\' :: done).reverse :: Text.pieces ['\\', letter] 0 [] (escapeText more ++ ['"']) := by
        simp [escapeText_backslash, escapeText_cons quote backslash, Text.pieces, List.isPrefixOf, backslash]
      rw [cut, dropLast_cons_of_ne_nil Text.pieces_ne_nil, forall_mem_cons]
      exact ⟨by rw [reverse_cons, endsOdd_concat, even]; rfl, (ih even).2 more rfl⟩
    · have apart : [letter].isPrefixOf (escapeText text ++ ['"']) = false := by
        rw [isPrefixOf_escapeText quote backslash]
        cases text with
        | nil => simpa [List.isPrefixOf] using quote
        | cons d text =>
          have other : letter ≠ d := fun same => follows ⟨text, by rw [same]⟩
          simpa [List.isPrefixOf] using other
      have kept : Text.pieces ['\\', letter] 0 done (escapeText ('\\' :: text) ++ ['"']) =
          Text.pieces ['\\', letter] 0 ('\\' :: '\\' :: done) (escapeText text ++ ['"']) := by
        simp [escapeText_backslash, Text.pieces, List.isPrefixOf, backslash, apart]
      rw [kept]
      exact (ih (by rw [reverse_cons, reverse_cons, append_assoc]; exact (endsOdd_pair _).trans even)).1
  | other c text double escape ih =>
    have kept : Text.pieces ['\\', letter] 0 done (escapeText (c :: text) ++ ['"']) =
        Text.pieces ['\\', letter] 0 (c :: done) (escapeText text ++ ['"']) := by
      simp [escapeText_cons double escape, Text.pieces, List.isPrefixOf, Ne.symm escape]
    rw [kept]
    refine ⟨(ih (by rw [reverse_cons]; exact endsOdd_other escape _)).1, fun more same => ?_⟩
    cases same
    exact (@ih [] rfl).1

theorem replaceHexEscapes_escapeText {letter : Char} (quote : letter ≠ '"') (backslash : letter ≠ '\\') (width : Nat) (text : List Char) :
    replaceHexEscapes ['\\', letter] width ('"' :: (escapeText text ++ ['"'])) = .ok ('"' :: (escapeText text ++ ['"'])) := by
  have cut : Text.cut ['\\', letter] ('"' :: (escapeText text ++ ['"'])) = Text.pieces ['\\', letter] 0 ['"'] (escapeText text ++ ['"']) := by
    simp [Text.cut, Text.pieces, List.isPrefixOf]
  have odd := (@pieces_escapeText text ['"'] letter quote backslash rfl).1
  have whole := @Text.intercalate_pieces_self ['\\', letter] (escapeText text ++ ['"']) ['"'] 0 (by simp)
  rw [replaceHexEscapes, cut]
  rcases pieces : Text.pieces ['\\', letter] 0 ['"'] (escapeText text ++ ['"']) with _ | ⟨front, _ | ⟨next, rest⟩⟩
  · exact absurd pieces Text.pieces_ne_nil
  · rfl
  · rw [pieces] at whole odd
    have first : endsOdd front := odd front (by simp)
    have others : replaceHex ['\\', letter] width true (next :: rest) = .ok _ := replaceHex_odd fun piece mem => odd piece (by simp [mem])
    rw [Text.intercalate_cons_flatMap] at whole
    simp only [first, others, bind, Except.bind, pure, Except.pure, whole]
    simp

theorem unescape_escapeText (free : '\\' ∉ rest) : unescape (escapeText text ++ rest) = .ok (text ++ rest) := by
  induction text using escape_induction with
  | nil => exact unescape_plain free
  | quote text ih | backslash text ih =>
    rw [escapeText_special (by decide), cons_append, cons_append, unescape, ih]
    rfl
  | other c text double backslash ih =>
    rw [escapeText_cons double backslash, cons_append, unescape_cons backslash, ih]
    rfl

theorem Quotable.reads (quotable : Quotable text) : readText (quoted (escapeText text)) '"' = .ok (String.ofList text) := by
  cases text with
  | nil => rfl
  | cons c text =>
    have closed :=
      @checkClosed_escapeText (c :: text) [] (by simp) rfl (.inr (by simp))
    obtain ⟨head, tail, opens⟩ := exists_cons_of_ne_nil (escapeText_ne_nil (cons_ne_nil c text))
    have apart : head ≠ '"' := by
      have starts := head?_escapeText (c :: text)
      rw [opens] at starts
      simpa using starts
    exact readText_of_unescape opens apart (cons_ne_nil c text) quotable.starts closed (checkEscapes_escapeText (by decide))
      (replaceHexEscapes_escapeText (by decide) (by decide) 4 _) (replaceHexEscapes_escapeText (by decide) (by decide) 8 _)
      (unescape_escapeText (by decide))

theorem escapeText_comma {front back : List Char} (cut : escapeText text = front ++ ',' :: back) :
    ∃ before after, text = before ++ ',' :: after ∧ front = escapeText before := by
  induction text using escape_induction generalizing front with
  | nil => simp at cut
  | quote text ih | backslash text ih =>
    rw [escapeText_special (by decide)] at cut
    rcases front with _ | ⟨first, _ | ⟨second, front⟩⟩
    · simp at cut
    · simp at cut
    · simp only [cons_append, List.cons.injEq] at cut
      obtain ⟨rfl, rfl, cut⟩ := cut
      obtain ⟨before, after, rfl, rfl⟩ := ih cut
      exact ⟨_ :: before, after, rfl, (escapeText_special (by decide) before).symm⟩
  | other c text quote backslash ih =>
    rw [escapeText_cons quote backslash] at cut
    cases front with
    | nil =>
      rw [nil_append, List.cons.injEq] at cut
      exact ⟨[], text, by rw [cut.1]; rfl, rfl⟩
    | cons first front =>
      rw [cons_append, List.cons.injEq] at cut
      obtain ⟨rfl, cut⟩ := cut
      obtain ⟨before, after, rfl, rfl⟩ := ih cut
      exact ⟨c :: before, after, rfl, (escapeText_cons quote backslash before).symm⟩

theorem escapeText_last (text : List Char) (last : Char) :
    ∃ front, escapeText (text ++ [last]) = front ++ [last] ∧ (last = '"' → endsOdd front) := by
  by_cases special : last = '"' ∨ last = '\\'
  · refine ⟨escapeText text ++ ['\\'], by simp [escapeText, special], fun _ => ?_⟩
    rw [endsOdd_concat, endsOdd_escapeText]
    rfl
  · exact ⟨escapeText text, by simp [escapeText, special], fun same => absurd (.inl same) special⟩

theorem isUnfinished_escapeText (blank : Lead lead) (visible : Text.trimEnd text ≠ []) :
    isUnfinished (lead ++ '"' :: escapeText text) := by
  obtain ⟨blanks, whole, hidden⟩ := Text.exists_trimEnd text
  obtain ⟨before, last, ends⟩ : ∃ before last, Text.trimEnd text = before ++ [last] := by
    rcases eq_nil_or_concat (Text.trimEnd text) with none | ⟨before, last, some⟩
    · exact absurd none visible
    · exact ⟨before, last, by rw [some, concat_eq_append]⟩
  have shown : Text.isBlank last = false := by
    rw [Bool.eq_false_iff]
    intro blank
    have same : Text.trimEnd (before ++ [last]) = before ++ [last] := by rw [← ends, Text.trimEnd_trimEnd]
    exact Text.trimEnd_concat_ne blank same
  obtain ⟨front, written, odd⟩ := escapeText_last before last
  have plain : escapeText blanks = blanks := by
    have each : ∀ c ∈ blanks, (if c = '"' ∨ c = '\\' then ['\\', c] else [c]) = [c] := by
      intro c mem
      rw [if_neg]
      rintro (rfl | rfl)
      all_goals exact absurd (hidden _ mem) (by decide)
    rw [escapeText, flatMap_congr each, flatMap_singleton']
  have bare : Text.trimEnd blanks = [] := by
    rw [Text.trimEnd, reverse_eq_nil_iff, dropWhile_eq_nil_iff]
    exact fun c mem => hidden c (mem_reverse.mp mem)
  have trimmed : Text.trimEnd (escapeText text) = front ++ [last] := by
    rw [whole, ends, escapeText_append, written, plain, append_assoc, singleton_append, Text.trimEnd_append shown, bare]
  have final : ('"' :: (front ++ [last])).getLast? = some last := by
    rw [← cons_append, getLast?_concat]
  have bounded : isBounded ('"' :: (front ++ [last])) = false := by
    rw [isBounded, final]
    by_cases double : last = '"'
    · simp [odd double]
    · simp [double]
  rw [isUnfinished, trim_opened blank, trimmed, bounded]
  rfl

theorem joins_escapeText (blank : Lead lead) (starts : startsWithComma text = false) : Joins lead (escapeText text) := by
  refine ⟨?_, ?_⟩
  · intro front back cut
    obtain ⟨before, after, rfl, rfl⟩ := escapeText_comma cut
    exact isUnfinished_escapeText blank (visible_before_comma starts)
  · exact isUnfinished_quoted blank (head?_escapeText text) (endsOdd_escapeText text)

def itemOf (text : List Char) : List Char := ' ' :: quoted (escapeText text) ++ [',']

def listOf (texts : List (List Char)) : List Char := '[' :: texts.flatMap itemOf ++ [']']

theorem run_listItems {texts : List (List Char)} (each : ∀ text ∈ texts, Quotable text) (done rest : List Char) :
    (mid false false depth done).run (texts.flatMap itemOf ++ rest) = (mid false false depth ((texts.flatMap itemOf).reverse ++ done)).run rest := by
  induction texts generalizing done with
  | nil => rfl
  | cons text texts ih =>
    have blank (cs : List Char) : (mid false false depth done).run (' ' :: cs) = (mid false false depth (' ' :: done)).run cs :=
      Scan.run_step (Scan.step_ordinary rfl rfl rfl (by decide))
    have comma (done cs : List Char) : (mid false false depth done).run (',' :: cs) = (mid false false depth (',' :: done)).run cs :=
      Scan.run_step (Scan.step_ordinary rfl rfl rfl (by decide))
    rw [flatMap_cons, itemOf, append_assoc, append_assoc, cons_append, blank,
      (each text mem_cons_self).run (by decide) (by decide), singleton_append, comma, ih fun text mem => each text (mem_cons_of_mem _ mem)]
    simp

theorem line_listOf {texts : List (List Char)} (each : ∀ text ∈ texts, Quotable text) : Line (listOf texts) := by
  refine line_brackets (fun _ _ => run_listItems each _ _) ?_ ?_
  · cases texts with
    | nil => simp [Quiet]
    | cons text texts => simp [Quiet, itemOf, quoted]
  · have free : ∀ text ∈ texts, '\n' ∉ itemOf text := by
      intro text mem
      simpa [itemOf, quoted] using (each text mem).written_single
    simpa using free

structure Listable (text : List Char) : Prop extends Quotable text where
  calm : startsWithComma text = false

theorem joinAt_listItems {texts : List (List Char)} (each : ∀ text ∈ texts, Listable text) :
    joinAt [] (texts.flatMap itemOf) = .ok (texts.map (fun text => ' ' :: quoted (escapeText text)) ++ [[]]) := by
  induction texts with
  | nil => exact joinAt_nil []
  | cons text texts ih =>
    have whole (cs : List Char) : itemOf text ++ cs = ' ' :: (quoted (escapeText text) ++ ',' :: cs) := by simp [itemOf]
    rw [flatMap_cons, whole, joinAt_cons (by decide), nil_append,
      joinAt_item_next (joins_escapeText (.inr rfl) (each text mem_cons_self).calm), ih fun text mem => each text (mem_cons_of_mem _ mem)]
    rfl

theorem loadValue_listOf {texts : List (List Char)} (each : ∀ text ∈ texts, Listable text) {fuel : Nat} (enough : texts.length + 4 ≤ fuel)
    (strict : Bool) : loadValue fuel (listOf texts) strict = .ok (.list (texts.map fun text => .str (String.ofList text)), .array) := by
  obtain ⟨fuel, rfl⟩ : ∃ n, fuel = n + 4 := ⟨fuel - 4, by omega⟩
  rw [listOf, loadValue_brackets]
  cases texts with
  | nil => rfl
  | cons text texts =>
    have pieces : arrayPieces ('[' :: (text :: texts).flatMap itemOf ++ [']']) = joinAt [] ((text :: texts).flatMap itemOf) :=
      arrayPieces_texts (.inr rfl) _
    have values : loadItems (fuel + 2) none ((text :: texts).map (fun text => ' ' :: quoted (escapeText text)) ++ [[]]) =
        .ok ((text :: texts).map fun text => .str (String.ofList text)) := by
      refine loadItems_texts rfl ?_ (fun _ _ => rfl) ?_
      · rw [forall₂_map_left_iff, forall₂_same]
        intro text mem
        exact ⟨_, trim_quoted (.inr rfl) _, (each text mem).reads⟩
      · simp only [length_cons, length_map] at enough ⊢
        omega
    rw [pieces, joinAt_listItems each]
    simp only [bind, Except.bind, values]
    rfl

theorem length_le_listOf (texts : List (List Char)) : texts.length ≤ (listOf texts).length := by
  have items : texts.length ≤ (texts.flatMap itemOf).length := by
    induction texts with
    | nil => exact Nat.le_refl _
    | cons text texts ih =>
      simp only [flatMap_cons, itemOf, length_append, length_cons]
      omega
  simp only [listOf, length_append, length_cons]
  omega

theorem writeItems_listOf {items : List String} (each : ∀ s ∈ items, Quotable s.toList) :
    ∃ text, writeItems (items.map .str) = .ok text ∧ text.toList = (items.map String.toList).flatMap itemOf := by
  induction items with
  | nil => exact ⟨"", rfl, rfl⟩
  | cons s items ih =>
    obtain ⟨text, others, same⟩ := ih fun s mem => each s (mem_cons_of_mem _ mem)
    have quotable := each s mem_cons_self
    have first : writeValue (.str s) = .ok ("\"" ++ String.ofList (escapeText s.toList) ++ "\"") := by
      rw [writeValue, writeText, if_neg (by simpa using quotable.single), quotedText_quotable quotable.printable quotable.hex]
    refine ⟨" " ++ ("\"" ++ String.ofList (escapeText s.toList) ++ "\"") ++ "," ++ text, ?_, ?_⟩
    · rw [map_cons, writeItems, first, others]
      rfl
    · simp [same, itemOf, quoted]

end Rulewright.Toml
