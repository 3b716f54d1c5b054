import Rulewright.Proofs.Toml.Texts

/-!
Reading lines: a key and a value on one line, and a long text that goes over several. A line is cut at its first equal sign; the value
goes into the table that the document is at, unless it is a long text that is still open at the end of the line. Only the first line
of a long text is trimmed, so blanks at its end are lost.
-/

open List

namespace Rulewright.Toml

open Text Entries

variable {line first last rest : List Char} {entries : Entries} {c : Char} {document : Document} {opened : Open} {r : Reading}

open Scan (sign isNameChar fence)

variable {key value text : List Char} {fuel : Nat}

structure Bare (key : List Char) : Prop where
  filled : key ≠ []
  name : ∀ c ∈ key, isNameChar c = true

theorem Bare.free (bare : Bare key) (other : isNameChar c = false) : c ∉ key := by
  intro inside
  rw [bare.name c inside] at other
  cases other

theorem visible_name (name : isNameChar c) : isBlank c = false := by
  simp only [isNameChar, Bool.and_eq_true, Bool.not_eq_true'] at name
  exact name.1.2

theorem Bare.visible (bare : Bare key) : ∀ c ∈ key, isBlank c = false := fun c mem => visible_name (bare.name c mem)

theorem quotePieces_head {front back : List Char} (double : '"' ∉ front) (single : '\'' ∉ front) (opens : back.head?.all (· == '"')) :
    ∃ pieces, quotePieces (front ++ back) = front :: pieces := by
  have whole := cut_of_not_mem single
  cases back with
  | nil =>
    rw [append_nil, quotePieces, cut_of_not_mem double]
    simp [whole]
  | cons c back =>
    have quote : c = '"' := by simpa using opens
    subst quote
    obtain ⟨second, rest, cut⟩ := exists_cons_of_ne_nil (cut_ne_nil '"' back)
    rw [quotePieces, cut_append_sep, cut_of_not_mem double, cut]
    simp [single, whole]

def Quiet (value : List Char) : Prop := '\'' ∉ value.takeWhile (· != '"')

theorem cutLine_entry (bare : Bare key) (quiet : Quiet value) :
    cutLine (key ++ sign ++ value) = .ok (key, trim value, isStrictNumber (' ' :: value)) := by
  have equals : '=' ∉ key ++ [' '] := by simpa using bare.free (by decide +kernel)
  obtain ⟨pieces, cut⟩ : ∃ pieces, quotePieces (key ++ sign ++ value) = (key ++ sign ++ value.takeWhile (· != '"')) :: pieces := by
    have parts : key ++ sign ++ value = key ++ sign ++ value.takeWhile (· != '"') ++ value.dropWhile (· != '"') := by
      rw [append_assoc _ (value.takeWhile _), takeWhile_append_dropWhile]
    rw [parts]
    apply quotePieces_head
    · simp only [mem_append, not_or]
      exact ⟨⟨bare.free (by decide +kernel), by decide⟩, fun inside => by simpa using mem_takeWhile_imp inside⟩
    · simp only [mem_append, not_or]
      exact ⟨⟨bare.free (by decide +kernel), by decide⟩, quiet⟩
    · cases rest : value.dropWhile (· != '"') with
      | nil => rfl
      | cons c back =>
        have stops := head_dropWhile_not (· != '"') (l := value) (by simp [rest])
        simpa [rest] using stops
  have first : cutsBefore ['='] false 1 (quotePieces (key ++ sign ++ value)) = 1 := by
    rw [cut, cutsBefore, contains_mem (by simp [sign])]
    rfl
  have line : key ++ sign ++ value = key ++ [' '] ++ '=' :: ' ' :: value := by simp [sign]
  have pair : cutAtMost ['='] 1 (key ++ sign ++ value) = [key ++ [' '], ' ' :: value] := by
    rw [line, cutAtMost, cutOnce_append_sep equals]
    rfl
  have trimmed : trim (key ++ [' ']) = key := by
    have whole := trim_of_visible bare.visible
    obtain ⟨c, rest, start⟩ := exists_cons_of_ne_nil bare.filled
    rw [start] at whole ⊢
    rw [trim_concat_blank (bare.visible c (by simp [start])) (by decide), whole]
  rw [cutLine, first, pair]
  have digit : Json.isDigit ' ' = false := by decide
  have cut : cutValue (key ++ sign ++ value) ((key ++ sign ++ value).length + 1) 1 (isStrictNumber (' ' :: value)) [key ++ [' '], ' ' :: value] =
      .ok ([key ++ [' '], ' ' :: value], isStrictNumber (' ' :: value)) := by
    rfl
  simp only [getLast?_cons_cons, getLast?_singleton, Option.getD_some, head?_cons, Option.any_some, digit, Bool.false_eq_true,
    if_false, cut, bind, Except.bind, dropLast_cons_cons, dropLast_singleton, intercalate_singleton, trimmed]
  rfl

theorem trim_entry (bare : Bare key) (filled : trimEnd value ≠ []) : trim (key ++ sign ++ value) = key ++ sign ++ trimEnd value := by
  obtain ⟨c, rest, start⟩ := exists_cons_of_ne_nil bare.filled
  have visible : isBlank c = false := bare.visible c (by simp [start])
  rw [trim, start, append_assoc, cons_append, trimStart_of_head visible, ← cons_append, ← append_assoc,
    trimEnd_append_of_ne_nil filled]

theorem newline_free (bare : Bare key) (free : '\n' ∉ value) : '\n' ∉ key ++ sign ++ value := by
  simp only [mem_append, not_or]
  exact ⟨⟨bare.free (by decide +kernel), by decide⟩, free⟩

theorem Bare.cons (bare : Bare key) : ∃ c rest, key = c :: rest ∧ c ≠ '"' ∧ c ≠ '\'' := by
  obtain ⟨c, rest, rfl⟩ := exists_cons_of_ne_nil bare.filled
  have other {d : Char} (special : isNameChar d = false) : c ≠ d := by
    rintro rfl
    exact bare.free special mem_cons_self
  exact ⟨c, rest, rfl, other (by decide +kernel), other (by decide +kernel)⟩

def readAll (fuel : Nat) (r : Reading) (lines : List (List Char)) : Option Reading :=
  lines.foldlM (fun r line => (r.line fuel line).toOption) r

theorem readAll_cons (r : Reading) (line : List Char) (lines : List (List Char)) :
    readAll fuel r (line :: lines) = (r.line fuel line).toOption.bind fun r => readAll fuel r lines := rfl

theorem readAll_append (r : Reading) (lines others : List (List Char)) :
    readAll fuel r (lines ++ others) = (readAll fuel r lines).bind fun r => readAll fuel r others := by
  rw [readAll, foldlM_append]
  rfl

theorem readLines_toOption (place : Nat) (r : Reading) (lines : List (List Char)) :
    (readLines fuel place r lines).toOption = readAll fuel r lines := by
  induction lines generalizing place r with
  | nil => rfl
  | cons line lines ih =>
    rw [readAll_cons, readLines]
    cases next : r.line fuel line with
    | error e => cases e <;> rfl
    | ok r => exact ih _ r

def Document.update (d : Document) (f : Value → Value) : Document := { d with root := changeAt f d.current d.root }

structure Focus where
  document : Entries → Document
  table : ∀ entries, valueAt (document entries).current (document entries).root = .dict entries
  update : ∀ {entries changed : Entries} {f : Value → Value}, f (.dict entries) = .dict changed → (document entries).update f = document changed

theorem line_entry (focus : Focus) (bare : Bare key) (content : trim line = key ++ sign ++ value) (entries : Entries) :
    (Reading.line ⟨focus.document entries, none⟩ fuel line).toOption =
      (loadLine fuel (key ++ sign ++ value) (.dict entries)).toOption.map fun read =>
        ⟨(focus.document entries).update fun _ => read.1, read.2⟩ := by
  obtain ⟨c, rest, start⟩ := exists_cons_of_ne_nil bare.filled
  have opening : c ≠ '[' := by
    rintro rfl
    exact bare.free (c := '[') (by decide +kernel) (by rw [start]; exact mem_cons_self)
  have brace : c ≠ '\x7b' := by
    rintro rfl
    exact bare.free (c := '\x7b') (by decide +kernel) (by rw [start]; exact mem_cons_self)
  have equals : (key ++ sign ++ value).contains '=' := by simp [sign]
  rw [Reading.line]
  simp only [Option.any_none, Bool.false_eq_true, if_false, content, equals, focus.table, if_true]
  split
  case h_1 empty => simp [start] at empty
  case h_2 first =>
    rw [start] at first
    exact absurd (List.cons.inj first).1 opening
  case h_3 first =>
    rw [start] at first
    exact absurd (List.cons.inj first).1 brace
  case h_4 => cases loadLine fuel (key ++ sign ++ value) (.dict entries) <;> rfl

theorem line_bare (focus : Focus) (bare : Bare key) (quiet : Quiet value) (trimmed : trim value = value)
    (content : trim line = key ++ sign ++ value) (entries : Entries) :
    (Reading.line ⟨focus.document entries, none⟩ (fuel + 1) line).toOption =
      if has (String.ofList key) entries then none else Except.toOption (do
        if ← opensText value then
          return ⟨focus.document entries, some ⟨String.ofList key, if endsOdd value then value.dropLast else value ++ ['\n'], endsOdd value⟩⟩
        else
          return ⟨focus.document (put (String.ofList key) (← loadValue fuel value (isStrictNumber (' ' :: value))).1 entries), none⟩) := by
  have dot : key.contains '.' = false := by simpa using bare.free (by decide +kernel)
  obtain ⟨c, rest, start, double, single⟩ := bare.cons
  obtain ⟨last, ends⟩ : ∃ last, key.getLast? = some last := Option.isSome_iff_exists.mp (by simpa using bare.filled)
  have named : (String.ofList key).isEmpty = false := by
    rw [start]
    simp
  have kept {table : Entries} : (focus.document entries).update (fun _ => .dict table) = focus.document table := focus.update rfl
  rw [line_entry focus bare content, loadLine, cutLine_entry bare quiet, trimmed]
  subst start
  simp only [bind, Except.bind, pure, Except.pure, dot, ends, double, single, atLevels, named, Bool.false_eq_true, if_false, beq_iff_eq,
    or_self, and_false, Bool.and_eq_true, Bool.or_eq_true]
  cases has (String.ofList (c :: rest)) entries <;> cases opensText value with
  | error e => rfl
  | ok opens =>
    cases opens with
    | true => first | rfl | exact congrArg (fun document => some (Reading.mk document _)) kept
    | false =>
      cases loadValue fuel value (isStrictNumber (' ' :: value)) <;>
        first | rfl | exact congrArg (fun document => some (Reading.mk document none)) kept

theorem line_opened (newline : '\n' ∈ opened.text) (even : opened.backslash = false) :
    Reading.line ⟨document, some opened⟩ fuel line = Reading.continue ⟨document, some opened⟩ opened fuel line := by
  have asIs : (!opened.backslash && opened.text.contains '\n') := by simp [even, newline]
  rw [Reading.line]
  simp only [Option.any_some, asIs, if_true]
  rw [even, Bool.and_false, if_neg Bool.false_ne_true]

theorem continue_middle (start : opened.text = '"' :: text) (ends : ¬ fence <:+ line)
    (even : endsOdd (opened.text ++ line) = false) :
    r.continue opened fuel line = .ok { r with opened := some { opened with text := opened.text ++ line ++ ['\n'], backslash := false } } := by
  have quotes {a b c : Char} {rest : List Char} (last : line.reverse = a :: b :: c :: rest) : (a == '"' && b == '"' && c == '"') = false := by
    rw [Bool.eq_false_iff]
    intro quotes
    simp only [Bool.and_eq_true, beq_iff_eq] at quotes
    obtain ⟨⟨rfl, rfl⟩, rfl⟩ := quotes
    apply ends
    rw [← reverse_prefix, last]
    exact ⟨rest, rfl⟩
  rw [Reading.continue]
  rw [start] at even ⊢
  rcases last : line.reverse with _ | ⟨a, _ | ⟨b, _ | ⟨c, rest⟩⟩⟩
  · simp only [even]
    rfl
  · simp only [even]
    rfl
  · simp only [even]
    rfl
  · simp only [even]
    exact if_neg (by rw [quotes last]; exact Bool.false_ne_true)

theorem continue_last (start : opened.text = '"' :: text) :
    (r.continue opened fuel (line ++ fence)).toOption =
      (loadValue fuel (opened.text ++ (line ++ fence)) true).toOption.map fun read =>
        ⟨r.document.update (·.set opened.key read.1), none⟩ := by
  have last : (line ++ fence).reverse = '"' :: '"' :: '"' :: line.reverse := by simp [fence]
  rw [Reading.continue]
  simp only [start, cons_append, last]
  cases loadValue fuel ('"' :: (text ++ (line ++ fence))) true <;> rfl

theorem readAll_rest {name : String} {lines : List (List Char)} (newline : '\n' ∈ text) (free : '\\' ∉ text)
    (plain : ∀ line ∈ lines, '\\' ∉ line ∧ ¬ fence <:+ line) :
    readAll fuel ⟨document, some ⟨name, '"' :: text, false⟩⟩ (lines ++ [last ++ fence]) =
      (loadValue fuel ('"' :: text ++ ['\n'].intercalate (lines ++ [last ++ fence])) true).toOption.map fun read =>
        ⟨document.update (·.set name read.1), none⟩ := by
  induction lines generalizing text with
  | nil =>
    have value : (Reading.continue ⟨document, some ⟨name, '"' :: text, false⟩⟩ ⟨name, '"' :: text, false⟩ fuel (last ++ fence)).toOption = _ :=
      continue_last rfl
    rw [nil_append, intercalate_singleton, readAll_cons, line_opened (mem_cons_of_mem _ newline) rfl, value]
    exact Option.bind_fun_some _
  | cons line lines ih =>
    obtain ⟨backslash, ends⟩ := plain line mem_cons_self
    have odd : endsOdd ('"' :: text ++ line) = false := by
      apply endsOdd_of_last
      intro wrong
      rcases mem_append.mp (mem_of_getLast? wrong) with mem | mem
      · rcases mem_cons.mp mem with wrong | mem
        · exact absurd wrong (by decide)
        · exact free mem
      · exact backslash mem
    have others := fun line mem => plain line (mem_cons_of_mem _ mem)
    have joined : '"' :: text ++ ['\n'].intercalate (line :: (lines ++ [last ++ fence])) =
        '"' :: (text ++ line ++ ['\n']) ++ ['\n'].intercalate (lines ++ [last ++ fence]) := by
      rw [intercalate_cons_of_ne_nil (by simp)]
      simp
    rw [cons_append, readAll_cons, line_opened (mem_cons_of_mem _ newline) rfl, continue_middle rfl ends odd, joined, ← ih _ _ others]
    · rfl
    · simp
    · simp [free, backslash]

structure Fenced (text : List Char) : Prop where
  filled : text ≠ []
  starts : text.head? ≠ some '"'
  ends : text.getLast? ≠ some '"'
  free : '\\' ∉ text
  apart : ¬ fence <:+: text

def asRead (text : List Char) : List Char :=
  if '\n' ∈ text then trimEnd (text.takeWhile (· != '\n')) ++ text.dropWhile (· != '\n') else text

theorem asRead_single (single : '\n' ∉ text) : asRead text = text := if_neg single

theorem asRead_lines (single : '\n' ∉ first) : asRead (first ++ '\n' :: rest) = trimEnd first ++ '\n' :: rest := by
  have whole : ∀ c ∈ first, (c != '\n') := by
    intro c mem
    rw [bne_iff_ne]
    rintro rfl
    exact single mem
  rw [asRead, takeWhile_append_of_pos whole, dropWhile_append_of_pos whole]
  simp

theorem fence_lines : fence <:+: first ++ '\n' :: rest ↔ fence <:+: first ∨ fence <:+: rest := by
  constructor
  · intro inside
    rcases infix_append_iff.mp inside with before | after | ⟨front, back, whole, before, after⟩
    · exact .inl before
    · rcases infix_cons_iff.mp after with here | later
      · rw [fence, cons_prefix_cons] at here
        exact absurd here.1 (by decide)
      · exact .inr later
    · cases back with
      | nil =>
        rw [append_nil] at whole
        exact .inl (whole ▸ before.isInfix)
      | cons c back =>
        rw [cons_prefix_cons] at after
        have wrong : '\n' ∈ fence := by simp [whole, after.1]
        exact absurd wrong (by decide)
  · rintro (before | after)
    · exact before.trans (prefix_append _ _).isInfix
    · exact after.trans ((suffix_cons _ _).trans (suffix_append _ _)).isInfix

theorem Fenced.asRead (fenced : Fenced text) : Fenced (asRead text) := by
  by_cases several : '\n' ∈ text
  · obtain ⟨first, rest, rfl, single⟩ := eq_append_cons_of_mem several
    obtain ⟨filled, starts, ends, free, apart⟩ := fenced
    obtain ⟨blanks, whole, -⟩ := exists_trimEnd first
    rw [asRead_lines single]
    refine ⟨by simp, ?_, ?_, ?_, ?_⟩
    · cases start : trimEnd first with
      | nil => simp
      | cons c more =>
        rw [whole, start] at starts
        simpa using starts
    · simpa using ends
    · intro inside
      apply free
      rw [whole]
      simp only [mem_append] at inside ⊢
      tauto
    · rw [fence_lines, not_or] at apart ⊢
      refine ⟨fun inside => apart.1 ?_, apart.2⟩
      rw [whole]
      exact inside.trans (prefix_append _ _).isInfix
  · rw [asRead_single several]
    exact fenced

structure Sealed (text : List Char) : Prop where
  reads : readText (fence ++ asRead text ++ fence) '"' = .ok (String.ofList (asRead text))
  free : '\\' ∉ text
  lines : '\n' ∈ text → ¬ fence <:+: text

theorem Fenced.sealed (fenced : Fenced text) : Sealed text :=
  have again := fenced.asRead
  ⟨readText_long again.filled again.starts again.ends again.free again.apart, fenced.free, fun _ => fenced.apart⟩

theorem trimEnd_fence (text : List Char) : trimEnd (fence ++ text) = fence ++ trimEnd text :=
  have kept : trimEnd (['"', '"'] ++ '"' :: text) = ['"', '"'] ++ '"' :: trimEnd text := trimEnd_append (by decide)
  kept

theorem trim_fence (text : List Char) : trim (fence ++ text) = fence ++ trimEnd text := by
  rw [← trimEnd_fence]
  rfl

theorem trim_entry_fence (bare : Bare key) (text : List Char) :
    trim (key ++ sign ++ (fence ++ text)) = key ++ sign ++ (fence ++ trimEnd text) := by
  rw [← trimEnd_fence]
  exact trim_entry bare (by rw [trimEnd_fence]; simp [fence])

theorem trimEnd_closed (text : List Char) : trimEnd (text ++ fence) = text ++ fence := by
  have ends : trimEnd (text ++ ['"', '"'] ++ ['"']) = text ++ ['"', '"'] ++ ['"'] := trimEnd_of_last (by decide)
  rwa [append_assoc] at ends

theorem quiet_fence (text : List Char) : Quiet (fence ++ text) := by simp [Quiet, fence]

theorem opensText_fence (text : List Char) :
    opensText (fence ++ text) = .ok !(decide (2 < text.length) && (text.reverse.take 3).all (· == '"')) := by
  rfl

theorem opensText_closed (text : List Char) : opensText (fence ++ text ++ fence) = .ok false := by
  rw [append_assoc, opensText_fence]
  simp [fence]

theorem opensText_open (apart : ¬ fence <:+ text) : opensText (fence ++ text) = .ok true := by
  rw [opensText_fence]
  congr 1
  rw [Bool.not_eq_true', Bool.eq_false_iff]
  intro quotes
  simp only [Bool.and_eq_true, decide_eq_true_eq, all_eq_true, beq_iff_eq] at quotes
  apply apart
  rw [← reverse_prefix]
  have three : text.reverse.take 3 = fence := by
    rw [fence, show ['"', '"', '"'] = List.replicate 3 '"' from rfl, eq_replicate_iff]
    exact ⟨by simp; omega, quotes.2⟩
  have start := take_prefix 3 text.reverse
  rw [three] at start
  exact start

theorem readAll_long_line (focus : Focus) (bare : Bare key) (closes : Sealed text) (single : '\n' ∉ text) (entries : Entries) :
    readAll (fuel + 2) ⟨focus.document entries, none⟩ (cut ['\n'] (key ++ sign ++ (fence ++ (text ++ fence)))) =
      if has (String.ofList key) entries then none
      else some ⟨focus.document (put (String.ofList key) (.str (String.ofList text)) entries), none⟩ := by
  have reads := closes.reads
  rw [asRead_single single] at reads
  have value (strict : Bool) : loadValue (fuel + 1) (fence ++ text ++ fence) strict = .ok (.str (String.ofList text), .str) := loadValue_text reads
  have closed := opensText_closed text
  rw [append_assoc] at value closed
  have trimmed : trim (fence ++ (text ++ fence)) = fence ++ (text ++ fence) := by rw [trim_fence, trimEnd_closed]
  have line : '\n' ∉ key ++ sign ++ (fence ++ (text ++ fence)) := newline_free bare (by simpa [fence] using single)
  have content : trim (key ++ sign ++ (fence ++ (text ++ fence))) = key ++ sign ++ (fence ++ (text ++ fence)) := by
    rw [trim_entry_fence bare, trimEnd_closed]
  rw [cut_of_not_mem line, readAll_cons, line_bare focus bare (quiet_fence _) trimmed content, closed]
  cases has (String.ofList key) entries with
  | true => rfl
  | false =>
    rw [value]
    rfl

theorem readAll_long_lines (focus : Focus) (bare : Bare key) (closes : Sealed (first ++ '\n' :: rest)) (single : '\n' ∉ first) (entries : Entries) :
    readAll (fuel + 2) ⟨focus.document entries, none⟩ (cut ['\n'] (key ++ sign ++ (fence ++ (first ++ '\n' :: rest ++ fence)))) =
      if has (String.ofList key) entries then none
      else some ⟨focus.document (put (String.ofList key) (.str (String.ofList (trimEnd first ++ '\n' :: rest))) entries), none⟩ := by
  obtain ⟨reads, free, apart⟩ := closes
  rw [asRead_lines single] at reads
  have value : loadValue (fuel + 2) (fence ++ (trimEnd first ++ '\n' :: rest) ++ fence) true =
      .ok (.str (String.ofList (trimEnd first ++ '\n' :: rest)), .str) := loadValue_text reads
  obtain ⟨front, back⟩ := not_or.mp (fence_lines.not.mp (apart (by simp)))
  obtain ⟨blanks, whole, -⟩ := exists_trimEnd first
  have backslash : '\\' ∉ trimEnd first := fun inside => free (by rw [whole]; simp [inside])
  -- the first line opens the text
  have even : endsOdd (fence ++ trimEnd first) = false := by
    apply endsOdd_of_last
    intro wrong
    rcases mem_append.mp (mem_of_getLast? wrong) with mem | mem
    · exact absurd mem (by decide)
    · exact backslash mem
  have trimmed : trim (fence ++ trimEnd first) = fence ++ trimEnd first := by rw [trim_fence, trimEnd_trimEnd]
  have start : trimEnd first <+: first := ⟨blanks, whole.symm⟩
  have opens := opensText_open fun suffix => front (suffix.isInfix.trans start.isInfix)
  have head : (Reading.line _ (fuel + 2) _).toOption = _ := line_bare focus bare (quiet_fence _) trimmed (trim_entry_fence bare first) entries
  rw [opens, even] at head
  -- the others go on with it, and the last one closes it
  obtain ⟨pieces, last, cut, joined⟩ := cut_append_back rest (show '\n' ∉ fence by decide)
  have plain : ∀ line ∈ pieces, '\\' ∉ line ∧ ¬ fence <:+ line := by
    intro line mem
    have inside : line <:+: rest := infix_of_mem_cut (by rw [cut]; exact mem_append_left _ mem)
    exact ⟨fun wrong => free (by simp [inside.subset wrong]), fun suffix => back (suffix.isInfix.trans inside)⟩
  have tail : readAll (fuel + 2) ⟨focus.document entries, some ⟨String.ofList key, '"' :: ('"' :: '"' :: trimEnd first ++ ['\n']), false⟩⟩ (pieces ++ [last ++ fence]) = _ :=
    readAll_rest (by simp) (by simp [backslash]) plain
  have all : '"' :: ('"' :: '"' :: trimEnd first ++ ['\n']) ++ ['\n'].intercalate (pieces ++ [last ++ fence]) =
      fence ++ (trimEnd first ++ '\n' :: rest) ++ fence := by
    rw [← joined, intercalate_cut]
    simp [fence]
  have lines : key ++ sign ++ (fence ++ (first ++ '\n' :: rest ++ fence)) = key ++ sign ++ (fence ++ first) ++ '\n' :: (rest ++ fence) := by simp
  rw [all, value] at tail
  rw [lines, cut_append_sep, cut_of_not_mem (newline_free bare (by simpa [fence] using single)), joined, singleton_append,
    readAll_cons, head]
  cases has (String.ofList key) entries with
  | true => rfl
  | false =>
    refine tail.trans ?_
    exact congrArg (fun document => some (Reading.mk document none)) (focus.update rfl)

theorem readAll_long (focus : Focus) (bare : Bare key) (closes : Sealed text) (entries : Entries) :
    readAll (fuel + 2) ⟨focus.document entries, none⟩ (cut ['\n'] (key ++ sign ++ (fence ++ (text ++ fence)))) =
      if has (String.ofList key) entries then none
      else some ⟨focus.document (put (String.ofList key) (.str (String.ofList (asRead text))) entries), none⟩ := by
  by_cases several : '\n' ∈ text
  · obtain ⟨first, rest, rfl, single⟩ := eq_append_cons_of_mem several
    rw [asRead_lines single]
    exact readAll_long_lines focus bare closes single entries
  · rw [asRead_single several]
    exact readAll_long_line focus bare closes several entries

end Rulewright.Toml
