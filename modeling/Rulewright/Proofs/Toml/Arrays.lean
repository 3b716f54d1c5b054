import Rulewright.Proofs.Runs
import Rulewright.Proofs.Toml.Texts

/-!
Reading arrays of texts. An array is cut at all its commas, and pieces that are not closed are joined again. That gives the texts back,
unless one of them starts with a comma: then a quote alone is taken for a text, and an empty text is read.
-/

open List

namespace Rulewright.Toml

variable {front lead back tail piece : List Char} {items pieces texts : List (List Char)} {kind : Option ValueKind} {values : List Value}

open Scan (quoted array)

variable {text cs : List Char} {c : Char} {strict : Bool} {fuel : Nat}

def joinAt (front cs : List Char) : Except Trouble (List (List Char)) :=
  match Text.cut [','] cs with
  | [] => .ok []
  | head :: rest => joinTexts (front ++ head) rest

theorem joinAt_nil (front : List Char) : joinAt front [] = .ok [front] := by
  simp [joinAt, Text.cut, Text.pieces, joinTexts]

theorem joinAt_append (free : ',' ∉ text) : joinAt front (text ++ cs) = joinAt (front ++ text) cs := by
  obtain ⟨head, tail, cut, joined⟩ := Text.cut_append free cs
  rw [joinAt, joinAt, joined, cut]
  simp only [append_assoc]

theorem joinAt_cons (other : c ≠ ',') (cs : List Char) : joinAt front (c :: cs) = joinAt (front ++ [c]) cs := by
  have free : ',' ∉ [c] := by simpa using Ne.symm other
  exact joinAt_append free

theorem joinAt_finished (finished : isUnfinished front = false) : joinAt front (',' :: cs) = (joinAt [] cs).map (front :: ·) := by
  obtain ⟨head, tail, cut⟩ := exists_cons_of_ne_nil (Text.cut_ne_nil ',' cs)
  rw [joinAt, joinAt, Text.cut_cons_sep, cut]
  simp only [append_nil, nil_append, joinTexts, finished, Bool.false_eq_true, if_false]
  cases joinTexts head tail <;> rfl

theorem joinAt_unfinished (unfinished : isUnfinished front) (last : ',' ∉ cs → isUnfinished (front ++ ',' :: cs) = false) : joinAt front (',' :: cs) = joinAt (front ++ [',']) cs := by
  obtain ⟨head, tail, cut⟩ := exists_cons_of_ne_nil (Text.cut_ne_nil ',' cs)
  have whole : tail.isEmpty → isUnfinished (front ++ ',' :: head) = false := by
    intro none
    rw [List.isEmpty_iff] at none
    subst none
    have free : ',' ∉ cs := Text.not_mem_of_cut_singleton cut
    rw [Text.cut_of_not_mem free, List.cons.injEq] at cut
    rw [← cut.1]
    exact last free
  rw [joinAt, joinAt, Text.cut_cons_sep, cut]
  simp only [append_nil, joinTexts, unfinished, if_true, append_assoc, singleton_append]
  rw [if_neg]
  simpa using whole

def Lead (lead : List Char) : Prop := lead = [] ∨ lead = [' ']

section

variable (blank : Lead lead)
include blank

theorem Lead.trim (cs : List Char) : Text.trim (lead ++ cs) = Text.trim cs := by
  rcases blank with rfl | rfl
  · rfl
  · exact Text.trim_cons_blank rfl

theorem trim_opened (text : List Char) : Text.trim (lead ++ '"' :: text) = '"' :: Text.trimEnd text := by
  have visible : Text.isBlank '"' = false := by decide
  rw [blank.trim, Text.trim, Text.trimStart_of_head visible, ← nil_append ('"' :: text), Text.trimEnd_append visible]
  rfl

theorem trim_quoted (text : List Char) : Text.trim (lead ++ quoted text) = quoted text := by
  have ends : Text.trimEnd (text ++ ['"']) = text ++ ['"'] := Text.trimEnd_of_last (by decide)
  rw [quoted, cons_append, trim_opened blank, ends]

theorem isUnfinished_opened (quote : '"' ∉ text) (visible : Text.trimEnd text ≠ []) : isUnfinished (lead ++ '"' :: text) := by
  have other : ('"' :: Text.trimEnd text).getLast? ≠ some '"' := by
    obtain ⟨c, last⟩ : ∃ c, (Text.trimEnd text).getLast? = some c := Option.isSome_iff_exists.mp (by simpa using visible)
    have mem : c ∈ text := by
      have kept : c ∈ Text.trimEnd text := mem_of_getLast? last
      rw [Text.trimEnd, mem_reverse] at kept
      exact mem_reverse.mp ((dropWhile_sublist _).subset kept)
    rw [getLast?_cons, last]
    simp only [Option.getD_some, ne_eq, Option.some.injEq]
    rintro rfl
    exact quote mem
  simp [isUnfinished, trim_opened blank, isBounded, other]

theorem isUnfinished_bare (hidden : Text.trimEnd text = []) : isUnfinished (lead ++ '"' :: text) = false := by
  rw [isUnfinished, trim_opened blank, hidden]
  decide

theorem isUnfinished_quoted (starts : text.head? ≠ some '"') (even : endsOdd text = false) : isUnfinished (lead ++ quoted text) = false := by
  cases text with
  | nil =>
    rw [isUnfinished, trim_quoted blank]
    rfl
  | cons c rest =>
  have other : c ≠ '"' := by simpa using starts
  have inner : ((quoted (c :: rest)).drop 1).dropLast = c :: rest := by
    rw [quoted, cons_append, drop_succ_cons, drop_zero, dropLast_concat]
  have last : (quoted (c :: rest)).getLast? = some '"' := getLast?_concat
  have bounded : isBounded (quoted (c :: rest)) := by
    rw [← inner] at even
    rw [quoted, cons_append] at last even ⊢
    simp only [isBounded, last, even]
    decide
  rw [isUnfinished, trim_quoted blank, bounded]
  split
  next a b _ _ _ _ _ _ same _ =>
    -- the first two characters differ, so these are not three quotes
    rw [quoted, cons_append, cons_append, List.cons.injEq, List.cons.injEq] at same
    obtain ⟨rfl, rfl, -⟩ := same
    simp [Ne.symm other]
  next => rfl

end

structure Item (text : List Char) : Prop where
  filled : text ≠ []
  quote : '"' ∉ text
  ends : text.getLast? ≠ some '\\'

def startsWithComma (text : List Char) : Bool := (Text.trimStart text).head? == some ','

theorem visible_before_comma (starts : startsWithComma (front ++ ',' :: back) = false) : Text.trimEnd front ≠ [] := by
  intro hidden
  have blank : ∀ c ∈ front, Text.isBlank c := by
    rw [Text.trimEnd, reverse_eq_nil_iff, dropWhile_eq_nil_iff] at hidden
    exact fun c mem => hidden c (mem_reverse.mpr mem)
  rw [startsWithComma, Text.trimStart, dropWhile_append_of_pos blank] at starts
  cases starts

theorem blank_before_comma (starts : startsWithComma text) :
    ∃ front back, text = front ++ ',' :: back ∧ ∀ c ∈ front, Text.isBlank c := by
  rw [startsWithComma, Text.trimStart, beq_iff_eq, head?_eq_some_iff] at starts
  obtain ⟨back, starts⟩ := starts
  exact ⟨text.takeWhile Text.isBlank, back, by rw [← starts, takeWhile_append_dropWhile], fun c mem => mem_takeWhile_imp mem⟩

structure Joins (lead text : List Char) : Prop where
  opens : ∀ front back, text = front ++ ',' :: back → isUnfinished (lead ++ '"' :: front) = true
  closes : isUnfinished (lead ++ quoted text) = false

theorem Item.joins (blank : Lead lead) (item : Item text) (starts : startsWithComma text = false) : Joins lead text := by
  refine ⟨?_, isUnfinished_quoted blank (fun first => item.quote (mem_of_head? first)) (endsOdd_of_last item.ends)⟩
  rintro front back rfl
  have quote : '"' ∉ front := fun inside => item.quote (by simp [inside])
  exact isUnfinished_opened blank quote (visible_before_comma starts)

theorem joinAt_inside (joins : Joins lead (front ++ back)) (next : tail.head?.all (· == ',')) :
    joinAt (lead ++ '"' :: front) (back ++ '"' :: tail) = joinAt (lead ++ quoted (front ++ back)) tail := by
  induction back generalizing front with
  | nil =>
    rw [nil_append, joinAt_cons (by decide)]
    simp [quoted]
  | cons c back ih =>
    have again : front ++ c :: back = front ++ [c] ++ back := append_cons ..
    by_cases comma : c = ','
    · subst comma
      have unfinished := joins.opens front back rfl
      rw [again] at joins ⊢
      rw [cons_append, joinAt_unfinished unfinished, append_assoc]
      · exact ih joins
      · intro free
        -- nothing follows, so the item is the last piece, and it is closed
        have done : tail = [] := by
          cases tail with
          | nil => rfl
          | cons x tail =>
            have : x = ',' := by simpa using next
            subst this
            exact absurd (by simp) free
        have whole : lead ++ '"' :: front ++ ',' :: (back ++ '"' :: tail) = lead ++ quoted (front ++ [','] ++ back) := by
          simp [quoted, done]
        rw [whole]
        exact joins.closes
    · rw [again] at joins ⊢
      rw [cons_append, joinAt_cons comma, append_assoc]
      exact ih joins

def itemsText (items : List (List Char)) : List Char := [',', ' '].intercalate (items.map quoted)

theorem itemsText_cons_cons (text next : List Char) (items : List (List Char)) :
    itemsText (text :: next :: items) = quoted text ++ ',' :: ' ' :: itemsText (next :: items) := by
  simp [itemsText, intercalate_cons_cons]

theorem itemsText_cons (text : List Char) (items : List (List Char)) : ∃ tail, itemsText (text :: items) = quoted text ++ tail := by
  cases items with
  | nil => exact ⟨[], by simp [itemsText]⟩
  | cons next items => exact ⟨_, itemsText_cons_cons text next items⟩

theorem joinAt_item (joins : Joins lead text) (next : tail.head?.all (· == ',')) :
    joinAt lead (quoted text ++ tail) = joinAt (lead ++ quoted text) tail := by
  have inside : joinAt (lead ++ ['"']) (text ++ '"' :: tail) = joinAt (lead ++ quoted ([] ++ text)) tail := joinAt_inside joins next
  rw [nil_append] at inside
  rw [← inside, quoted, append_assoc, cons_append, joinAt_cons (by decide), singleton_append]

theorem joinAt_item_next (joins : Joins lead text) (cs : List Char) :
    joinAt lead (quoted text ++ ',' :: cs) = (joinAt [] cs).map ((lead ++ quoted text) :: ·) := by
  rw [joinAt_item joins rfl, joinAt_finished joins.closes]

theorem joinAt_items (blank : Lead lead) (each : ∀ other ∈ text :: items, Item other)
    (starts : ∀ other ∈ text :: items, startsWithComma other = false) :
    joinAt lead (itemsText (text :: items)) = .ok ((lead ++ quoted text) :: items.map fun text => ' ' :: quoted text) := by
  induction items generalizing lead text with
  | nil =>
    have alone : joinAt lead (quoted text ++ []) = joinAt (lead ++ quoted text) [] :=
      joinAt_item ((each text mem_cons_self).joins blank (starts text mem_cons_self)) rfl
    rw [append_nil] at alone
    rw [itemsText, map_singleton, intercalate_singleton, alone, joinAt_nil]
    rfl
  | cons next items ih =>
    rw [itemsText_cons_cons, joinAt_item_next ((each text mem_cons_self).joins blank (starts text mem_cons_self)), joinAt_cons (by decide),
      nil_append, ih (.inr rfl) (fun other mem => each other (mem_cons_of_mem _ mem)) fun other mem => starts other (mem_cons_of_mem _ mem)]
    rfl

theorem joinAt_stray (blank : Lead lead) (each : ∀ text ∈ items, Item text) (stray : ∃ text ∈ items, startsWithComma text)
    (cut : joinAt lead (itemsText items) = .ok pieces) : ∃ piece ∈ pieces, Text.trim piece = ['"'] := by
  induction items generalizing lead pieces with
  | nil => simp at stray
  | cons text items ih =>
    by_cases starts : startsWithComma text
    · -- the piece before the comma has only a quote and blanks
      obtain ⟨front, back, rfl, hidden⟩ := blank_before_comma starts
      obtain ⟨tail, whole⟩ := itemsText_cons (front ++ ',' :: back) items
      have free : ',' ∉ front := fun inside => absurd (hidden ',' inside) (by decide)
      have bare : Text.trimEnd front = [] := by
        rw [Text.trimEnd, reverse_eq_nil_iff, dropWhile_eq_nil_iff]
        exact fun c mem => hidden c (mem_reverse.mp mem)
      have opened : quoted (front ++ ',' :: back) ++ tail = '"' :: (front ++ ',' :: (back ++ ['"'] ++ tail)) := by simp [quoted]
      rw [whole, opened, joinAt_cons (by decide), joinAt_append free, append_assoc, singleton_append,
        joinAt_finished (isUnfinished_bare blank bare)] at cut
      refine ⟨lead ++ '"' :: front, ?_, by rw [trim_opened blank, bare]⟩
      cases rest : joinAt [] (back ++ ['"'] ++ tail) with
      | error e =>
        rw [rest] at cut
        cases cut
      | ok others =>
        rw [rest] at cut
        cases cut
        exact mem_cons_self
    · rw [Bool.not_eq_true] at starts
      obtain ⟨other, mem, stray⟩ := stray
      have later : other ∈ items := by
        rcases mem_cons.mp mem with rfl | later
        · rw [starts] at stray
          cases stray
        · exact later
      obtain ⟨next, items, rfl⟩ := exists_cons_of_ne_nil (ne_nil_of_mem later)
      rw [itemsText_cons_cons, joinAt_item_next ((each text mem_cons_self).joins blank starts), joinAt_cons (by decide), nil_append] at cut
      cases rest : joinAt [' '] (itemsText (next :: items)) with
      | error e =>
        rw [rest] at cut
        cases cut
      | ok others =>
        rw [rest] at cut
        cases cut
        obtain ⟨piece, mem, bare⟩ := ih (.inr rfl) (fun text mem => each text (mem_cons_of_mem _ mem)) ⟨other, later, stray⟩ rest
        exact ⟨piece, mem_cons_of_mem _ mem, bare⟩

theorem arrayPieces_texts (blank : Lead lead) (rest : List Char) :
    arrayPieces ('[' :: (lead ++ '"' :: rest) ++ [']']) = joinAt [] (lead ++ '"' :: rest) := by
  have inner : dropEnds 1 ('[' :: (lead ++ '"' :: rest) ++ [']']) = lead ++ '"' :: rest := by
    generalize lead ++ '"' :: rest = cs
    simp [dropEnds]
  have first (cs : List Char) : Text.trim (lead ++ '"' :: cs) = '"' :: Text.trimEnd cs := trim_opened blank cs
  have front : (lead ++ '"' :: rest).takeWhile (· != '[') = lead ++ '"' :: rest.takeWhile (· != '[') := by
    rcases blank with rfl | rfl <;> simp
  obtain ⟨head, pieces, cut⟩ := exists_cons_of_ne_nil (Text.cut_ne_nil ',' (lead ++ '"' :: rest))
  simp only [arrayPieces, inner, joinAt, cut, first, front, startsText]
  simp

theorem arrayPieces_cons (text : List Char) (items : List (List Char)) :
    arrayPieces (array (text :: items)) = joinAt [] (itemsText (text :: items)) := by
  obtain ⟨tail, whole⟩ := itemsText_cons text items
  obtain ⟨rest, opened⟩ : ∃ rest, itemsText (text :: items) = '"' :: rest := ⟨_, by rw [whole, quoted, cons_append, cons_append]⟩
  rw [array, ← itemsText, opened]
  exact arrayPieces_texts (.inl rfl) rest

theorem loadItems_texts {after : List (List Char)} (same : kind.all (· == .str))
    (each : List.Forall₂ (fun piece text => ∃ cs, Text.trim piece = quoted cs ∧ readText (quoted cs) '"' = .ok (String.ofList text)) pieces texts)
    (ends : ∀ fuel kind, loadItems (fuel + 2) kind after = .ok []) (enough : pieces.length + 2 ≤ fuel) :
    loadItems fuel kind (pieces ++ after) = .ok (texts.map fun text => .str (String.ofList text)) := by
  induction each generalizing kind fuel with
  | nil =>
    obtain ⟨fuel, rfl⟩ : ∃ n, fuel = n + 2 := ⟨fuel - 2, by omega⟩
    exact ends fuel kind
  | @cons piece text pieces texts first others ih =>
    obtain ⟨cs, trimmed, read⟩ := first
    rw [length_cons] at enough
    obtain ⟨fuel, rfl⟩ : ∃ n, fuel = n + 2 := ⟨fuel - 2, by omega⟩
    have value : loadValue (fuel + 1) (quoted cs) true = .ok (.str (String.ofList text), .str) := loadValue_text read
    have rest : loadItems (fuel + 1) (some .str) (pieces ++ after) = .ok (texts.map fun text => .str (String.ofList text)) := ih rfl (by omega)
    have fits : (kind.any (· != .str)) = false := by
      cases kind with
      | none => rfl
      | some k =>
        rw [Option.all_some, beq_iff_eq] at same
        subst same
        rfl
    have visible : (quoted cs).isEmpty = false := rfl
    simp only [cons_append, loadItems, trimmed, visible, value, rest, fits, bind, Except.bind, Bool.false_eq_true, if_false]
    rfl

theorem loadItems_cons_cases (read : loadItems (fuel + 1) kind (piece :: pieces) = .ok values) :
    Text.trim piece = [] ∧ loadItems fuel kind pieces = .ok values ∨
      ∃ value k rest, loadValue fuel (Text.trim piece) true = .ok (value, k) ∧ loadItems fuel (some k) pieces = .ok rest ∧ values = value :: rest := by
  rw [loadItems] at read
  by_cases bare : Text.trim piece = []
  · left
    simp only [bare, isEmpty_nil, if_true] at read
    exact ⟨bare, read⟩
  · right
    have visible : (Text.trim piece).isEmpty = false := by simpa using bare
    simp only [visible, Bool.false_eq_true, if_false] at read
    obtain ⟨⟨value, k⟩, first, read⟩ := bind_cases read
    by_cases fits : (kind.any (· != k))
    · simp only [fits, if_true] at read
      cases read
    · simp only [fits, Bool.false_eq_true, if_false] at read
      obtain ⟨rest, others, read⟩ := bind_cases read
      cases read
      exact ⟨value, k, rest, first, others, rfl⟩

theorem loadItems_stray (read : loadItems fuel kind pieces = .ok values) (inside : piece ∈ pieces)
    (bare : Text.trim piece = ['"']) : .str "" ∈ values := by
  induction pieces generalizing kind fuel values with
  | nil => cases inside
  | cons first pieces ih =>
    cases fuel with
    | zero => cases read
    | succ fuel =>
      rcases loadItems_cons_cases read with ⟨empty, read⟩ | ⟨value, k, rest, first, others, rfl⟩
      · rcases mem_cons.mp inside with rfl | later
        · rw [bare] at empty
          cases empty
        · exact ih read later
      · rcases mem_cons.mp inside with rfl | later
        · rw [bare] at first
          cases fuel with
          | zero => cases first
          | succ fuel =>
            cases first
            exact mem_cons_self
        · exact mem_cons_of_mem _ (ih others later)

theorem trim_brackets (inner : List Char) : Text.trim ('[' :: inner ++ [']']) = '[' :: inner ++ [']'] := by
  refine Text.trim_eq_self rfl ?_
  rw [getLast?_concat]
  rfl

theorem loadValue_brackets (inner : List Char) :
    loadValue (fuel + 2) ('[' :: inner ++ [']']) strict =
      (arrayPieces ('[' :: inner ++ [']']) >>= loadItems fuel none).map fun values => (.list values, .array) := by
  have whole : loadArray (fuel + 1) ('[' :: inner ++ [']']) = arrayPieces ('[' :: inner ++ [']']) >>= loadItems fuel none := by
    rw [loadArray, trim_brackets]
  rw [← whole, cons_append, loadValue]
  simp only [lower_ne (show '['.toLower ≠ 't' by decide) (by decide)]
  cases loadArray (fuel + 1) ('[' :: (inner ++ [']'])) <;> rfl

theorem loadValue_array (items : List (List Char)) :
    loadValue (fuel + 2) (array items) strict =
      (arrayPieces (array items) >>= loadItems fuel none).map fun values => (.list values, .array) := loadValue_brackets (itemsText items)

theorem loadValue_texts (each : ∀ text ∈ texts, text ≠ [] ∧ '"' ∉ text ∧ '\\' ∉ text)
    (starts : ∀ text ∈ texts, startsWithComma (escapeLines text) = false) (enough : texts.length + 4 ≤ fuel) :
    loadValue fuel (array (texts.map escapeLines)) strict = .ok (.list (texts.map fun text => .str (String.ofList text)), .array) := by
  obtain ⟨fuel, rfl⟩ : ∃ n, fuel = n + 2 := ⟨fuel - 2, by omega⟩
  rw [loadValue_array]
  cases texts with
  | nil =>
    obtain ⟨fuel, rfl⟩ : ∃ n, fuel = n + 2 := ⟨fuel - 2, by omega⟩
    rfl
  | cons text texts =>
    have item : ∀ other ∈ (text :: texts).map escapeLines, Item other := by
      intro other mem
      obtain ⟨text, present, rfl⟩ := mem_map.mp mem
      obtain ⟨filled, quote, free⟩ := each text present
      refine ⟨escapeLines_ne_nil filled, ?_, getLast?_escapeLines free⟩
      intro inside
      rcases mem_escapeLines inside with ⟨mem, -⟩ | wrong | wrong
      · exact quote mem
      all_goals exact absurd wrong (by decide)
    have calm : ∀ other ∈ (text :: texts).map escapeLines, startsWithComma other = false := by
      intro other mem
      obtain ⟨text, present, rfl⟩ := mem_map.mp mem
      exact starts text present
    rw [map_cons] at item calm ⊢
    rw [arrayPieces_cons, joinAt_items (.inl rfl) item calm]
    have values : loadItems fuel none (quoted (escapeLines text) :: (texts.map escapeLines).map fun text => ' ' :: quoted text) =
        .ok ((text :: texts).map fun text => .str (String.ofList text)) := by
      rw [← append_nil (quoted _ :: _)]
      have read : ∀ other ∈ text :: texts, readText (quoted (escapeLines other)) '"' = .ok (String.ofList other) := by
        intro other mem
        obtain ⟨filled, quote, free⟩ := each other mem
        exact readText_quoted filled quote free
      refine loadItems_texts rfl (.cons ⟨_, trim_quoted (.inl rfl) _, read text mem_cons_self⟩ ?_) (fun _ _ => rfl) ?_
      · rw [map_map, forall₂_map_left_iff, forall₂_same]
        exact fun other mem => ⟨_, trim_quoted (.inr rfl) _, read other (mem_cons_of_mem _ mem)⟩
      · simp only [length_cons, length_map] at enough ⊢
        omega
    simp only [nil_append, bind, Except.bind, values]
    rfl

theorem loadValue_stray {value : Value} {k : ValueKind} (each : ∀ text ∈ items, Item text) (stray : ∃ text ∈ items, startsWithComma text)
    (read : loadValue (fuel + 2) (array items) strict = .ok (value, k)) : ∃ values, value = .list values ∧ .str "" ∈ values := by
  obtain ⟨text, present, -⟩ := id stray
  obtain ⟨first, items, rfl⟩ := exists_cons_of_ne_nil (ne_nil_of_mem present)
  rw [loadValue_array, arrayPieces_cons] at read
  cases cut : joinAt [] (itemsText (first :: items)) with
  | error e =>
    rw [cut] at read
    cases read
  | ok pieces =>
    obtain ⟨piece, inside, bare⟩ := joinAt_stray (.inl rfl) each stray cut
    rw [cut] at read
    cases loaded : loadItems fuel none pieces with
    | error e =>
      simp only [bind, Except.bind, loaded] at read
      cases read
    | ok values =>
      simp only [bind, Except.bind, loaded] at read
      cases read
      exact ⟨values, rfl, loadItems_stray loaded inside bare⟩

end Rulewright.Toml
