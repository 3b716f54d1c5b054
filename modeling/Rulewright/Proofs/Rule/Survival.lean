import Rulewright.Proofs.Rule.Rereading

/-!
What comes back of the values of a rule. A long text comes back if its lines are kept, an array if none of its texts starts with a comma, and a
number if it has few enough digits. Filters come back as a set, so they could come back in each other's place; but no filter gains weight on the
way, and so each comes back as itself.
-/

open List

namespace Rulewright

open Text Value

variable {v : Value}

open Toml

namespace Value

theorem str?_eq_some {s : String} : v.str? = some s ↔ v = .str s := by cases v <;> simp [str?]

theorem int?_eq_some {n : Int} : v.int? = some n ↔ v = .int n := by cases v <;> simp [int?]

def IsShortText (v : Value) : Prop := v = .null ∨ ∃ s, v = .str s ∧ s ≠ "" ∧ ∀ c ∈ s.toList, isPlain c = true

def IsLongText (v : Value) : Prop :=
  v = .null ∨ ∃ s, v = .str s ∧ s ≠ "" ∧ (∀ c ∈ s.toList, isPlain c = true ∨ c = '\n') ∧ s.toList.head? ≠ some '\n'

def KeepsLines (v : Value) : Prop :=
  ∀ s, v = .str s → ¬ ['\'', '\'', '\n'] <:+: s.toList ∧
    ('\n' ∈ s.toList → trimEnd (s.toList.takeWhile (· != '\n')) = s.toList.takeWhile (· != '\n'))

def KeepsPlace (v : Value) : Prop := ∀ s, v = .str s → (s.toList.dropWhile (· == ' ')).head? ≠ some ','

def KeepsDigits (v : Value) : Prop := ∀ n, v = .int n → (Nat.toDigits 10 n.natAbs).length ≤ digitLimit

instance : DecidablePred IsItem := fun v =>
  decidable_of_iff (∃ s ∈ v.str?, s ≠ "" ∧ (s.toList.all fun c => isPlain c || c == '\n') = true) (by simp [str?_eq_some, IsItem])

instance : DecidablePred IsShortText := fun v =>
  decidable_of_iff (v = .null ∨ ∃ s ∈ v.str?, s ≠ "" ∧ s.toList.all isPlain = true) (by simp [str?_eq_some, IsShortText])

instance : DecidablePred IsLongText := fun v =>
  decidable_of_iff (v = .null ∨ ∃ s ∈ v.str?, s ≠ "" ∧ (s.toList.all fun c => isPlain c || c == '\n') = true ∧ s.toList.head? ≠ some '\n')
    (by simp [str?_eq_some, IsLongText])

instance : DecidablePred KeepsLines := fun v =>
  decidable_of_iff (∀ s ∈ v.str?, ¬ ['\'', '\'', '\n'] <:+: s.toList ∧
    ('\n' ∈ s.toList → trimEnd (s.toList.takeWhile (· != '\n')) = s.toList.takeWhile (· != '\n'))) (by simp [str?_eq_some, KeepsLines])

instance : DecidablePred KeepsPlace := fun v =>
  decidable_of_iff (∀ s ∈ v.str?, (s.toList.dropWhile (· == ' ')).head? ≠ some ',') (by simp [str?_eq_some, KeepsPlace])

instance : DecidablePred KeepsDigits := fun v =>
  decidable_of_iff (∀ n ∈ v.int?, (Nat.toDigits 10 n.natAbs).length ≤ digitLimit) (by simp [int?_eq_some, KeepsDigits])

theorem not_isItem_empty : ¬ (str "").IsItem := by
  rintro ⟨s, same, filled, -⟩
  rw [str.injEq] at same
  exact filled same.symm

theorem IsShortText.isShort (text : v.IsShortText) : v.IsShort ∧ v ≠ .str "" := by
  rcases text with rfl | ⟨s, rfl, filled, plain⟩
  · exact ⟨.inl rfl, by simp⟩
  · exact ⟨.inr ⟨s, rfl, plain⟩, by simpa using filled⟩

theorem shown_iff (text : v.IsShortText) : str v.shown = v ↔ v ≠ .null := by
  rcases text with rfl | ⟨s, rfl, -⟩ <;> simp [shown]

theorem IsLongText.isLong (text : v.IsLongText) : v.IsLong := by
  rcases text with rfl | ⟨s, rfl, filled, plain, first⟩
  · exact .inl rfl
  · have simple := simple_of_plain (by simpa using filled) plain
    exact .inr ⟨s, rfl, fun _ => Held.of_plain simple.filled first simple.quote simple.backslash simple.ret⟩

theorem linesApart_iff (quote : '"' ∉ text) : LinesApart text ↔ ¬ ['\'', '\'', '\n'] <:+: text := by
  constructor
  · rintro apart ⟨front, back, whole⟩
    refine apart (front ++ ['\'', '\'']) back (by simp [← whole]) (.inl ⟨front, rfl⟩)
  · rintro single front rest rfl (⟨start, rfl⟩ | ⟨start, rfl⟩)
    · exact single ⟨start, rest, by simp⟩
    · exact quote (by simp)

theorem asRead_eq_iff :
    asRead text = text ↔ ('\n' ∈ text → trimEnd (text.takeWhile (· != '\n')) = text.takeWhile (· != '\n')) := by
  by_cases several : '\n' ∈ text
  · rw [asRead, if_pos several]
    have parts : text = text.takeWhile (· != '\n') ++ text.dropWhile (· != '\n') := takeWhile_append_dropWhile.symm
    constructor
    · intro same _
      nth_rewrite 3 [parts] at same
      exact append_cancel_right same
    · intro same
      rw [same several, ← parts]
  · simp [asRead_single several, several]

theorem longField_iff (text : v.IsLongText) : (longField v).getD .null = v ↔ v.KeepsLines := by
  rcases text with rfl | ⟨s, rfl, filled, plain, first⟩
  · simp [longField, isSomething, KeepsLines]
  · have simple := simple_of_plain (by simpa using filled) plain
    have something : (str s).isSomething := by simpa [isSomething] using filled
    have same : String.ofList (asRead (joinLines s.toList)) = s ↔ asRead (joinLines s.toList) = s.toList := by
      constructor
      · intro same
        have chars := congrArg String.toList same
        rwa [String.toList_ofList] at chars
      · intro same
        rw [same, String.ofList_toList]
    rw [longField, if_pos something, Option.getD_some, shown, str.injEq, same, asRead_joinLines_iff, linesApart_iff simple.quote, asRead_eq_iff]
    simp [KeepsLines]

theorem shortField_eq (text : v.IsShortText) : (shortField v).getD .null = v := by
  rcases text with rfl | ⟨s, rfl, filled, -⟩
  · rfl
  · have something : (str s).isSomething := by simpa [isSomething] using filled
    rw [shortField, if_pos something]
    rfl

theorem startsWithComma_escapeLines (plain : ∀ c ∈ text, isPlain c ∨ c = '\n') :
    startsWithComma (escapeLines text) = ((text.dropWhile (· == ' ')).head? == some ',') := by
  induction text with
  | nil => rfl
  | cons c text ih =>
    have others := fun c mem => plain c (mem_cons_of_mem _ mem)
    by_cases newline : c = '\n'
    · subst newline
      rfl
    · rw [escapeLines_cons newline]
      by_cases blank : c = ' '
      · subst blank
        exact ih others
      · have visible : isBlank c = false := by
          have range := (plain c mem_cons_self).resolve_right newline
          simp only [isPlain, Bool.and_eq_true, decide_eq_true_eq] at range
          have other : c.toNat ≠ 32 := fun same => blank (Char.ext (UInt32.toNat_inj.mp same))
          simp only [isBlank, Bool.or_eq_false_iff, Bool.and_eq_false_iff, decide_eq_false_iff_not, beq_eq_false_iff_ne]
          omega
        rw [startsWithComma, trimStart_of_head visible, dropWhile_cons_of_neg (by simpa using blank)]
        rfl

theorem keepsPlace_iff (item : v.IsItem) : startsWithComma (escapeLines v.shown.toList) = false ↔ v.KeepsPlace := by
  obtain ⟨s, rfl, -, plain⟩ := item
  rw [shown, startsWithComma_escapeLines plain]
  simp [KeepsPlace]

variable {fuel : Nat} {items : List Value} {text : List Char} {d : Int}

section

variable (each : ∀ v ∈ items, v.IsItem)
include each

theorem itemsRead_keeps (keeps : ∀ v ∈ items, v.KeepsPlace) (enough : items.length + 3 ≤ fuel) : itemsRead fuel items = some (.list items) := by
  have simple : ∀ text ∈ items.map fun v => v.shown.toList, text ≠ [] ∧ '"' ∉ text ∧ '\\' ∉ text := by
    intro text mem
    obtain ⟨v, present, rfl⟩ := mem_map.mp mem
    have simple := (each v present).simple
    exact ⟨simple.filled, simple.quote, simple.backslash⟩
  have starts : ∀ text ∈ items.map fun v => v.shown.toList, startsWithComma (escapeLines text) = false := by
    intro text mem
    obtain ⟨v, present, rfl⟩ := mem_map.mp mem
    exact (keepsPlace_iff (each v present)).mpr (keeps v present)
  have same : (items.map fun v => v.shown.toList).map (fun text => str (String.ofList text)) = items := by
    rw [map_map]
    refine (map_congr_left fun v mem => ?_).trans (map_id items)
    obtain ⟨s, rfl, -⟩ := each v mem
    simp [shown]
  have read (strict : Bool) : loadValue (fuel + 1) (Scan.array ((items.map fun v => v.shown.toList).map escapeLines)) strict = .ok _ :=
    loadValue_texts simple starts (by rw [length_map]; omega)
  rw [itemsRead, Entry.array, read, same]
  rfl

theorem itemsRead_stray (stray : ¬ ∀ v ∈ items, v.KeepsPlace) (enough : 1 ≤ fuel) {value : Value} (read : itemsRead fuel items = some value) : ∃ values, value = .list values ∧ .str "" ∈ values := by
  obtain ⟨fuel, rfl⟩ : ∃ n, fuel = n + 1 := ⟨fuel - 1, by omega⟩
  obtain ⟨v, present, starts⟩ : ∃ v ∈ items, ¬ v.KeepsPlace := by simpa using stray
  have item : ∀ text ∈ (items.map fun v => v.shown.toList).map escapeLines, Item text := by
    intro text mem
    obtain ⟨raw, inside, rfl⟩ := mem_map.mp mem
    obtain ⟨v, present, rfl⟩ := mem_map.mp inside
    exact (each v present).simple.item
  have comma : ∃ text ∈ (items.map fun v => v.shown.toList).map escapeLines, startsWithComma text := by
    refine ⟨_, mem_map_of_mem (mem_map_of_mem present), ?_⟩
    rwa [← keepsPlace_iff (each v present), Bool.not_eq_false] at starts
  rw [itemsRead, Entry.array, Option.map_eq_some_iff] at read
  obtain ⟨⟨found, kind⟩, read, rfl⟩ := read
  exact loadValue_stray item comma (toOption_eq_some read)

theorem itemsField_keeps (keeps : ∀ v ∈ items, v.KeepsPlace) (enough : items.length + 3 ≤ fuel) :
    ∃ found, itemsField fuel items = some found ∧ found.getD (.list []) = .list items := by
  cases items with
  | nil => exact ⟨none, rfl, rfl⟩
  | cons item items => exact ⟨some (.list (item :: items)), by simp [itemsField, itemsRead_keeps each keeps enough], rfl⟩

theorem itemsField_stray (stray : ¬ ∀ v ∈ items, v.KeepsPlace) (enough : 1 ≤ fuel) {found : Option Value} (read : itemsField fuel items = some found) : ∃ values, found.getD (.list []) = .list values ∧ .str "" ∈ values := by
  cases items with
  | nil => simp at stray
  | cons item items =>
    rw [itemsField, if_neg (by simp), Option.map_eq_some_iff] at read
    obtain ⟨value, read, rfl⟩ := read
    exact itemsRead_stray each stray enough read

end

theorem boundField_value (bound : ∃ n, v = .int n) {found : Option Value} (read : boundField v (.int d) = some found) :
    found.getD (.int d) = v := by
  obtain ⟨n, rfl⟩ := bound
  have equals : (int n).equals (.int d) = decide (n = d) := rfl
  by_cases same : n = d
  · subst same
    rw [boundField, equals, if_pos (by simp)] at read
    cases read
    rfl
  · rw [boundField, equals, if_neg (by simpa using same), Entry.number, Option.map_eq_some_iff] at read
    obtain ⟨value, read, rfl⟩ := read
    split at read
    · cases read
      rfl
    · cases read

theorem boundField_iff (bound : ∃ n, v = .int n) (few : (int d).KeepsDigits) :
    (∃ found, boundField v (.int d) = some found) ↔ v.KeepsDigits := by
  obtain ⟨n, rfl⟩ := bound
  have equals : (int n).equals (.int d) = decide (n = d) := rfl
  by_cases same : n = d
  · subst same
    simp [boundField, equals, few]
  · have digits : (int n).KeepsDigits ↔ (digits n).length ≤ digitLimit := by simp [KeepsDigits, Toml.digits]
    rw [digits, boundField, equals, if_neg (by simpa using same), Entry.number]
    by_cases many : (Toml.digits n).length ≤ digitLimit <;> simp [int?, many]

def weight (v : Value) : Nat := (v.str?.map fun s => s.toList.length + s.toList.count '\n').getD 0

theorem weight_longField (text : v.IsLongText) :
    weight ((longField v).getD .null) ≤ weight v ∧ (weight ((longField v).getD .null) = weight v → (longField v).getD .null = v) := by
  rcases text with rfl | ⟨s, rfl, filled, -⟩
  · exact ⟨le_rfl, fun _ => rfl⟩
  · have something : (str s).isSomething := by simpa [isSomething] using filled
    have sub := asRead_sublist (joinLines s.toList)
    have length := sub.length_le
    have count := sub.count_le '\n'
    have lines := count_joinLines_le s.toList
    rw [length_joinLines] at length
    rw [longField, if_pos something, shown]
    simp only [weight, str?, Option.map_some, Option.getD_some, String.toList_ofList]
    refine ⟨by omega, fun same => ?_⟩
    have whole := sub.eq_of_length (by rw [length_joinLines]; omega)
    rw [whole] at same ⊢
    rw [joinLines_eq_of_count (by rw [length_joinLines] at same; omega), String.ofList_toList]

end Value

namespace Filter

structure IsPlain (f : Filter) : Prop where
  enclosing : f.enclosing.IsLongText
  notEnclosing : f.notEnclosing.IsLongText
  notContains : ∃ items, f.notContains = .list items ∧ ∀ v ∈ items, v.IsItem
  contains : f.contains.IsLongText
  bounds : ∀ v ∈ [f.atLeast, f.atMost, f.childCount, f.siblingCount], ∃ n, v = .int n

structure Survives (f : Filter) : Prop where
  enclosing : f.enclosing.KeepsLines
  notEnclosing : f.notEnclosing.KeepsLines
  notContains : ∀ v ∈ f.notContains.items, v.KeepsPlace
  contains : f.contains.KeepsLines
  bounds : ∀ v ∈ [f.atLeast, f.atMost, f.childCount, f.siblingCount], v.KeepsDigits

variable {fuel : Nat} {f f' : Filter}

theorem keepsDigits_default : (int 1).KeepsDigits ∧ (int 4294967295).KeepsDigits := by
  decide

theorem Survives.reread (survives : f.Survives) (plain : f.IsPlain) (enough : f.notContains.items.length + 3 ≤ fuel) : f.reread fuel = some f := by
  obtain ⟨items, list, each⟩ := plain.notContains
  have bounds := plain.bounds
  have digits := survives.bounds
  simp only [mem_cons, not_mem_nil, or_false, forall_eq_or_imp, forall_eq] at bounds digits
  obtain ⟨least, most, children, siblings⟩ := bounds
  have listed : f.notContains.items = items := by rw [list]; rfl
  obtain ⟨found, read, same⟩ := itemsField_keeps (listed ▸ each) survives.notContains enough
  obtain ⟨a, readLeast⟩ := (boundField_iff least keepsDigits_default.1).mpr digits.1
  obtain ⟨b, readMost⟩ := (boundField_iff most keepsDigits_default.2).mpr digits.2.1
  obtain ⟨c, readChildren⟩ := (boundField_iff children keepsDigits_default.2).mpr digits.2.2.1
  obtain ⟨d, readSiblings⟩ := (boundField_iff siblings keepsDigits_default.2).mpr digits.2.2.2
  simp only [Filter.reread, bind, Option.bind_eq_some_iff, pure, Option.some.injEq]
  refine ⟨found, read, a, readLeast, b, readMost, c, readChildren, d, readSiblings, ?_⟩
  rw [same, listed, ← list, (longField_iff plain.enclosing).mpr survives.enclosing, (longField_iff plain.notEnclosing).mpr survives.notEnclosing,
    (longField_iff plain.contains).mpr survives.contains, boundField_value least readLeast]
  have others := And.intro (boundField_value most readMost)
    (And.intro (boundField_value children readChildren) (boundField_value siblings readSiblings))
  simp only [unlimited, others]

def weight (f : Filter) : Nat := f.enclosing.weight + f.notEnclosing.weight + f.contains.weight

theorem weight_reread (plain : f.IsPlain) (read : f.reread fuel = some f') : f'.weight ≤ f.weight := by
  simp only [reread, bind, Option.bind_eq_some_iff, pure, Option.some.injEq] at read
  obtain ⟨_, -, _, -, _, -, _, -, _, -, rfl⟩ := read
  have first := (weight_longField plain.enclosing).1
  have second := (weight_longField plain.notEnclosing).1
  have third := (weight_longField plain.contains).1
  simp only [weight]
  omega

theorem survives_of_weight (plain : f.IsPlain) (enough : 1 ≤ fuel) (read : f.reread fuel = some f') (same : f'.weight = f.weight)
    (filled : str "" ∉ f'.notContains.items) : f.Survives := by
  simp only [reread, bind, Option.bind_eq_some_iff, pure, Option.some.injEq] at read
  obtain ⟨found, readItems, a, readLeast, b, readMost, c, readChildren, d, readSiblings, rfl⟩ := read
  obtain ⟨items, list, each⟩ := plain.notContains
  have listed : f.notContains.items = items := by rw [list]; rfl
  have bounds := plain.bounds
  simp only [mem_cons, not_mem_nil, or_false, forall_eq_or_imp, forall_eq] at bounds
  obtain ⟨least, most, children, siblings⟩ := bounds
  obtain ⟨le₁, eq₁⟩ := weight_longField plain.enclosing
  obtain ⟨le₂, eq₂⟩ := weight_longField plain.notEnclosing
  obtain ⟨le₃, eq₃⟩ := weight_longField plain.contains
  simp only [weight] at same
  refine ⟨?_, ?_, ?_, ?_, ?_⟩
  · exact (longField_iff plain.enclosing).mp (eq₁ (by omega))
  · exact (longField_iff plain.notEnclosing).mp (eq₂ (by omega))
  · by_contra stray
    obtain ⟨values, known, empty⟩ := itemsField_stray (listed ▸ each) stray enough readItems
    apply filled
    rw [known]
    exact empty
  · exact (longField_iff plain.contains).mp (eq₃ (by omega))
  · simp only [mem_cons, not_mem_nil, or_false, forall_eq_or_imp, forall_eq]
    exact ⟨(boundField_iff least keepsDigits_default.1).mp ⟨a, readLeast⟩, (boundField_iff most keepsDigits_default.2).mp ⟨b, readMost⟩,
      (boundField_iff children keepsDigits_default.2).mp ⟨c, readChildren⟩,
      (boundField_iff siblings keepsDigits_default.2).mp ⟨d, readSiblings⟩⟩

theorem weights_eq {R : Filter → Filter → Prop} {filters found : List Filter}
    (related : List.Forall₂ (fun f f' => R f f' ∧ f'.weight ≤ f.weight) filters found) :
    (found.map weight).sum ≤ (filters.map weight).sum ∧
      ((found.map weight).sum = (filters.map weight).sum → List.Forall₂ (fun f f' => R f f' ∧ f'.weight = f.weight) filters found) := by
  induction related with
  | nil => exact ⟨le_rfl, fun _ => .nil⟩
  | cons first others ih =>
    obtain ⟨fewer, rest⟩ := ih
    simp only [map_cons, sum_cons]
    exact ⟨by omega, fun same => .cons ⟨first.1, by omega⟩ (rest (by omega))⟩

theorem perm_iff {filters : List Filter} (plain : ∀ f ∈ filters, f.IsPlain) (enough : ∀ f ∈ filters, f.notContains.items.length + 3 ≤ fuel) :
    (∃ found, filters.mapM (Filter.reread fuel) = some found ∧ found.Perm filters) ↔ ∀ f ∈ filters, f.Survives := by
  constructor
  · rintro ⟨found, read, perm⟩ f present
    have lighter : List.Forall₂ (fun f f' => f.reread fuel = some f' ∧ f'.weight ≤ f.weight) filters found :=
      forall₂_imp_mem (mapM_some_iff.mp read) fun f present _ read => ⟨read, weight_reread (plain f present) read⟩
    have same := (weights_eq lighter).2 (perm.map weight).sum_eq
    obtain ⟨f', present', read, weight⟩ := forall₂_mem_left same present
    have known : f' ∈ filters := perm.mem_iff.mp present'
    obtain ⟨items, list, filled⟩ := (plain f' known).notContains
    refine survives_of_weight (plain f present) (by have := enough f present; omega) read weight ?_
    rw [list]
    exact fun empty => not_isItem_empty (filled _ empty)
  · intro survives
    refine ⟨filters, mapM_some_iff.mpr ?_, .refl _⟩
    rw [forall₂_same]
    exact fun f present => (survives f present).reread (plain f present) (enough f present)

end Filter
end Rulewright
