import Rulewright.Proofs.Toml.Texts

/-!
Reading whole numbers. A number is read back from its digits, unless there are too many of them.
-/

open List

namespace Rulewright.Toml

open Text

variable {cs v : List Char} {c x : Char} {fuel : Nat} {n : Int}

def digits (n : Int) : List Char := Nat.toDigits 10 n.natAbs

def numeral (n : Int) : List Char := (if n < 0 then ['-'] else []) ++ digits n

theorem toList_toString_int (n : Int) : (toString n).toList = numeral n := by
  cases n with
  | ofNat n =>
    have plain : toString (Int.ofNat n) = Nat.repr n := rfl
    rw [plain]
    simp [numeral, digits]
  | negSucc n =>
    have signed : toString (Int.negSucc n) = "-" ++ Nat.repr (n + 1) := rfl
    rw [signed, numeral]
    simp [digits]

theorem isDigit_digits (inside : c ∈ digits n) : c.isDigit := Nat.isDigit_of_mem_toDigits (by decide) (by decide) inside

theorem digits_free (other : x.isDigit = false) : x ∉ digits n := by
  intro inside
  rw [isDigit_digits inside] at other
  cases other

theorem numeral_free (other : x.isDigit = false) (sign : x ≠ '-') : x ∉ numeral n := by
  rw [numeral, mem_append, not_or]
  refine ⟨?_, digits_free other⟩
  split <;> simp [sign]

theorem head?_toDigits {n : Nat} (positive : 0 < n) : (Nat.toDigits 10 n).head? ≠ some '0' := by
  induction n using Nat.strong_induction_on with | _ n ih => ?_
  by_cases small : n < 10
  · interval_cases n <;> decide
  · rw [Nat.toDigits_of_base_le (by decide) (by omega), head?_append]
    have first := ih (n / 10) (by omega) (by omega)
    cases start : (Nat.toDigits 10 (n / 10)).head? with
    | none => exact absurd (head?_eq_none_iff.mp start) Nat.toDigits_ne_nil
    | some c =>
      rw [start] at first
      exact first

theorem digits_cases (n : Int) : n = 0 ∧ digits n = ['0'] ∨ ∃ first rest, digits n = first :: rest ∧ first ≠ '0' := by
  by_cases zero : n = 0
  · exact .inl ⟨zero, by rw [zero]; rfl⟩
  · obtain ⟨first, rest, start⟩ := exists_cons_of_ne_nil (show digits n ≠ [] from Nat.toDigits_ne_nil)
    refine .inr ⟨first, rest, start, ?_⟩
    rintro rfl
    have head := head?_toDigits (Int.natAbs_pos.mpr zero)
    rw [← digits, start] at head
    exact head rfl

theorem clockParts?_none (free : ':' ∉ cs) : clockParts? cs = none := by
  rw [clockParts?.eq_def]
  split
  · simp at free
  · rfl

theorem readDay_none (point : '.' ∉ cs) (dash : '-' ∉ cs.drop 1) : readDay cs = .ok none := by
  have none : ((cs.drop 19).head? == some '.') = false := by
    rw [beq_eq_false_iff_ne]
    intro wrong
    exact point (mem_of_mem_drop (mem_of_mem_head? wrong))
  obtain ⟨⟨micro, ahead⟩, exact⟩ : ∃ r, precision cs = .ok r := by
    by_cases short : cs.length ≤ 19
    · exact ⟨_, by rw [precision, if_pos short]⟩
    · exact ⟨_, by simp only [precision, if_neg short, none]; rfl⟩
  have free : (cs.drop 1).contains '-' = false := by simpa using dash
  rw [readDay, exact]
  simp only [bind, Except.bind, free, Bool.not_false, if_true]
  rfl

theorem digit_bounds (digit : c.isDigit) : '0' ≤ c ∧ c ≤ '9' ∧ 48 ≤ c.toNat ∧ c.toNat ≤ 57 := by
  simp only [Char.isDigit, Bool.and_eq_true, decide_eq_true_eq] at digit
  exact ⟨digit.1, digit.2, digit.1, digit.2⟩

theorem digitIn?_ten (digit : c.isDigit) : digitIn? 10 c = some (c.toNat - '0'.toNat) := by
  obtain ⟨low, high, low', high'⟩ := digit_bounds digit
  have small : c.toNat - 48 < 10 := by omega
  simp [digitIn?, Json.hexDigit?, low, high, small]

theorem digitsIn?_ten (n : Int) : digitsIn? 10 (digits n) = some n.natAbs := by
  have filled : (digits n).isEmpty = false := by
    rw [isEmpty_eq_false_iff]
    exact Nat.toDigits_ne_nil
  have each (cs : List Char) (all : ∀ c ∈ cs, c.isDigit) : cs.mapM (digitIn? 10) = some (cs.map fun c => c.toNat - '0'.toNat) := by
    induction cs with
    | nil => rfl
    | cons c cs ih =>
      rw [mapM_cons, digitIn?_ten (all c mem_cons_self), ih fun c mem => all c (mem_cons_of_mem _ mem)]
      rfl
  have value := @Nat.ofDigitChars_ten_toDigits n.natAbs
  simp only [Nat.ofDigitChars_eq_foldl, Nat.mul_comm 10] at value
  simp only [digitsIn?, filled, each _ fun c mem => isDigit_digits mem, foldl_map, Bool.false_eq_true, if_false, Option.map_some]
  rw [digits, value]

theorem plainNumber_digits (n : Int) : plainNumber (digits n) = digits n := by
  have plain : (digits n).map plainDigit = digits n := by
    have same : ∀ c ∈ digits n, plainDigit c = id c := by
      intro c mem
      obtain ⟨-, -, -, high⟩ := digit_bounds (isDigit_digits mem)
      rw [plainDigit, if_pos (by omega), id]
    rw [map_congr_left same, map_id]
  have visible (cs : List Char) (each : ∀ c ∈ cs, c.isDigit) : cs.dropWhile Text.isNumberBlank = cs := by
    cases cs with
    | nil => rfl
    | cons c cs =>
      have shown : ¬ Text.isNumberBlank c := by
        obtain ⟨-, -, low, -⟩ := digit_bounds (each c mem_cons_self)
        simp only [Text.isNumberBlank, Bool.or_eq_true, beq_iff_eq, Bool.and_eq_true, decide_eq_true_eq, not_or, not_and, Nat.not_le]
        exact ⟨by rintro rfl; exact absurd low (by decide), by omega⟩
      rw [dropWhile_cons_of_neg shown]
  rw [plainNumber, plain, visible _ fun c mem => isDigit_digits mem, visible _ fun c mem => isDigit_digits (mem_reverse.mp mem),
    reverse_reverse]

theorem readInt?_digits (n : Int) : readInt? (digits n) = if (digits n).length ≤ Text.digitLimit then some (n.natAbs : Int) else none := by
  rcases digits_cases n with ⟨rfl, zero⟩ | ⟨first, rest, start, other⟩
  · rfl
  · have digit : first.isDigit := isDigit_digits (n := n) (by simp [start])
    have minus : first ≠ '-' := by rintro rfl; cases digit
    have plus : first ≠ '+' := by rintro rfl; cases digit
    have value := digitsIn?_ten n
    have unsigned : ((first :: rest).head? == some '-') = false := by simpa using minus
    have bare : ((first :: rest).head? == some '+') = false := by simpa using plus
    rw [readInt?, plainNumber_digits]
    rw [start] at value ⊢
    simp only [unsigned, bare, Bool.or_self, Bool.false_eq_true, if_false]
    split
    all_goals try exact absurd (List.cons.inj ‹first :: rest = _›).1 other
    rw [value]
    by_cases many : Text.digitLimit < (first :: rest).length
    · rw [if_pos many, if_neg (Nat.not_le.mpr many)]
      rfl
    · rw [if_neg many, if_pos (Nat.not_lt.mp many)]
      rfl

theorem numeral_cases (n : Int) : n < 0 ∧ numeral n = '-' :: digits n ∨ 0 ≤ n ∧ numeral n = digits n := by
  by_cases negative : n < 0
  · exact .inl ⟨negative, by rw [numeral, if_pos negative, singleton_append]⟩
  · exact .inr ⟨by omega, by rw [numeral, if_neg negative, nil_append]⟩

theorem digits_start (n : Int) : ∃ first rest, digits n = first :: rest ∧ first.isDigit := by
  obtain ⟨first, rest, start⟩ := exists_cons_of_ne_nil (show digits n ≠ [] from Nat.toDigits_ne_nil)
  exact ⟨first, rest, start, isDigit_digits (n := n) (by simp [start])⟩

theorem toLower_digit (digit : c.isDigit) : c.toLower = c := by
  obtain ⟨-, -, -, high⟩ := digit_bounds digit
  rw [Char.toLower, dif_neg]
  rintro ⟨letter, -⟩
  have letter : 65 ≤ c.toNat := letter
  omega

theorem readNumber_digits (body : (if v.head? == some '-' || v.head? == some '+' then v.drop 1 else v) = digits n) :
    (readNumber v true).toOption = (readInt? (digits n)).map fun m => (.int (if v.head? == some '-' then -m else m), .int) := by
  obtain ⟨first, rest, start, digit⟩ := digits_start n
  have grouped : (digits n).filter (· != '_') = digits n := by
    rw [filter_eq_self]
    intro c mem
    rw [bne_iff_ne]
    rintro rfl
    exact digits_free (by decide) mem
  have whole (x : Char) (other : x.isDigit = false) : (digits n).contains x = false := by
    rw [contains_eq_mem, decide_eq_false_iff_not]
    exact digits_free other
  have named (word : List Char) (letter : word.head?.all (!·.isDigit)) : String.ofList ((digits n).map Char.toLower) ≠ String.ofList word := by
    intro same
    rw [String.ofList_inj, start] at same
    subst same
    simp [toLower_digit digit, digit] at letter
  have infinite := beq_eq_false_iff_ne.mpr (named ['i', 'n', 'f'] (by decide))
  have undefined := beq_eq_false_iff_ne.mpr (named ['n', 'a', 'n'] (by decide))
  rw [readNumber]
  simp only [body, grouped, whole '.' (by decide), whole 'x' (by decide), whole 'e' (by decide), whole 'E' (by decide), infinite, undefined]
  cases readInt? (digits n) <;> rfl

theorem readNumber_numeral (n : Int) :
    (readNumber (numeral n) true).toOption = if (digits n).length ≤ Text.digitLimit then some (.int n, .int) else none := by
  have value : (readNumber (numeral n) true).toOption = (readInt? (digits n)).map fun m => (.int (if n < 0 then -m else m), .int) := by
    obtain ⟨first, rest, start, digit⟩ := digits_start n
    have minus : first ≠ '-' := by rintro rfl; cases digit
    have plus : first ≠ '+' := by rintro rfl; cases digit
    rcases numeral_cases n with ⟨negative, written⟩ | ⟨positive, written⟩
    · rw [written, readNumber_digits (n := n) rfl]
      simp [negative]
    · have unsigned : ((digits n).head? == some '-') = false := by simpa [start] using minus
      have bare : ((digits n).head? == some '+') = false := by simpa [start] using plus
      rw [written, readNumber_digits (n := n) (by simp [unsigned, bare])]
      simp [unsigned, Int.not_lt.mpr positive]
  have same : (if n < 0 then -(n.natAbs : Int) else n.natAbs) = n := by
    split <;> omega
  rw [value, readInt?_digits]
  by_cases few : (digits n).length ≤ Text.digitLimit
  · rw [if_pos few, if_pos few, Option.map_some, same]
  · rw [if_neg few, if_neg few, Option.map_none]

theorem visible_digit (digit : c.isDigit) : isBlank c = false := by
  obtain ⟨-, -, low, high⟩ := digit_bounds digit
  simp only [isBlank, Bool.or_eq_false_iff, Bool.and_eq_false_iff, decide_eq_false_iff_not, beq_eq_false_iff_ne]
  omega

theorem visible_numeral (n : Int) : ∀ c ∈ numeral n, isBlank c = false := by
  intro c mem
  rcases numeral_cases n with ⟨-, written⟩ | ⟨-, written⟩ <;> rw [written] at mem
  · rcases mem_cons.mp mem with rfl | mem
    · decide
    · exact visible_digit (isDigit_digits mem)
  · exact visible_digit (isDigit_digits mem)

theorem isStrictNumber_numeral (n : Int) : isStrictNumber (' ' :: numeral n) := by
  have line : '_' ∉ numeral n := numeral_free (by decide) (by decide)
  have point : '.' ∉ numeral n := numeral_free (by decide) (by decide)
  have trimmed : trim (' ' :: numeral n) = numeral n := by
    rw [trim_cons_blank (by decide), trim_of_visible (visible_numeral n)]
  have last (front cs : List Char) (suffix : front ++ cs = numeral n) : ¬ cs.getLast? = some '_' :=
    fun wrong => line (suffix ▸ mem_append_right _ (mem_of_getLast? wrong))
  rw [isStrictNumber, trimmed]
  rcases numeral_cases n with ⟨negative, written⟩ | ⟨positive, written⟩
  · rcases digits_cases n with ⟨rfl, -⟩ | ⟨first, rest, start, other⟩
    · exact absurd negative (by decide)
    · have tail := last ['-'] (first :: rest) (by rw [written, start, singleton_append])
      have inner : '_' ∉ first :: rest := fun inside => line (by simp [written, start, inside])
      rw [written, start] at line point ⊢
      simp [contains_of_head_not_mem line, contains_of_head_not_mem point, contains_of_head_not_mem inner, tail, other]
  · rcases digits_cases n with ⟨-, zero⟩ | ⟨first, rest, start, other⟩
    · rw [written, zero]
      decide
    · have digit : first.isDigit := isDigit_digits (n := n) (by simp [start])
      have minus : first ≠ '-' := by rintro rfl; cases digit
      have plus : first ≠ '+' := by rintro rfl; cases digit
      have under : first ≠ '_' := by rintro rfl; cases digit
      cases rest with
      | nil => simp [written, start, under]
      | cons second rest =>
        have tail := last [first] (second :: rest) (by rw [written, start, singleton_append])
        rw [written, start] at line point ⊢
        simp [contains_of_head_not_mem line, contains_of_head_not_mem point, tail, other, under, minus, plus]

theorem loadValue_numeral (n : Int) :
    (loadValue (fuel + 1) (numeral n) true).toOption = if (digits n).length ≤ Text.digitLimit then some (.int n, .int) else none := by
  have clock : clockParts? (numeral n) = none := clockParts?_none (numeral_free (by decide) (by decide))
  have dash : '-' ∉ (numeral n).drop 1 := by
    intro inside
    rcases numeral_cases n with ⟨-, written⟩ | ⟨-, written⟩ <;> rw [written] at inside
    · exact digits_free (by decide) inside
    · exact digits_free (by decide) (mem_of_mem_drop inside)
  have day : readDay (numeral n) = .ok none := readDay_none (numeral_free (by decide) (by decide)) dash
  obtain ⟨first, rest, start, sign⟩ : ∃ first rest, numeral n = first :: rest ∧ (first = '-' ∨ first.isDigit) := by
    rcases numeral_cases n with ⟨-, written⟩ | ⟨-, written⟩
    · exact ⟨'-', digits n, written, .inl rfl⟩
    · obtain ⟨first, rest, start, digit⟩ := digits_start n
      exact ⟨first, rest, written.trans start, .inr digit⟩
  have lower : first.toLower = first := by
    rcases sign with rfl | digit
    · rfl
    · exact toLower_digit digit
  have other (x : Char) (letter : x.isDigit = false) (dash : x ≠ '-') : first ≠ x := by
    rintro rfl
    rcases sign with rfl | digit
    · exact dash rfl
    · rw [digit] at letter
      cases letter
  have word := @lower_ne rest first (by rw [lower]; exact other 't' (by decide) (by decide))
    (by rw [lower]; exact other 'f' (by decide) (by decide))
  rw [← readNumber_numeral]
  rw [start] at clock day ⊢
  rw [loadValue]
  simp only [word, clock, day, liftTime, bind, Except.bind, beq_eq_false_iff_ne.mpr (other '"' (by decide) (by decide)),
    beq_eq_false_iff_ne.mpr (other '\'' (by decide) (by decide)), beq_eq_false_iff_ne.mpr (other '[' (by decide) (by decide)),
    beq_eq_false_iff_ne.mpr (other '\x7b' (by decide) (by decide)), Bool.or_self, Bool.false_eq_true, if_false]

end Rulewright.Toml
