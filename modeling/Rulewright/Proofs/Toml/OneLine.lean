import Rulewright.Proofs.Rule.Printing
import Rulewright.Proofs.Toml.Quoting

/-!
Texts on one line without backslashes. Of the escapes only those of quotes are left.
-/

namespace Rulewright.Toml

open Scan (quoted)

variable {text : List Char} {x c : Char}

structure OneLine (text : List Char) : Prop where
  plain : ∀ c ∈ text, isPlain c = true ∨ c = '"'
  starts : text.head? ≠ some '"'

theorem OneLine.free (one : OneLine text) (other : isPlain x = false) (quote : x ≠ '"') : x ∉ text := by
  intro mem
  rcases one.plain x mem with plain | same
  · rw [other] at plain
    cases plain
  · exact quote same

theorem OneLine.backslash (one : OneLine text) : '\\' ∉ text := one.free (by decide) (by decide)

theorem OneLine.single (one : OneLine text) : '\n' ∉ text := one.free (by decide) (by decide)

theorem ascii_forall {P : Char → Prop} (each : ∀ n < 0x80, P (Char.ofNat n)) (ascii : c.toNat < 0x80) : P c := by
  rw [← Char.ofNat_toNat c]
  exact each c.toNat ascii

theorem printable_of_plain (plain : isPlain c) : Text.isPrintable c := by
  have ascii : c.toNat < 0x80 := by
    simp only [isPlain, Bool.and_eq_true, decide_eq_true_eq] at plain
    omega
  exact ascii_forall (P := fun c => isPlain c → Text.isPrintable c) (by decide +kernel) ascii plain

theorem OneLine.quotable (one : OneLine text) : Quotable text := by
  refine ⟨?_, ?_, Text.contains_of_head_not_mem one.backslash⟩
  · intro c mem
    rcases one.plain c mem with plain | rfl
    · exact printable_of_plain plain
    · decide +kernel
  · rintro rest rfl
    exact absurd rfl one.starts

end Rulewright.Toml
