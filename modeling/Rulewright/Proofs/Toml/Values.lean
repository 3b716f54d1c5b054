import Rulewright.Proofs.Toml.Parts

/-!
Values that stand after a key and are read back as they are written: texts on one line, texts over several lines without backslashes,
whole numbers, truth values and lists of texts. A text over several lines is written without the blanks around it and with a line end
after it; that much is read back exactly if no line of it ends with two equal quotes and its first line does not end with a blank.
-/

open List

namespace Rulewright.Toml

open Entry
open Scan (sign fence quoted)

def Upright (text : List Char) : Prop :=
  text.head? ≠ some '\n' ∧ '"' ∉ text ∧ '\\' ∉ text ∧ '\r' ∉ text ∨ Legible text

theorem Upright.held {text : List Char} (upright : Upright text) (filled : text ≠ []) : Held text := by
  rcases upright with ⟨first, quote, backslash, ret⟩ | legible
  · exact .of_plain filled first quote backslash ret
  · exact legible.held

inductive Plain : Value → Prop
  | text {s : String} (quotable : Quotable s.toList) : Plain (.str s)
  | lines {s : String} (several : '\n' ∈ s.toList) (free : Text.contains fence s.toList = false) (upright : Upright (trimmedText s)) :
      Plain (.str s)
  | number {n : Int} (short : (digits n).length ≤ Text.digitLimit) : Plain (.int n)
  | truth (b : Bool) : Plain (.bool b)
  | texts {items : List String} (each : ∀ s ∈ items, Listable s.toList) : Plain (.list (items.map .str))

def readBack : Value → Value
  | .str s => if '\n' ∈ s.toList then .str (String.ofList (asRead (joinLines (trimmedText s)))) else .str s
  | v => v

section Entries

variable {key s : String} {v : Value}

theorem Plain.writable (plain : Plain v) : Writable v := by
  cases plain with
  | text quotable => exact .text quotable
  | lines several free upright => exact .lines several free (upright.held (by simp [trimmedText]))
  | number short => exact .number _
  | truth b => exact .truth b
  | texts each => exact .texts each

theorem Plain.value (plain : Plain v) (key : String) : (ofValue key v).value = some (readBack v) := by
  cases plain with
  | text quotable =>
    rw [ofValue, readBack, if_neg quotable.single, if_neg quotable.single]
  | lines several =>
    rw [ofValue, readBack, if_pos several, if_pos several]
    rfl
  | number short => exact if_pos short
  | truth b => rfl
  | texts each => rfl

structure Kept (s : String) : Prop where
  lines : LinesApart (trimmedText s)
  first : asRead (trimmedText s) = trimmedText s

theorem toList_trimmed (s : String) : (Text.strip s ++ "\n").toList = trimmedText s := by simp [Text.strip, trimmedText]

theorem readBack_iff (several : '\n' ∈ s.toList) : readBack (.str s) = .str (Text.strip s ++ "\n") ↔ Kept s := by
  rw [readBack, if_pos several, Value.str.injEq, ← String.toList_inj, String.toList_ofList, toList_trimmed, asRead_joinLines_iff]
  exact ⟨fun both => ⟨both.1, both.2⟩, fun kept => ⟨kept.lines, kept.first⟩⟩

instance (s : String) : Decidable (Kept s) :=
  decidable_of_iff (asRead (joinLines (trimmedText s)) = trimmedText s)
    (asRead_joinLines_iff.trans ⟨fun both => ⟨both.1, both.2⟩, fun kept => ⟨kept.lines, kept.first⟩⟩)

end Entries

end Rulewright.Toml
