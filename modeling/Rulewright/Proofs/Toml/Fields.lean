import Rulewright.Proofs.Toml.OneLine

/-!
Fields of a table as the writer writes them: a text on one line or over several, a number, a truth value, a list of texts. Each is an
entry that can be read wherever it stands, unless its key is there already.
-/

open List

namespace Rulewright.Toml

open Entry
open Scan (sign fence quoted mid special isNameChar)

variable {key text value : List Char} {fuel : Nat}

def isKeyChar (c : Char) : Bool := decide (c.toNat < 0x80) && (c.isAlphanum || c == '_')

def isKey (key : String) : Bool := !key.toList.isEmpty && key.toList.all isKeyChar

theorem name_of_keyChar {c : Char} (good : isKeyChar c) : isNameChar c := by
  have ascii : c.toNat < 0x80 := by
    simp only [isKeyChar, Bool.and_eq_true, decide_eq_true_eq] at good
    exact good.1
  exact ascii_forall (P := fun c => isKeyChar c → isNameChar c) (by decide +kernel) ascii good

theorem bare_of_isKey {key : String} (good : isKey key) : Bare key.toList := by
  simp only [isKey, Bool.and_eq_true, Bool.not_eq_true', isEmpty_eq_false_iff, all_eq_true] at good
  exact ⟨good.1, fun c mem => name_of_keyChar (good.2 c mem)⟩

theorem isBareKey_of_isKey {key : String} (good : isKey key) : isBareKey key := by
  simp only [isKey, Bool.and_eq_true, Bool.not_eq_true', isEmpty_eq_false_iff, all_eq_true] at good
  have last : key.toList.getLast? ≠ some '\n' := by
    intro wrong
    exact absurd (good.2 _ (mem_of_getLast? wrong)) (by decide)
  simp only [isBareKey, beq_iff_eq, last, if_false, Bool.and_eq_true, Bool.not_eq_true', isEmpty_eq_false_iff, all_eq_true]
  refine ⟨good.1, ?_⟩
  intro c mem
  have each := good.2 c mem
  simp only [isKeyChar, Bool.and_eq_true, decide_eq_true_eq, Bool.or_eq_true] at each ⊢
  tauto

theorem writeKey_of_isKey {key : String} (good : isKey key) : writeKey key = .ok key := by
  rw [writeKey, if_pos (isBareKey_of_isKey good)]

structure Member (text : List Char) : Prop extends OneLine text where
  filled : text ≠ []
  calm : startsWithComma text = false

theorem Member.listable (member : Member text) : Listable text := ⟨member.quotable, member.calm⟩

theorem afterKey_block (held : Held text) : Scan.AfterKey (fence ++ '\n' :: text ++ fence) (' ' :: fence ++ joinLines text ++ fence) := by
  intro done rest
  have opened (done more : List Char) : (mid false false 0 (' ' :: done)).run (fence ++ more) = (mid true true 0 (fence ++ ' ' :: done)).run more :=
    Scan.run_fence (by decide) (by decide)
  have moved : (mid true true 0 (fence ++ ' ' :: done)).run ('\n' :: (text ++ fence ++ rest)) =
      (mid true true 0 (fence ++ ' ' :: ' ' :: done)).run (text ++ fence ++ rest) :=
    Scan.run_step (step_newline_pair (.inr rfl))
  have scanned := held.scans (' ' :: done) rest
  have whole : fence ++ text ++ fence ++ rest = fence ++ (text ++ fence ++ rest) := by simp
  have written : fence ++ '\n' :: text ++ fence ++ rest = fence ++ '\n' :: (text ++ fence ++ rest) := by simp
  rw [whole, opened] at scanned
  rw [written, opened, moved, scanned]
  simp

theorem loadLine_blank (bare : Bare key) (quiet : Quiet value) (level : Value) :
    loadLine fuel (key ++ sign ++ ' ' :: value) level = loadLine fuel (key ++ sign ++ value) level := by
  have same : cutLine (key ++ sign ++ ' ' :: value) = cutLine (key ++ sign ++ value) := by
    have later : Quiet (' ' :: value) := by simpa [Quiet] using quiet
    rw [cutLine_entry bare later, cutLine_entry bare quiet]
    simp only [isStrictNumber, Text.trim_cons_blank (show Text.isBlank ' ' by decide)]
  cases fuel with
  | zero => rw [loadLine, loadLine]
  | succ fuel => rw [loadLine, loadLine, same]

theorem readAll_fence_blank (focus : Focus) (bare : Bare key) (rest : List Char) (entries : Entries) :
    readAll fuel ⟨focus.document entries, none⟩ (Text.cut ['\n'] (key ++ sign ++ ' ' :: (fence ++ rest))) =
      readAll fuel ⟨focus.document entries, none⟩ (Text.cut ['\n'] (key ++ sign ++ (fence ++ rest))) := by
  have free (blanks : List Char) (only : ∀ c ∈ blanks, c = ' ') : '\n' ∉ key ++ sign ++ (blanks ++ fence) := by
    refine newline_free bare ?_
    intro inside
    rcases mem_append.mp inside with wrong | wrong
    · exact absurd (only _ wrong) (by decide)
    · exact absurd wrong (by decide)
  have lines (blanks : List Char) (only : ∀ c ∈ blanks, c = ' ') : ∃ head tail, Text.cut ['\n'] rest = head :: tail ∧
      Text.cut ['\n'] (key ++ sign ++ (blanks ++ (fence ++ rest))) = (key ++ sign ++ (blanks ++ (fence ++ head))) :: tail := by
    obtain ⟨head, tail, cut, joined⟩ := Text.cut_append (free blanks only) rest
    refine ⟨head, tail, cut, ?_⟩
    simpa using joined
  obtain ⟨head, tail, cut, blank⟩ := lines [' '] (by simp)
  obtain ⟨head', tail', cut', plain⟩ := lines [] (by simp)
  rw [cut] at cut'
  cases cut'
  rw [singleton_append, singleton_append] at blank
  rw [nil_append, nil_append] at plain
  have trimmed : Text.trim (key ++ sign ++ ' ' :: (fence ++ head)) = key ++ sign ++ ' ' :: (fence ++ Text.trimEnd head) := by
    have ends : Text.trimEnd (' ' :: (fence ++ head)) = ' ' :: (fence ++ Text.trimEnd head) := by
      have filled : Text.trimEnd (fence ++ head) ≠ [] := by
        rw [trimEnd_fence]
        simp [fence]
      have kept : Text.trimEnd ([' '] ++ (fence ++ head)) = [' '] ++ Text.trimEnd (fence ++ head) := Text.trimEnd_append_of_ne_nil filled
      rwa [trimEnd_fence] at kept
    rw [trim_entry bare (by rw [ends]; simp), ends]
  rw [blank, plain, readAll_cons, readAll_cons, line_entry focus bare trimmed, line_entry focus bare (trim_entry_fence bare head),
    loadLine_blank bare (quiet_fence _)]

namespace Entry

def block (key : String) (text : List Char) : Entry :=
  ⟨key.toList, fence ++ '\n' :: text ++ fence, ' ' :: fence ++ joinLines text ++ fence, some (.str (String.ofList (asRead (joinLines text))))⟩

variable {key : String}

theorem block_reads (bare : Bare key.toList) (held : Held text) : (block key text).Reads fuel := by
  refine ⟨bare, afterKey_block held, fun focus entries => ?_⟩
  have whole : (block key text).lines = Text.cut ['\n'] (key.toList ++ sign ++ ' ' :: (fence ++ (joinLines text ++ fence))) := by
    simp [lines, chunk, block]
  rw [whole, readAll_fence_blank focus bare]
  exact readAll_long focus bare held.closes entries

end Entry

inductive Field : Value → Prop
  | text {s : String} (one : OneLine s.toList) : Field (.str s)
  | lines {s : String} (several : '\n' ∈ s.toList) (free : Text.contains fence s.toList = false) (held : Held (Text.trim s.toList ++ ['\n'])) :
      Field (.str s)
  | number (n : Int) : Field (.int n)
  | truth (b : Bool) : Field (.bool b)
  | texts {items : List String} (each : ∀ s ∈ items, Member s.toList) : Field (.list (items.map .str))

def trimmedText (s : String) : List Char := Text.trim s.toList ++ ['\n']

/-- Values that are written after a key as one entry and can be read there. -/
inductive Writable : Value → Prop
  | text {s : String} (quotable : Quotable s.toList) : Writable (.str s)
  | lines {s : String} (several : '\n' ∈ s.toList) (free : Text.contains fence s.toList = false) (held : Held (trimmedText s)) : Writable (.str s)
  | number (n : Int) : Writable (.int n)
  | truth (b : Bool) : Writable (.bool b)
  | texts {items : List String} (each : ∀ s ∈ items, Listable s.toList) : Writable (.list (items.map .str))

def fieldCost : Value → Nat
  | .list items => items.length + 3
  | _ => 0

def Entry.ofValue (key : String) : Value → Entry
  | .str s =>
    if '\n' ∈ s.toList then block key (trimmedText s)
    else ⟨key.toList, quoted (escapeText s.toList), quoted (escapeText s.toList), some (.str s)⟩
  | .int n => number key n
  | .bool b => truth key b
  | .list items =>
    let texts := items.map fun v => v.shown.toList
    ⟨key.toList, listOf texts, listOf texts, some (.list items)⟩
  | v => ⟨key.toList, [], [], some v⟩

section Writing

variable {key s : String} {v : Value}

theorem Field.writable (field : Field v) : Writable v := by
  cases field with
  | text one => exact .text one.quotable
  | lines several free held => exact .lines several free held
  | number n => exact .number n
  | truth b => exact .truth b
  | texts each => exact .texts fun s mem => (each s mem).listable

theorem ofValue_key (key : String) (v : Value) : (ofValue key v).key = key.toList := by
  unfold ofValue
  split
  · split <;> rfl
  all_goals rfl

theorem ofValue_name (key : String) (v : Value) : (ofValue key v).name = key := by
  rw [name, ofValue_key, String.ofList_toList]

theorem shown_texts (items : List String) : ((items.map Value.str).map fun v => v.shown.toList) = items.map String.toList := by
  simp [Value.shown, Function.comp_def]

theorem Writable.reads (writable : Writable v) (bare : Bare key.toList) (enough : fieldCost v ≤ fuel) : (ofValue key v).Reads fuel := by
  cases writable with
  | @text s quotable =>
    rw [ofValue, if_neg quotable.single]
    refine reads_line bare quotable.line ?_
    refine (congrArg (fun read => read.toOption.map Prod.fst) (loadValue_text quotable.reads)).trans ?_
    simp
  | @lines s several free held =>
    rw [ofValue, if_pos several]
    exact block_reads bare held
  | number n => exact number_reads bare n
  | truth b => exact truth_reads bare b
  | @texts items each =>
    have members : ∀ text ∈ items.map String.toList, Listable text := by
      intro text mem
      obtain ⟨s, present, rfl⟩ := mem_map.mp mem
      exact each s present
    have line : Line (listOf (items.map String.toList)) := line_listOf fun text mem => (members text mem).toQuotable
    rw [ofValue, shown_texts]
    refine reads_line bare line ?_
    have size : (items.map String.toList).length + 4 ≤ fuel + 1 := by
      simp only [fieldCost, length_map] at enough ⊢
      omega
    rw [loadValue_listOf members size]
    simp [Except.toOption, Function.comp_def]

theorem replaceAll_fence (free : Text.contains fence s.toList = false) : Text.replaceAll s "\"\"\"" "\\\"\"\"" = s := by
  have kept : Text.replace "\"\"\"".toList "\\\"\"\"".toList s.toList = s.toList := replace_absent (by simp) free
  rw [Text.replaceAll, kept, String.ofList_toList]

theorem Writable.written (writable : Writable v) (key : String) : ∃ text, writeValue v = .ok text ∧ text.toList = (ofValue key v).written := by
  cases writable with
  | @text s quotable =>
    rw [ofValue, if_neg quotable.single, writeValue, writeText, if_neg (by simpa using quotable.single),
      quotedText_quotable quotable.printable quotable.hex]
    exact ⟨_, rfl, by simp [quoted]⟩
  | @lines s several free held =>
    rw [ofValue, if_pos several, writeValue, writeText, if_pos (by simpa using several), replaceAll_fence free]
    exact ⟨_, rfl, by simp [block, Text.strip, trimmedText, fence]⟩
  | number n => exact ⟨toString n, rfl, toList_toString_int n⟩
  | truth b => exact ⟨_, rfl, by cases b <;> rfl⟩
  | @texts items each =>
    obtain ⟨text, done, same⟩ := writeItems_listOf fun s mem => (each s mem).toQuotable
    refine ⟨"[" ++ text ++ "]", ?_, ?_⟩
    · rw [writeValue, done]
      rfl
    · simp only [ofValue, shown_texts, listOf]
      simp [same]

theorem Writable.drafted (writable : Writable v) (name key : String) :
    ∃ text, draftEntry name key v = { body := .ok { plain := text } } ∧ text.toList = (ofValue key v).chunk.1 ++ ['\n'] := by
  have own : draftEntry name key v = plainEntry key v := by
    cases writable with
    | texts each =>
      rw [draftEntry]
      simp [isTable]
    | _ => rfl
  obtain ⟨text, done, same⟩ := writable.written key
  refine ⟨key ++ " = " ++ text ++ "\n", ?_, ?_⟩
  · rw [own, plainEntry, done]
    rfl
  · simp [chunk, ofValue_key, same, sign]

theorem Writable.cost_le (writable : Writable v) (key : String) : fieldCost v ≤ (ofValue key v).chunk.1.length + 3 := by
  cases writable with
  | @texts items each =>
    have bound := length_le_listOf (items.map String.toList)
    simp only [fieldCost, ofValue, shown_texts, chunk, length_append, length_map] at bound ⊢
    omega
  | _ => exact Nat.zero_le _

end Writing

end Rulewright.Toml
