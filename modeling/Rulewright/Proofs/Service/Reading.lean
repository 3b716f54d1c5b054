import Rulewright.Service.Server
import Rulewright.Proofs.Runs

/-!
Reading a request. Its data has to be a table with exactly the fields of its kind, and then each field is checked in turn. A client is
told about a value that a check refuses, but not about fields that are missing or too many, nor about a value that is no text where a
text is asked for.
-/

open List

namespace Rulewright.Service

open Entries

def Check.Accepts : Check → Value → Prop
  | .text, v => ∃ text, v = .str text
  | .language, v => ∃ l ∈ languages, v = .str l
  | .rules, v => ∃ text g, v = .str text ∧ Graph.ofToml text = .ok g

structure RequestKind.HasFields (k : RequestKind) (data : Value) (entries : Entries) : Prop where
  table : data = .dict entries
  complete : ∀ e ∈ k.fields, (get? e.1 entries).isSome = true
  known : ∀ e ∈ entries, e.1 ∈ k.fields.map Prod.fst

def Typed (entries : Entries) : List (String × Check) → Prop
  | [] => True
  | (name, c) :: rest => (c = .text → c.Accepts (field entries name)) ∧ (c.Accepts (field entries name) → Typed entries rest)

def RequestKind.Valid (k : RequestKind) (entries : Entries) : Prop := ∀ e ∈ k.fields, e.2.Accepts (field entries e.1)

def RequestKind.taken (k : RequestKind) (entries : Entries) : Entries := k.fields.map fun e => (e.1, field entries e.1)

abbrev RequestKind.Tells (k : RequestKind) (f : Failure) : Prop := k.knows f = true

section Checks

variable {v : Value} {f : Failure} {entries : Entries} {fields : List (String × Check)}

theorem isText_iff : Graph.isText v ↔ ∃ text g, v = .str text ∧ Graph.ofToml text = .ok g := by
  cases v with
  | str text =>
    rw [Graph.isText]
    cases made : Graph.ofToml text with
    | ok g => exact iff_of_true rfl ⟨text, g, rfl, made⟩
    | error f =>
      refine iff_of_false (fun wrong => by cases wrong) ?_
      rintro ⟨text', g, same, made'⟩
      cases same
      rw [made] at made'
      cases made'
  | _ =>
    refine iff_of_false (fun wrong => by cases wrong) ?_
    rintro ⟨text, g, same, -⟩
    cases same

theorem Check.run_ok_iff (c : Check) (name : String) : c.run name v = .ok () ↔ c.Accepts v := by
  cases c with
  | text =>
    cases v with
    | str text => exact iff_of_true rfl ⟨text, rfl⟩
    | _ => exact iff_of_false (fun passed => by cases passed) (fun accepted => by cases accepted; contradiction)
  | language =>
    simp only [Check.run, Check.Accepts]
    split
    · rename_i allowed
      exact iff_of_true rfl (by simpa using allowed)
    · rename_i other
      exact iff_of_false (fun wrong => by cases wrong) (by simpa using other)
  | rules =>
    simp only [Check.run, Check.Accepts, ← isText_iff]
    split
    · rename_i known
      exact iff_of_true rfl known
    · rename_i unknown
      exact iff_of_false (fun wrong => by cases wrong) unknown

theorem tells_badValue (k : RequestKind) (bad : isBadValue f) : k.Tells f := by
  cases k with
  | infer =>
    cases f with
    | agent => rfl
    | _ => exact bad
  | improve =>
    cases f with
    | noAttribute => rfl
    | agent => rfl
    | _ => exact bad
  | refactor | snippet =>
    cases f with
    | refactoring => rfl
    | _ => exact bad

theorem tells_wrongType (k : RequestKind) (name : String) : ¬k.Tells (.wrongType name) := by
  cases k <;> exact Bool.false_ne_true

theorem tells_wrongFields (k : RequestKind) : ¬k.Tells .wrongFields := by
  cases k <;> exact Bool.false_ne_true

theorem Check.run_fails_iff (k : RequestKind) (c : Check) (name : String) : FailsOnly k.Tells (c.run name v) ↔ (c = .text → c.Accepts v) := by
  cases c with
  | text =>
    cases v with
    | str text => exact iff_of_true (failsOnly_ok ()) fun _ => ⟨text, rfl⟩
    | _ =>
      refine iff_of_false (fun fails => tells_wrongType k name (fails _ rfl)) fun accepted => ?_
      obtain ⟨text, same⟩ := accepted rfl
      cases same
  | language =>
    refine iff_of_true ?_ fun wrong => by cases wrong
    exact .ite (failsOnly_ok ()) (failsOnly_error (tells_badValue k rfl))
  | rules =>
    refine iff_of_true ?_ fun wrong => by cases wrong
    exact .ite (failsOnly_ok ()) (failsOnly_error (tells_badValue k rfl))

theorem checkAll_fails_iff (k : RequestKind) : FailsOnly k.Tells (checkAll entries fields) ↔ Typed entries fields := by
  induction fields with
  | nil => exact iff_of_true (failsOnly_ok ()) trivial
  | cons e rest ih =>
    obtain ⟨name, c⟩ := e
    rw [checkAll, failsOnly_bind_iff, Typed, ← ih, ← c.run_fails_iff k name, ← c.run_ok_iff name]
    constructor
    · rintro ⟨first, others⟩
      exact ⟨first, others ()⟩
    · rintro ⟨first, others⟩
      exact ⟨first, fun _ => others⟩

theorem checkAll_ok_iff : checkAll entries fields = .ok () ↔ ∀ e ∈ fields, e.2.Accepts (field entries e.1) := by
  induction fields with
  | nil => exact iff_of_true rfl (by simp)
  | cons e rest ih =>
    obtain ⟨name, c⟩ := e
    rw [checkAll, forall_mem_cons, ← ih, ← c.run_ok_iff name]
    constructor
    · intro passed
      obtain ⟨_, first, others⟩ := bind_cases passed
      exact ⟨first, others⟩
    · rintro ⟨first, others⟩
      rw [show c.run name ((get? name entries).getD .null) = .ok () from first]
      exact others

end Checks

section Fields

variable {k : RequestKind} {data : Value} {entries others : Entries} {fields : List (String × Check)}

theorem field_of_mem {g : String → Value} {name : String} (inside : name ∈ fields.map Prod.fst) :
    field (fields.map fun e => (e.1, g e.1)) name = g name := by
  induction fields with
  | nil => cases inside
  | cons e rest ih =>
    by_cases same : e.1 = name
    · simp [field, get?, same]
    · have later : name ∈ rest.map Prod.fst := (mem_cons.mp inside).resolve_left fun wrong => same wrong.symm
      rw [← ih later]
      simp [field, get?, same]

theorem field_taken {e : String × Check} (inside : e ∈ k.fields) : field (k.taken entries) e.1 = field entries e.1 :=
  field_of_mem (mem_map_of_mem inside)

theorem typed_congr (same : ∀ e ∈ fields, field others e.1 = field entries e.1) : Typed others fields ↔ Typed entries fields := by
  induction fields with
  | nil => exact Iff.rfl
  | cons e rest ih =>
    obtain ⟨first, later⟩ := forall_mem_cons.mp same
    rw [Typed, Typed, first, ih later]

theorem gather_ok (complete : ∀ e ∈ fields, (get? e.1 entries).isSome) :
    gather entries fields = .ok (fields.map fun e => (e.1, field entries e.1)) := by
  induction fields with
  | nil => rfl
  | cons e rest ih =>
    obtain ⟨first, others⟩ := forall_mem_cons.mp complete
    obtain ⟨v, found⟩ := Option.isSome_iff_exists.mp first
    rw [gather, ih others]
    simp only [map_cons, field, found]
    rfl

theorem gather_error (lacks : ¬∀ e ∈ fields, (get? e.1 entries).isSome) : gather entries fields = .error .wrongFields := by
  induction fields with
  | nil => exact absurd (by simp) lacks
  | cons e rest ih =>
    rw [gather]
    cases found : get? e.1 entries with
    | none => rfl
    | some v =>
      have later : ¬∀ e ∈ rest, (get? e.1 entries).isSome := by
        intro complete
        exact lacks (forall_mem_cons.mpr ⟨by rw [found]; rfl, complete⟩)
      rw [ih later]
      rfl

theorem all_known_iff : (entries.all fun e => k.fields.any (·.1 == e.1)) ↔ ∀ e ∈ entries, e.1 ∈ k.fields.map Prod.fst := by
  simp

theorem RequestKind.HasFields.unique (has : k.HasFields data entries) (has' : k.HasFields data others) : entries = others :=
  Value.dict.inj (has.table.symm.trans has'.table)

theorem read_of_hasFields (has : k.HasFields data entries) : k.read data = do
    checkAll (k.taken entries) k.fields
    if k = .improve then tidyRules (k.taken entries) else return k.taken entries := by
  obtain ⟨rfl, complete, known⟩ := has
  simp only [RequestKind.read, gather_ok complete, all_known_iff.mpr known]
  rfl

theorem read_of_not_hasFields (lacks : ¬∃ entries, k.HasFields data entries) : k.read data = .error .wrongFields := by
  cases data with
  | dict entries =>
    by_cases complete : ∀ e ∈ k.fields, (get? e.1 entries).isSome
    · have unknown : (entries.all fun e => k.fields.any (·.1 == e.1)) = false := by
        rw [← Bool.not_eq_true, all_known_iff]
        intro known
        exact lacks ⟨entries, rfl, complete, known⟩
      simp only [RequestKind.read, gather_ok complete, unknown]
      rfl
    · simp only [RequestKind.read, gather_error complete]
      rfl
  | _ => rfl

end Fields

def Tidies (entries : Entries) : Prop :=
  ∀ text table, field entries "rules" = .str text → Toml.read text = .ok table → FailsOnly RequestKind.improve.Tells (Toml.write table)

section Requests

variable {k : RequestKind} {data : Value} {entries d : Entries}

theorem checkAll_taken_ok_iff : checkAll (k.taken entries) k.fields = .ok () ↔ k.Valid entries := by
  rw [checkAll_ok_iff]
  exact forall₂_congr fun e inside => by rw [field_taken inside]

theorem tidyRules_eq (valid : RequestKind.improve.Valid entries) :
    ∃ text table, field entries "rules" = .str text ∧ Toml.read text = .ok table ∧
      tidyRules (RequestKind.improve.taken entries) =
        (do return put "rules" (.str (← Toml.write table)) (RequestKind.improve.taken entries)) := by
  obtain ⟨text, g, same, made⟩ := valid ("rules", .rules) (by decide)
  obtain ⟨table, read, -⟩ := bind_cases made
  refine ⟨text, table, same, read, ?_⟩
  have taken :=
    (field_taken (k := .improve) (e := ("rules", .rules)) (by decide)).trans same
  unfold tidyRules
  unfold field at taken
  rw [taken]
  simp only [Value.shown, read]
  rfl

theorem tidyRules_fails_iff (valid : RequestKind.improve.Valid entries) :
    FailsOnly RequestKind.improve.Tells (tidyRules (RequestKind.improve.taken entries)) ↔ Tidies entries := by
  obtain ⟨text, table, same, read, steps⟩ := tidyRules_eq valid
  rw [steps, failsOnly_bind_iff]
  constructor
  · rintro ⟨fails, -⟩ text' table' same' read'
    rw [same] at same'
    cases same'
    rw [read] at read'
    cases read'
    exact fails
  · intro tidies
    exact ⟨tidies text table same read, fun _ _ => failsOnly_ok _⟩

theorem read_fails_iff : FailsOnly k.Tells (k.read data) ↔
    ∃ entries, k.HasFields data entries ∧ Typed entries k.fields ∧ (k = .improve → k.Valid entries → Tidies entries) := by
  by_cases has : ∃ entries, k.HasFields data entries
  · obtain ⟨entries, has⟩ := has
    have only : (∃ entries, k.HasFields data entries ∧ Typed entries k.fields ∧ (k = .improve → k.Valid entries → Tidies entries)) ↔
        Typed entries k.fields ∧ (k = .improve → k.Valid entries → Tidies entries) := by
      refine ⟨?_, fun rest => ⟨entries, has, rest⟩⟩
      rintro ⟨others, has', rest⟩
      exact has.unique has' ▸ rest
    rw [only, read_of_hasFields has, failsOnly_bind_iff, checkAll_fails_iff, typed_congr fun e inside => field_taken inside]
    refine and_congr_right fun _ => ?_
    by_cases improves : k = .improve
    · subst improves
      simp only [if_true, true_imp_iff]
      constructor
      · intro fails valid
        exact (tidyRules_fails_iff valid).mp (fails () (checkAll_taken_ok_iff.mpr valid))
      · intro tidies _ passed
        have valid := checkAll_taken_ok_iff.mp passed
        exact (tidyRules_fails_iff valid).mpr (tidies valid)
    · rw [if_neg improves]
      exact iff_of_true (fun _ _ => failsOnly_ok _) (fun wrong => absurd wrong improves)
  · rw [read_of_not_hasFields has]
    refine iff_of_false (fun fails => tells_wrongFields k (fails _ rfl)) ?_
    rintro ⟨entries, fits, -⟩
    exact has ⟨entries, fits⟩

theorem read_of_valid (other : k ≠ .improve) (has : k.HasFields data entries) (valid : k.Valid entries) : k.read data = .ok (k.taken entries) := by
  rw [read_of_hasFields has, checkAll_taken_ok_iff.mpr valid, if_neg other]
  rfl

theorem read_ok (read : k.read data = .ok d) : ∃ entries, k.HasFields data entries ∧ k.Valid entries ∧
    (k ≠ .improve → d = k.taken entries) ∧
    (k = .improve → ∃ text table rules, field entries "rules" = .str text ∧ Toml.read text = .ok table ∧ Toml.write table = .ok rules ∧
      d = put "rules" (.str rules) (k.taken entries)) := by
  by_cases has : ∃ entries, k.HasFields data entries
  · obtain ⟨entries, has⟩ := has
    rw [read_of_hasFields has] at read
    obtain ⟨_, passed, read⟩ := bind_cases read
    have valid := checkAll_taken_ok_iff.mp passed
    refine ⟨entries, has, valid, fun other => ?_, ?_⟩
    · rw [if_neg other] at read
      cases read
      rfl
    · rintro rfl
      obtain ⟨text, table, same, known, steps⟩ := tidyRules_eq valid
      rw [steps] at read
      obtain ⟨rules, written, read⟩ := bind_cases read
      cases read
      exact ⟨text, table, rules, same, known, written, rfl⟩
  · rw [read_of_not_hasFields has] at read
    cases read

end Requests

end Rulewright.Service
