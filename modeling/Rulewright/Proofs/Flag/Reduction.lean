import Rulewright.Proofs.Flag.Completion
import Rulewright.Proofs.Flag.Untouched

/-!
One walk is enough. A node that stays is asked on the way up, when everything below it is as it will be, so the operators
and the conditionals of a script are reduced in one pass as far as they can be (`operators_simplified_in_one_pass`,
`conditionals_reduced_in_one_pass`).
-/

open List

namespace Rulewright.Flag

def Truthful (v : Value) : Prop := isMark v = true → (truth? (some v)).isSome = true

def Connected (v : Value) : Prop :=
  kind? v = some "LogicalExpression" → v.field? "operator" = some (.str "&&") ∨ v.field? "operator" = some (.str "||")

def Branched (v : Value) : Prop :=
  kind? v = some "IfStatement" ∨ kind? v = some "ConditionalExpression" → (v.field? "consequent").isSome = true

instance (v : Value) : Decidable (Truthful v) := inferInstanceAs (Decidable (_ → _))

instance (v : Value) : Decidable (Connected v) := inferInstanceAs (Decidable (_ → _))

instance (v : Value) : Decidable (Branched v) := inferInstanceAs (Decidable (_ → _))

/-- No mark is an operand of `&&` or `||`, and `!` is put before none. -/
def Reckoned (v : Value) : Prop :=
  (kind? v = some "LogicalExpression" → isMarked (v.field? "left") = .ok false ∧ isMarked (v.field? "right") = .ok false) ∧
    (kind? v = some "UnaryExpression" → v.field? "operator" = some (.str "!") → isMarked (v.field? "argument") = .ok false)

/-- No mark is the test of a conditional. -/
def Undecided (v : Value) : Prop :=
  kind? v = some "IfStatement" ∨ kind? v = some "ConditionalExpression" → isMarked (v.field? "test") = .ok false

section Reductions

variable {P Q : Value → Prop} {p : Pass} {loose : Bool} {v w : Value} {es es' : Entries} {key : String}

theorem SameMarks.reckoned (same : SameMarks v w) (reckoned : Reckoned v) : Reckoned w := by
  rwa [Reckoned, same.kind, same.operator, (same.marks "left" (by decide)).1, (same.marks "right" (by decide)).1,
    (same.marks "argument" (by decide)).1]

theorem SameMarks.undecided (same : SameMarks v w) (undecided : Undecided v) : Undecided w := by
  rwa [Undecided, same.kind, (same.marks "test" (by decide)).1]

theorem truthful_of_bare (same : bare v = bare w) (truthful : Truthful v) : Truthful w :=
  fun marked => truth?_of_bare same ▸ truthful (isMark_of_bare same ▸ marked)

theorem SameFrame.truthful (frame : SameFrame v w) (truthful : Truthful v) : Truthful w := by
  intro marked
  rw [frame.isMark] at marked
  rw [frame.truth? (isMark_kind? marked)]
  exact truthful marked

theorem Truthful.resolve (truthful : Truthful (part v key)) (stuck : Stuck (v.field? key)) : isMarked (v.field? key) = .ok false := by
  refine stuck.resolve_right ?_
  rintro ⟨marked, nothing⟩
  obtain ⟨x, held, mark⟩ := isMarked_ok marked
  rw [part, held, Option.getD_some] at truthful
  simpa [held ▸ nothing] using truthful mark.symm

theorem truthful_part (below : ∀ l x, Below false es l x → Everywhere (fun v => Truthful v ∧ Q v) l x)
    (child : isChild (childFields (visitedKind false es)) key) : Truthful (part (.dict es) key) := by
  intro marked
  exact (everywhere_node_part below child (isNode_of_kind? (isMark_kind? marked))).1 marked

theorem Edits.made_truthful (edits : Edits p) (made : (p.enter (.dict es)).fault = none ∧ (p.enter (.dict es)).action = .put w ∨
      (p.leave (.dict es)).fault = none ∧ (p.leave (.dict es)).action = .put w ∧
        ∀ l x, Below false es l x → Everywhere (fun v => Truthful v ∧ Q v) l x) : Truthful w := by
  rcases made with ⟨fine, put⟩ | ⟨fine, put, below⟩
  · have edit := edits.enter fine
    generalize p.enter (.dict es) = r at edit put
    cases edit <;> cases put
    exact fun _ => rfl
  · have edit := edits.leave fine
    generalize p.leave (.dict es) = r at edit put
    cases edit with
    | keep => cases put
    | stir => cases put
    | literal =>
      cases put
      exact fun _ => rfl
    | drop => cases put
    | branch branch =>
      cases put
      obtain ⟨named, child⟩ := fieldsIn_all (Q := fun kind key => kind ≠ "" ∧ isChild (childFields kind) key) (by decide) branch.listed
      refine truthful_of_bare branch.taken.symm (truthful_part below ?_)
      rwa [visitedKind_of_kind? (kind?_of_kindName rfl named) named]

theorem hands_operators : Hands operators (fun v => Sturdy v ∧ Connected v ∧ Truthful v) (fun v => Truthful v ∧ Reckoned v) where
  blind := fun _ _ same both => ⟨truthful_of_bare same both.1, (sameMarks_of_bare same).reckoned both.2⟩
  made := fun es w made puts => ⟨operators_edits.made_truthful puts, by simp [Reckoned, made]⟩
  stays := by
    rintro loose es es' ⟨sturdy, connected, truthful⟩ complete - - after left kept below
    have frame := after.frame (everywhere_self complete).kind?.1
    have sturdy := sturdy.step (operators_edits.steady complete after) after.leaves
    refine ⟨frame.truthful truthful, ?_⟩
    obtain ⟨r, answered, same⟩ := ofExcept_finished left
    simp only [operators, same] at kept
    rcases reduceOperator_cases _ answered with rfl | ⟨known, key, other, sides, marked, ⟨stuck, -⟩ | ⟨w, -, rfl⟩⟩ | ⟨-, -, -, b, -, rfl⟩
    · obtain ⟨logical, unary⟩ := silent_operators_iff.mp ⟨rfl, ofExcept_keep.mpr answered⟩
      refine ⟨logical, fun known negation => (truthful_part below ?_).resolve (unary known negation)⟩
      rw [visitedKind_of_kind? known (by decide)]
      decide
    · have child : isChild (childFields (visitedKind false es')) key ∧ other ∈ (supports.lookup "LogicalExpression").getD [] := by
        rw [visitedKind_of_kind? known (by decide)]
        rcases sides with ⟨rfl, rfl⟩ | ⟨rfl, rfl⟩ <;> decide
      refine (reduceLogical_some ?_ (truthful_part below child.1 marked) ?_ stuck).elim
      · rw [frame.kind] at known
        rw [frame.field _ "operator" known (by decide) (by decide) (by decide)]
        exact connected known
      · rw [field?_of_node (sturdy.node known child.2)]
        rfl
    · cases kept
    · cases kept

theorem hands_conditionals : Hands conditionals (fun v => Truthful v ∧ Branched v) (fun v => Truthful v ∧ Undecided v) where
  blind := fun _ _ same both => ⟨truthful_of_bare same both.1, (sameMarks_of_bare same).undecided both.2⟩
  made := fun es w made puts => ⟨conditionals_edits.made_truthful puts, by simp [Undecided, made]⟩
  stays := by
    rintro loose es es' ⟨truthful, branched⟩ complete - - after left kept below
    have frame := after.frame (everywhere_self complete).kind?.1
    refine ⟨frame.truthful truthful, fun conditional => ?_⟩
    obtain ⟨r, answered, same⟩ := ofExcept_finished left
    simp only [conditionals, same] at kept left
    rcases reduceConditional_cases _ answered with rfl | ⟨-, -, b, -, ⟨rfl, chosen⟩ | ⟨rfl, -⟩⟩
    · refine (truthful_part below ?_).resolve (silent_conditionals_iff.mp ⟨rfl, ofExcept_keep.mpr answered⟩ conditional)
      rcases conditional with known | known <;> rw [visitedKind_of_kind? known (by decide)] <;> decide
    · rcases takeBranch_reply left with ⟨missing, -⟩ | ⟨node, w, reply, -⟩
      · cases b with
        | true =>
          rw [frame.kind] at conditional
          rcases after.leaves.read "consequent" with ⟨before, -⟩ | ⟨_, _, -, found, -⟩
          · simpa [before] using branched conditional
          · cases missing.symm.trans found
        | false => exact (chosen rfl (by rw [part, show (Value.dict es').field? "alternate" = none from missing]; rfl)).elim
      · rw [reply] at kept
        cases kept
    · cases kept

end Reductions

def negatedScript : Value :=
  let either : Value :=
    .dict [("type", .str "LogicalExpression"), ("operator", .str "||"), ("left", identifier "f"), ("right", literal true)]
  let test : Value := .dict [("type", .str "UnaryExpression"), ("operator", .str "!"), ("argument", either)]
  script [conditional test (statement (identifier "a")) (block [block [statement (identifier "b")]])]

end Rulewright.Flag
