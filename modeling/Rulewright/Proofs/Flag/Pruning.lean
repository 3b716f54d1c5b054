import Rulewright.Proofs.Flag.Inheritance
import Rulewright.Proofs.Flag.Untouched
import Rulewright.Proofs.Flag.Writes

/-!
One walk takes out every trace of the variables of a table: references, declarators, assignments and the declarations that
are left without a declarator (`redundant_variables_pruned`).
-/

open List

namespace Rulewright.Flag

open Value

def Spares (t : Table) (v : Value) : Prop := ∀ x, name? v = some x → t.own? x = none

structure Pruned (t : Table) (v : Value) : Prop where
  reference : Spares t v
  declarator : kind? v = some "VariableDeclarator" → Spares t (part v "id")
  assignment : kind? v = some "ExpressionStatement" → kind? (part v "expression") = some "AssignmentExpression" →
    Spares t (part (part v "expression") "left")
  declaration : kind? v = some "VariableDeclaration" → part v "declarations" ≠ .list []

section Pruning

variable {t : Table} {carry : Carry} {v w tree : Value} {es : Entries} {key x : String}

theorem pruned_of_bare (same : bare v = bare w) (pruned : Pruned t v) : Pruned t w := by
  have parts {key : String} (other : key ≠ "comments") : part w key = part v key := (part_of_bare same other).symm
  have name : name? w = name? v := by rw [name?, name?, hasKind_of_bare same, field?_of_bare same (by decide)]
  constructor <;> simp only [Spares, name, ← kind?_of_bare same, parts (by decide : "id" ≠ "comments"),
    parts (by decide : "expression" ≠ "comments"), parts (by decide : "declarations" ≠ "comments")]
  · exact pruned.reference
  · exact pruned.declarator
  · exact pruned.assignment
  · exact pruned.declaration

theorem spares_part (below : ∀ l x, Below false es l x → Everywhere (Pruned t) l x)
    (child : isChild (childFields (visitedKind false es)) key) : Spares t (part (.dict es) key) := by
  intro x named
  exact (everywhere_node_part below child (isNode_of_kind? (kind?_of_name? named))).reference x named

theorem variablePass_spares (found : redundantVariables tree = .ok t) (entered : ((variablePass carry t).enter v).fault = none)
    (kept : ((variablePass carry t).enter v).action = .keep) : Spares t v := by
  intro x named
  obtain ⟨r, answered, same⟩ := ofExcept_finished entered
  simp only [variablePass, same] at kept
  have silent : ((name? v).bind t.own?).bind bool? = none := by
    rcases pruneVariable_cases _ answered with ⟨-, -, silent⟩ | ⟨-, ⟨-, rfl⟩ | ⟨-, -, rfl⟩⟩ | ⟨_, _, -, -, rfl⟩
    · exact silent
    · cases kept
    · cases kept
    · cases kept
  rw [named, Option.bind_some, own?_redundantVariables found] at silent
  rw [own?_redundantVariables found]
  split
  · rfl
  · rename_i ordinary
    rw [if_neg ordinary] at silent
    cases last : (marksUnder x (noted tree)).getLast? with
    | none => rfl
    | some b => simp [last, bool?] at silent

theorem variablePass_hands (found : redundantVariables tree = .ok t) : Hands (variablePass carry t) (fun _ => True) (Pruned t) where
  blind := fun _ _ => pruned_of_bare
  made := fun _ _ made _ => by constructor <;> simp [Spares, name?, hasKind, made]
  stays := by
    intro loose es es' _ complete entered kept after left stays below
    have frame := after.frame (everywhere_self complete).kind?.1
    have child {kind key : String} (known : kind? (.dict es') = some kind) (named : kind ≠ "") (listed : isChild (childFields kind) key) :
        isChild (childFields (visitedKind false es')) key := by rwa [visitedKind_of_kind? known named]
    constructor
    · intro x named
      refine variablePass_spares found entered kept x ?_
      have known := kind?_of_name? named
      rw [frame.kind] at known
      rwa [name?, hasKind, frame.kind, frame.field _ "name" known (by decide) (by decide) (by decide)] at named
    · intro known
      exact spares_part below (child known (by decide) (by decide))
    · intro known assigns
      have expression := below _ _ (.single (mem_of_isNode_part (isNode_of_kind? assigns)) (child known (by decide) (by decide))
        (isNode_of_kind? assigns))
      obtain ⟨fields, whole⟩ := dict_of_kind? assigns
      rw [whole] at expression assigns ⊢
      refine spares_part (everywhere_below.mp expression).2 ?_
      rw [visitedKind_of_kind? assigns (by decide)]
      decide
    · intro known empty
      obtain ⟨r, answered, same⟩ := ofExcept_finished left
      simp only [variablePass, same] at stays
      rcases pruneEmptied_cases _ answered with rfl | ⟨-, -, rfl⟩
      · refine pruneEmptied_keep answered ?_
        rw [isEmptied, if_pos (by simp [hasKind, known]), field?_of_list empty]
        rfl
      · cases stays

end Pruning

def namingScript : Value := script [assignment "x" (literal true), statement (identifier "x"), statement (identifier "y")]

end Rulewright.Flag
