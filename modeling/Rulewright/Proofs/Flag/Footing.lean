import Rulewright.Proofs.Flag.Endings
import Rulewright.Proofs.Flag.Inheritance

/-!
What the nodes of a script rest on. A pass asks some fields of a node for what stands there, so nothing may be missing there
(`Sturdy`). No pass takes away what a sturdy node rests on: whatever its children give way to lasts (`Turning.walk`), so a
sturdy script stays sturdy (`Sturdy.step`).
-/

open List

namespace Rulewright.Flag

theorem isNode_of_endings {v : Value} (ends : ∀ x ∈ endings v, isNode x) : isNode v := by
  by_cases single : fieldsIn branches v = []
  · exact ends v (by rw [endings_end single]; exact mem_cons_self)
  · obtain ⟨key, listed⟩ := exists_mem_of_ne_nil _ single
    cases known : kind? v with
    | some kind => exact isNode_of_kind? known
    | none =>
      have yields := branches_yielding listed
      rw [kindName, known] at yields
      cases yields

def mayAssign (v : Value) : Bool :=
  hasKind v "ExpressionStatement" && (endings (part v "expression")).any (hasKind · "AssignmentExpression")

def isEnduring (v : Value) : Bool := isNode v && !(yielding ++ droppable).contains (kindName v) && !mayAssign v

def mayMark (v : Value) : Bool := ("Literal" :: replaceable ++ yielding).contains (kindName v)

section Enduring

variable {p : Pass} {loose : Bool} {v w : Value} {key kind : String} {es es' : Entries} {r : Reply}

theorem isEnduring_isNode (enduring : isEnduring v) : isNode v := by
  simp only [isEnduring, Bool.and_eq_true] at enduring
  exact enduring.1.1

theorem Spent.not_enduring (spent : Spent v) : isEnduring v = false := by
  rcases spent with listed | ⟨known, assigns⟩
  · simp only [isEnduring, listed, Bool.not_true, Bool.and_false, Bool.false_and]
  · have whole : mayAssign v := by
      rw [mayAssign, (endings_of_kind assigns (by decide)).2]
      simp [hasKind, known, assigns]
    rw [isEnduring, whole, Bool.not_true, Bool.and_false]

theorem mayMark_of_isMark (marked : isMark v) : mayMark v := by
  rw [mayMark, kindName_of_kind? (isMark_kind? marked)]
  rfl

theorem Edit.opens {up : Bool} (edit : Edit v up r) (puts : r.action = .put w) (known : kind? v = some "IfStatement") :
    mayMark (part v "test") := by
  cases edit with
  | literal other listed =>
    cases known.symm.trans other
    simp [replaceable] at listed
  | branch _ marks => exact mayMark_of_isMark (marks known)
  | _ => cases puts

def IsVacantOrNode (v : Value) : Prop := v = .null ∨ isNode v = true

theorem isEnduring_of_kind (enduring : isEnduring v) (kind : kind? w = kind? v)
    (expression : kind? v = some "ExpressionStatement" →
      (∀ x ∈ endings (part v "expression"), hasKind x "AssignmentExpression" = false) →
      ∀ x ∈ endings (part w "expression"), hasKind x "AssignmentExpression" = false) : isEnduring w := by
  simp only [isEnduring, mayAssign, Bool.and_eq_true, Bool.not_eq_true', Bool.and_eq_false_iff, any_eq_false,
    Bool.not_eq_true] at enduring ⊢
  obtain ⟨⟨node, kept⟩, plain⟩ := enduring
  rw [isNode_eq, kindName, hasKind, kind]
  refine ⟨⟨by rw [← isNode_eq]; exact node, kept⟩, ?_⟩
  by_cases known : kind? v = some "ExpressionStatement"
  · have none :=
      plain.resolve_left (by simp [hasKind, known])
    exact Or.inr (expression known none)
  · exact Or.inl (by simpa using known)

theorem isEnduring_of_bare (same : bare v = bare w) (enduring : isEnduring v) : isEnduring w :=
  isEnduring_of_kind enduring (kind?_of_bare same).symm fun _ plain => by
    rw [← part_of_bare same (by decide)]
    exact plain

structure Stands (v w : Value) : Prop where
  plain : hasKind v "AssignmentExpression" = false → hasKind w "AssignmentExpression" = false
  vacant : IsVacantOrNode v → IsVacantOrNode w
  enduring : isEnduring v = true → isEnduring w = true

theorem turns_stands : Turns Stands where
  trans _ _ _ first second := ⟨second.plain ∘ first.plain, second.vacant ∘ first.vacant, second.enduring ∘ first.enduring⟩
  blind v w same := by
    refine ⟨fun plain => by rw [← hasKind_of_bare same, plain], fun either => ?_, isEnduring_of_bare same⟩
    rcases either with rfl | node
    · cases w <;> simp_all [bare, Value.unset, IsVacantOrNode]
    · exact Or.inr (by rw [← isNode_of_bare same, node])
  made _ b := ⟨fun _ => by cases b <;> decide, fun _ => Or.inr (by cases b <;> decide), fun _ => by cases b <;> decide⟩
  lists _ _ := ⟨fun _ => rfl, fun either => (by rcases either with whole | whole <;> cases whole),
    fun enduring => by cases isEnduring_isNode enduring⟩
  gone v spent := ⟨fun _ => rfl, fun _ => Or.inl rfl, fun enduring => by rw [spent.not_enduring] at enduring; cases enduring⟩
  stays known leaves parts := by
    have kind := leaves.kind? known
    refine ⟨fun plain => by rw [hasKind, kind]; exact plain, fun either => Or.inr ?_, fun enduring => ?_⟩
    · rw [isNode_eq, kind, ← isNode_eq]
      exact either.resolve_left (by rintro ⟨⟩)
    · exact isEnduring_of_kind enduring kind fun _ => (parts _ (by decide)).all fun _ _ => Stands.plain

end Enduring

def Filled (table : List (String × List String)) (v : Value) : Prop :=
  ∀ key ∈ fieldsIn table v, ∀ x ∈ endings (part v key), isEnduring x = true

instance (table : List (String × List String)) (v : Value) : Decidable (Filled table v) :=
  inferInstanceAs (Decidable (∀ key ∈ fieldsIn table v, ∀ x ∈ endings (part v key), isEnduring x = true))

def supports : List (String × List String) :=
  [("CallExpression", ["callee"]), ("LogicalExpression", ["left", "right"]), ("UnaryExpression", ["argument"]),
    ("IfStatement", ["test"]), ("ConditionalExpression", ["test", "consequent", "alternate"]),
    ("AssignmentExpression", ["left"]), ("ExpressionStatement", ["expression"]), ("FunctionDeclaration", ["body"]),
    ("FunctionExpression", ["body"]), ("ArrowFunctionExpression", ["body"]), ("VariableDeclarator", ["id"])]

@[mk_iff]
structure Sturdy (v : Value) : Prop where
  filled : Filled supports v
  consequent : kind? v = some "IfStatement" → mayMark (part v "test") = true → ∀ x ∈ endings (part v "consequent"), isEnduring x = true
  otherwise : kind? v = some "IfStatement" → ∀ x ∈ endings (part v "alternate"), IsVacantOrNode x
  declarators : kind? v = some "VariableDeclaration" →
    (part v "declarations").list?.any (·.all (hasKind · "VariableDeclarator")) = true
  members : kind? v = some "ClassBody" → (part v "body").list?.any (·.all fun m => (endings m).all isEnduring) = true
  block : kind? v = some "FunctionDeclaration" ∨ kind? v = some "FunctionExpression" →
    kind? (part v "body") = some "BlockStatement"
  answer : kind? v = some "ReturnStatement" → (v.field? "argument").isSome = true
  home : (part v "body").list?.isSome = true → ((childFields (kindName v)).getD []).all (· == "body") = true

instance (v : Value) : Decidable (IsVacantOrNode v) := inferInstanceAs (Decidable (v = .null ∨ isNode v = true))

instance (v : Value) : Decidable (Sturdy v) := decidable_of_iff _ (sturdy_iff ..).symm

section Sturdy

variable {p : Pass} {loose keepComments : Bool} {v w x : Value} {key kind : String} {es es' : Entries} {spot : Spot}
  {out : Spot → Value → List Value} {table : List (String × List String)} {q : Value → Bool}

theorem Filled.isNode (filled : Filled table v) (listed : key ∈ fieldsIn table v) : isNode (part v key) :=
  isNode_of_endings fun x ends => isEnduring_isNode (filled key listed x ends)

theorem Filled.of_bare (children : ∀ e ∈ table, ∀ key ∈ e.2, key ≠ "comments") (same : bare v = bare w) (filled : Filled table v) :
    Filled table w := by
  intro key listed x ends
  have other : key ≠ "comments" := fieldsIn_all (Q := fun _ key => key ≠ "comments") children listed
  rw [← fieldsIn_of_bare table same] at listed
  rw [← part_of_bare same other] at ends
  exact filled key listed x ends

theorem Remains.of_kind {ys : List Value} (remains : Remains Remnant spot v ys) (known : kind? v = some kind)
    (own : replaceable.contains kind = false ∧ yielding.contains kind = false) (alone : spot = .only ∨ kind ≠ "BlockStatement") :
    ∀ y ∈ ys, kind? y = some kind := by
  have done {v : Value} (known : kind? v = some kind) (remnant : Remnant spot v ys) : ∀ y ∈ ys, kind? y = some kind := by
    cases remnant with
    | stays => simpa using known
    | gone => simp
    | literal other listed =>
      cases known.symm.trans other
      simp [listed] at own
    | branch listed =>
      have yields := branches_yielding listed
      rw [kindName_of_kind? known, own.2] at yields
      cases yields
    | spilled block =>
      cases known.symm.trans block
      simp at alone
  cases remains with
  | acts does => exact done known does
  | node _ _ leaves same does =>
    refine done ?_ does
    rw [kind?_of_bare same, leaves.kind?_of known]

/-- What a step does to the children of a node, as far as the node may rest on them. -/
structure Steady (out : Spot → Value → List Value) (loose : Bool) (es : Entries) : Prop where
  known : (childFields (visitedKind loose es)).isSome = true
  settles : Settles Stands out loose es
  remains : ∀ spot x, Child loose es spot x → Remains Remnant spot x (out spot x)
  single : ∀ x, Child loose es .only x → ((out .only x).head?.getD .null).list? = none

theorem Edits.steady (edits : Edits p) (complete : Everywhere (Complete anything) loose (.dict es)) (after : After p bare loose es es') :
    Steady (fun spot x => (walkAt p spot x).value) loose es where
  known := by
    rw [(everywhere_self complete).visitedKind]
    exact (everywhere_self complete).known
  settles := (edits.turning turns_stands).settles turns_stands complete after
  remains spot x child := edits.remains frames_complete (child.complete complete) (after.inner child)
  single x child := by
    rcases after.alone edits.tame complete x child with none | ⟨y, only, single⟩
    · rw [none]
      rfl
    · rw [only]
      exact single

theorem NodeFlat.steady {f : Flattening} {fields : List String} (flat : NodeFlat f fields loose es w) :
    Steady (fun spot x => (flattenAt f spot x).value) loose es where
  known := by rw [flat.known]; rfl
  settles := flat.settles turns_stands
  remains _ _ := flat.remains
  single x child := by
    have fine := flat.fine child
    obtain ⟨es, rfl⟩ := isNode_dict child.isNode
    obtain ⟨es', whole⟩ := flattenNode_dict fine
    show (flattenNode f.keepComments false (.dict es)).value.list? = none
    rw [whole]
    rfl

section

variable (steady : Steady out loose es) (leaves : Leaves bare out loose es es')
include steady leaves

theorem Steady.part (other : key ≠ "comments") : Yields Stands (part (.dict es) key) (part (.dict es') key) :=
  turns_stands.part leaves (fun x child => (steady.settles .only x child (.inl rfl)).2) other

theorem Steady.kindName : kindName (.dict es') = kindName (.dict es) := by
  rw [Flag.kindName, Flag.kindName, leaves.kind? steady.known]

theorem Steady.part_kind (other : key ≠ "comments") (known : kind? (Flag.part (.dict es) key) = some kind)
    (own : replaceable.contains kind = false ∧ yielding.contains kind = false) (present : isNode (Flag.part (.dict es') key)) :
    kind? (Flag.part (.dict es') key) = some kind := by
  rcases leaves.part_cases other with ⟨-, child, after⟩ | ⟨items, left, before, -⟩ | same
  · rw [after] at present ⊢
    have kept := (steady.remains .only _ child).of_kind known own (.inl rfl)
    cases remains : out .only (Flag.part (.dict es) key) with
    | nil => rw [remains] at present; cases present
    | cons y rest => exact kept y (by simp [remains])
  · rw [before] at known
    cases known
  · rw [same, known]

end

theorem Filled.step (filled : Filled table (.dict es)) (steady : Steady out loose es) (leaves : Leaves bare out loose es es')
    (children : ∀ e ∈ table, ∀ key ∈ e.2, key ≠ "comments") : Filled table (.dict es') := by
  intro key listed
  rw [fieldsIn, steady.kindName leaves] at listed
  exact (steady.part leaves (fieldsIn_all (Q := fun _ key => key ≠ "comments") children listed)).all (fun _ _ => Stands.enduring) (filled key listed)

theorem Filled.flatten (children : ∀ e ∈ table, ∀ key ∈ e.2, key ≠ "comments") (filled : Filled table (.dict es))
    (finished : (flattenNode keepComments loose (.dict es)).fault = none) :
    Filled table (flattenNode keepComments loose (.dict es)).value := by
  obtain ⟨fields, f, rfl, flat⟩ := flattenNode_finished finished
  exact .of_bare children flat.alike.symm (filled.step flat.steady flat.leaves children)

theorem Sturdy.of_bare (same : bare v = bare w) (sturdy : Sturdy v) : Sturdy w := by
  have kind : kind? w = kind? v := (kind?_of_bare same).symm
  have part {key : String} (other : key ≠ "comments") : part w key = part v key := (part_of_bare same other).symm
  refine ⟨sturdy.filled.of_bare (by decide) same, ?_, ?_, ?_, ?_, ?_, ?_, ?_⟩
  · rw [kind, part (by decide), part (by decide)]
    exact sturdy.consequent
  · rw [kind, part (by decide)]
    exact sturdy.otherwise
  · rw [kind, part (by decide)]
    exact sturdy.declarators
  · rw [kind, part (by decide)]
    exact sturdy.members
  · rw [kind, part (by decide)]
    exact sturdy.block
  · rw [kind, ← field?_of_bare same (by decide)]
    exact sturdy.answer
  · rw [kindName, kind, part (by decide)]
    exact sturdy.home

theorem sturdy_literal (made : kind? v = some "Literal") : Sturdy v := by
  have kind := kindName_of_kind? made
  refine ⟨?_, ?_, ?_, ?_, ?_, ?_, ?_, ?_⟩
  · intro key listed
    rw [fieldsIn, kind] at listed
    cases listed
  · simp [made]
  · simp [made]
  · simp [made]
  · simp [made]
  · simp [made]
  · simp [made]
  · intro _
    rw [kind]
    rfl

theorem Sturdy.step (sturdy : Sturdy (.dict es)) (steady : Steady out loose es) (leaves : Leaves bare out loose es es') : Sturdy (.dict es') := by
  have kind := leaves.kind? steady.known
  have filled := sturdy.filled.step steady leaves (by decide)
  -- a list that is not one of statements is not spilled into
  have plain {name : String} (known : kind? (.dict es) = some name) (named : name ≠ "") (other : isScope name = false) :
      isScope (visitedKind loose es) = false := by
    rw [visitedKind_of_kind? known named, other]
  refine ⟨filled, ?_, ?_, ?_, ?_, ?_, ?_, ?_⟩
  · rw [kind]
    intro known mark
    refine (steady.part leaves (by decide)).all (fun _ _ => Stands.enduring) (sturdy.consequent known ?_)
    by_contra other
    have listed (v : Value) (same : kindName v = "IfStatement") : "test" ∈ fieldsIn supports v := by
      rw [fieldsIn, same]
      decide
    have isIf := kindName_of_kind? known
    obtain ⟨name, test⟩ := Option.isSome_iff_exists.mp (by rw [← isNode_eq]; exact sturdy.filled.isNode (listed _ isIf))
    have own : replaceable.contains name = false ∧ yielding.contains name = false := by
      simp_all [mayMark, kindName_of_kind? test]
    have still := steady.part_kind leaves (by decide) test own (filled.isNode (listed _ (by rw [steady.kindName leaves]; exact isIf)))
    rw [mayMark, kindName_of_kind? still, ← kindName_of_kind? test] at mark
    exact other mark
  · rw [kind]
    intro known
    exact (steady.part leaves (by decide)).all (fun _ _ => Stands.vacant) (sturdy.otherwise known)
  · rw [kind]
    intro known
    refine leaves.list_all (by decide) (fun v w same => ?_) (fun l x child declarator y left => ?_) (sturdy.declarators known)
    · rw [hasKind_of_bare same]
      exact id
    · have still := (steady.remains _ x child).of_kind (known_of declarator) (by decide) (by simp) y left
      rw [hasKind, still]
      rfl
  · rw [kind]
    intro known
    refine leaves.list_all (by decide) (fun v w same => ?_) (fun l x child enduring y left => ?_) (sturdy.members known)
    · simpa only [all_eq_true] using (turns_stands.yields_of_bare same).all fun _ _ => Stands.enduring
    · obtain ⟨few, yields⟩ := steady.settles _ x child (.inr (plain known (by decide) rfl))
      obtain ⟨only, whole⟩ := length_eq_one_iff.mp (Nat.le_antisymm few (length_pos_of_mem left))
      rw [whole, mem_singleton] at left
      rw [whole] at yields
      subst left
      exact all_eq_true.mpr (yields.all (fun _ _ => Stands.enduring) (all_eq_true.mp enduring))
  · rw [kind]
    intro known
    refine steady.part_kind leaves (by decide) (sturdy.block known) (by decide) (filled.isNode ?_)
    rw [fieldsIn, steady.kindName leaves]
    rcases known with known | known <;> rw [kindName_of_kind? known] <;> decide
  · rw [kind]
    intro known
    rcases leaves.read "argument" with ⟨missing, -⟩ | ⟨v, w, -, found, -⟩
    · simpa [missing] using sturdy.answer known
    · rw [found]
      rfl
  · intro listed
    rw [steady.kindName leaves]
    refine sturdy.home ?_
    rcases leaves.part_cases (show "body" ≠ "comments" by decide) with ⟨-, child, after⟩ | ⟨items, left, before, -⟩ | same
    · simp [after, steady.single _ child] at listed
    · rw [before]
      rfl
    · rwa [same] at listed

theorem Sturdy.flatten (sturdy : Sturdy (.dict es)) (finished : (flattenNode keepComments loose (.dict es)).fault = none) :
    Sturdy (flattenNode keepComments loose (.dict es)).value := by
  obtain ⟨fields, f, rfl, flat⟩ := flattenNode_finished finished
  exact (sturdy.step flat.steady flat.leaves).of_bare flat.alike.symm

end Sturdy

end Rulewright.Flag
