import Mathlib.Tactic.MkIffOfInductiveProp
import Rulewright.Proofs.Flag.Answers
import Rulewright.Proofs.Flag.Leaves

/-!
Trees that keep to a standard: what the nodes of a script must hold in their fields and in their lists
of statements. A well-formed script has no null there. A walk keeps a tree to a standard exactly if it
leaves no hole (`Tame.run_iff`): every node that stays holds afterwards what it must hold.
-/

open List

namespace Rulewright.Flag

variable {items : List Value}

open Value

def kindName (v : Value) : String := (kind? v).getD ""

structure Outline where
  isNull : Bool
  kind : String
  expression : String
  deriving DecidableEq

def outline (v : Value) : Outline := ⟨v == .null, kindName v, kindName (part v "expression")⟩

structure Standard where
  fields : List (String × List String)
  child : String → Outline → Bool
  statement : Outline → Bool
  children : ∀ e ∈ fields, ∀ key ∈ e.2, isChild (childFields e.1) key = true ∧ key ≠ "comments"
  literals : fields.lookup "Literal" = none
  lists (key : String) : child key (outline (.list [])) = true

def statementLists : List (String × List String) :=
  [("Program", ["body"]), ("BlockStatement", ["body"]), ("SwitchCase", ["consequent"])]

def branches : List (String × List String) :=
  [("IfStatement", ["consequent", "alternate"]), ("ConditionalExpression", ["consequent", "alternate"]),
    ("LogicalExpression", ["left", "right"])]

def fieldsIn (table : List (String × List String)) (v : Value) : List String := (table.lookup (kindName v)).getD []

def entriesOf (v : Value) : Entries := v.dict?.getD []

def isTyped : Value → Bool
  | .dict es => isNode (.dict es)
  | .list items => items.all fun w => w.dict?.isNone || isNode w
  | _ => true

@[mk_iff]
structure Sound (std : Standard) (v : Value) : Prop where
  known : (childFields (kindName v)).isSome = true
  once : ((entriesOf v).map Prod.fst).count "body" ≤ 1
  single : ∀ key ∈ fieldsIn branches v, (part v key).list? = none
  fields : ∀ key ∈ fieldsIn std.fields v, std.child key (outline (part v key)) = true
  statements : ∀ key ∈ fieldsIn statementLists v, (part v key).list?.any (·.all fun w => std.statement (outline w)) = true

@[mk_iff]
structure Complete (std : Standard) (v : Value) : Prop extends Sound std v where
  typed : ∀ e ∈ entriesOf v, isChild (childFields (kindName v)) e.1 = true → isTyped e.2 = true

structure Keeps (std : Standard) (tree : Value) : Prop where
  root : kind? tree = some "Program"
  complete : Everywhere (Complete std) false tree

instance (std : Standard) (v : Value) : Decidable (Sound std v) := decidable_of_iff _ (sound_iff ..).symm

instance (std : Standard) (v : Value) : Decidable (Complete std v) := decidable_of_iff _ (complete_iff ..).symm

instance (std : Standard) (tree : Value) : Decidable (Keeps std tree) :=
  decidable_of_iff (kind? tree = some "Program" ∧ ∀ n ∈ nodesIn never false none tree, Complete std n.2)
    ⟨fun ⟨root, complete⟩ => ⟨root, everywhere_of_parent none complete⟩,
      fun keeps => ⟨keeps.root, keeps.complete none⟩⟩

section Standard

variable {std : Standard} {v w x : Value} {key kind : String} {es : Entries} {loose other : Bool} {P : Value → Prop}

theorem kindName_of_kind? (known : kind? v = some kind) : kindName v = kind := by
  rw [kindName, known, Option.getD_some]

theorem kind?_of_kindName (named : kindName v = kind) (different : kind ≠ "") : kind? v = some kind := by
  unfold kindName at named
  cases known : kind? v with
  | none => exact (different (by rw [← named, known]; rfl)).elim
  | some name => rw [← named, known]; rfl

theorem kindName_of_bare (same : bare v = bare w) : kindName v = kindName w := by
  rw [kindName, kindName, kind?_of_bare same]

theorem Sound.kind? (sound : Sound std v) : Flag.kind? v = some (kindName v) ∧ kindName v ≠ "" := by
  have known := sound.known
  unfold kindName at known ⊢
  cases kind : Flag.kind? v with
  | none => simp [kind, show childFields "" = none from by decide] at known
  | some name =>
    refine ⟨rfl, ?_⟩
    rintro rfl
    simp [kind, show childFields "" = none from by decide] at known

theorem Sound.visitedKind (sound : Sound std (.dict es)) (loose : Bool) : visitedKind loose es = kindName (.dict es) :=
  visitedKind_of_kind? sound.kind?.1 sound.kind?.2

theorem Complete.isNode (complete : Complete std v) : isNode v := isNode_of_kind? complete.kind?.1

theorem fieldsIn_all {table : List (String × List String)} {Q : String → String → Prop}
    (all : ∀ e ∈ table, ∀ key ∈ e.2, Q e.1 key) (listed : key ∈ fieldsIn table v) : Q (kindName v) key := by
  unfold fieldsIn at listed
  cases found : table.lookup (kindName v) with
  | none => simp [found] at listed
  | some fields =>
    rw [found] at listed
    exact all _ (mem_of_lookup found) key listed

theorem fieldsIn_of_bare (table : List (String × List String)) (same : bare v = bare w) :
    fieldsIn table v = fieldsIn table w := by
  rw [fieldsIn, fieldsIn, kindName_of_bare same]

theorem Standard.fields_child (watched : key ∈ fieldsIn std.fields v) :
    isChild (childFields (kindName v)) key ∧ key ≠ "comments" :=
  fieldsIn_all (Q := fun kind key => isChild (childFields kind) key ∧ key ≠ "comments") std.children watched

theorem branches_child (listed : key ∈ fieldsIn branches v) :
    isChild (childFields (kindName v)) key ∧ key ≠ "comments" :=
  fieldsIn_all (Q := fun kind key => isChild (childFields kind) key ∧ key ≠ "comments") (by decide) listed

theorem statementLists_child (listed : key ∈ fieldsIn statementLists v) :
    isChild (childFields (kindName v)) key ∧ isPropertyList (kindName v) key = false ∧ key ≠ "comments" :=
  fieldsIn_all (Q := fun kind key =>
    isChild (childFields kind) key ∧ isPropertyList kind key = false ∧ key ≠ "comments") (by decide) listed

def Good (std : Standard) (c : Value) : Prop :=
  Everywhere (Complete std) false c ∧ ∀ items, c = .list items → ∀ w ∈ items, Everywhere (Complete std) false w

theorem everywhere_self (everywhere : Everywhere P loose (.dict es)) : P (.dict es) :=
  (everywhere_below.mp everywhere).1

theorem Sound.below (sound : Sound std (.dict es)) {l : Bool} (below : Below loose es l v) : Below other es l v := by
  have same : Flag.visitedKind loose es = Flag.visitedKind other es := by rw [sound.visitedKind, sound.visitedKind]
  cases below with
  | single held child node => exact .single held (same ▸ child) node
  | listed held child inside visited =>
    rw [same] at child visited ⊢
    exact .listed held child inside visited

theorem everywhere_other (complete : Everywhere (Complete std) loose v) (all : Everywhere P loose v) :
    Everywhere P other v := by
  cases v with
  | dict es =>
    obtain ⟨here, below⟩ := everywhere_below.mp all
    exact everywhere_below.mpr ⟨here, fun l x inside => below l x ((everywhere_self complete).below inside)⟩
  | _ => exact everywhere_leaf (by simp)

theorem everywhere_loose (everywhere : Everywhere (Complete std) loose v) : Everywhere (Complete std) other v :=
  everywhere_other everywhere everywhere

theorem isNode_single (node : isNode v) (items : List Value) : v ≠ .list items := by
  rintro rfl
  cases node

section

variable (sound : Sound std (.dict es)) (child : isChild (childFields (kindName (.dict es))) key)
include sound child

theorem Sound.below_single (held : (key, v) ∈ es) (node : isNode v) : Below loose es false v :=
  .single held (by rwa [sound.visitedKind]) node

theorem Sound.below_listed (held : (key, .list items) ∈ es) (inside : v ∈ items) (node : isNode v) :
    Below loose es (isPropertyList (kindName (.dict es)) key) v := by
  rw [← sound.visitedKind loose] at child ⊢
  exact .listed held child inside (isVisited_node node)

end

theorem everywhere_complete :
    Everywhere (Complete std) loose (.dict es) ↔
      Sound std (.dict es) ∧ ∀ e ∈ es, isChild (childFields (kindName (.dict es))) e.1 → Good std e.2 := by
  constructor
  · intro everywhere
    obtain ⟨self, below⟩ := everywhere_below.mp everywhere
    refine ⟨self.toSound, fun e member child => ?_⟩
    have typed := self.typed e member child
    refine ⟨?_, fun items whole w inside => ?_⟩
    · cases held : e.2 with
      | dict es' =>
        rw [held] at typed
        exact below _ _ (self.toSound.below_single child (held ▸ member) typed)
      | _ => exact everywhere_leaf (by simp)
    · cases w with
      | dict es' =>
        have node : isNode (.dict es') := by
          rw [whole] at typed
          simpa [dict?] using all_eq_true.mp typed _ inside
        exact everywhere_loose (below _ _ (self.toSound.below_listed child (whole ▸ member) inside node))
      | _ => exact everywhere_leaf (by simp)
  · rintro ⟨sound, children⟩
    refine everywhere_below.mpr ⟨⟨sound, fun e member child => ?_⟩, fun l v below => ?_⟩
    · obtain ⟨alone, inside⟩ := children e member child
      cases held : e.2 with
      | dict es' =>
        rw [held] at alone
        exact (everywhere_self alone).isNode
      | list items =>
        refine all_eq_true.mpr fun w element => ?_
        have complete := inside items held w element
        cases w with
        | dict es' => simp [(everywhere_self complete).isNode]
        | _ => simp [dict?]
      | _ => rfl
    · cases below with
      | single held child =>
        rw [sound.visitedKind] at child
        exact (children _ held child).1
      | listed held child inside =>
        rw [sound.visitedKind] at child
        exact everywhere_loose ((children _ held child).2 _ rfl v inside)

theorem everywhere_statements (complete : Everywhere (Complete std) loose (.dict es))
    (listed : key ∈ fieldsIn statementLists (.dict es)) :
    ∃ items, part (.dict es) key = .list items ∧
      ∀ w ∈ items, Everywhere (Complete std) false w ∧ std.statement (outline w) := by
  obtain ⟨sound, children⟩ := everywhere_complete.mp complete
  obtain ⟨items, held, statements⟩ := list?_any.mp (sound.statements key listed)
  have good := children _ (mem_of_part held) (statementLists_child listed).1
  exact ⟨items, held, fun w inside => ⟨good.2 items rfl w inside, all_eq_true.mp statements w inside⟩⟩

theorem count_erase (es : Entries) :
    ((Entries.erase "comments" es).map Prod.fst).count "body" = (es.map Prod.fst).count "body" := by
  induction es with
  | nil => rfl
  | cons e rest ih =>
    obtain ⟨key, v⟩ := e
    unfold Entries.erase at ih ⊢
    by_cases comments : key = "comments"
    · simp [comments, ih]
    · simp [comments, count_cons, ih]

theorem bodies_of_bare (same : bare v = bare w) :
    ((entriesOf v).map Prod.fst).count "body" = ((entriesOf w).map Prod.fst).count "body" := by
  cases w with
  | dict es =>
    obtain ⟨es', rfl, alike⟩ := bare_eq_dict same
    simp only [entriesOf, dict?, Option.getD_some]
    rw [← count_erase, alike, count_erase]
  | _ => cases v <;> simp_all [bare, unset]

theorem sound_of_bare (same : bare v = bare w) (sound : Sound std v) : Sound std w := by
  have kind : kindName w = kindName v := (kindName_of_bare same).symm
  refine ⟨by rw [kind]; exact sound.known, bodies_of_bare same ▸ sound.once, ?_, ?_, ?_⟩
  · intro key listed
    rw [← part_of_bare same (branches_child listed).2]
    exact sound.single key (by rwa [fieldsIn_of_bare _ same])
  · intro key watched
    rw [← part_of_bare same (Standard.fields_child watched).2]
    exact sound.fields key (by rwa [fieldsIn_of_bare _ same])
  · intro key listed
    rw [← part_of_bare same (statementLists_child listed).2.2]
    exact sound.statements key (by rwa [fieldsIn_of_bare _ same])

theorem everywhere_of_bare (same : bare v = bare w) (everywhere : Everywhere (Complete std) loose v) :
    Everywhere (Complete std) loose w := by
  cases w with
  | dict es =>
    obtain ⟨es', rfl, alike⟩ := bare_eq_dict same
    obtain ⟨sound, children⟩ := everywhere_complete.mp everywhere
    refine everywhere_complete.mpr ⟨sound_of_bare same sound, fun e member child => ?_⟩
    rw [← kindName_of_bare same] at child
    refine children e ?_ child
    have different : e.1 ≠ "comments" := by
      intro comments
      obtain ⟨fields, known⟩ := Option.isSome_iff_exists.mp sound.known
      rw [known, comments, isChild, childFields_contains known (by decide) (by decide)] at child
      cases child
    have kept : e ∈ Entries.erase "comments" es' := by
      rw [alike]
      exact mem_filter.mpr ⟨member, by simpa using different⟩
    exact mem_of_mem_filter kept
  | _ => exact everywhere_leaf (by simp)

theorem outline_of_bare (same : bare v = bare w) : outline v = outline w := by
  have null : (v == .null) = (w == .null) := by
    cases v <;> cases w <;> simp_all [bare, unset]
  rw [outline, outline, null, kindName_of_bare same, part_of_bare same (by decide)]

theorem all_of_bare {xs ys : List Value} {q : Outline → Bool} (alike : xs.map bare = ys.map bare) :
    (xs.all fun x => q (outline x)) = ys.all fun y => q (outline y) := by
  have same : xs.map outline = ys.map outline := map_of_bare (fun _ _ => outline_of_bare) alike
  simpa [Function.comp_def] using congrArg (List.all · q) same

theorem everywhere_map_bare {xs ys : List Value} (alike : xs.map bare = ys.map bare)
    (all : ∀ x ∈ xs, Everywhere (Complete std) false x) : ∀ y ∈ ys, Everywhere (Complete std) false y := by
  intro y member
  obtain ⟨x, inside, same⟩ := mem_map.mp (alike ▸ mem_map_of_mem member)
  exact everywhere_of_bare same (all x inside)

end Standard

section Leaves

variable {std : Standard} {loose : Bool} {key : String} {x : Value} {es es' : Entries} {spot : Spot} {out : Spot → Value → List Value}

theorem Child.isNode (child : Child loose es .only x) : isNode x := by
  obtain ⟨_, _, _, -, within⟩ := child
  cases within with
  | only _ node => exact node

theorem Child.complete (child : Child loose es spot x) {std : Standard} (complete : Everywhere (Complete std) loose (.dict es)) :
    Everywhere (Complete std) spot.loose x := by
  obtain ⟨sound, children⟩ := everywhere_complete.mp complete
  obtain ⟨key, v, held, -, within⟩ := child
  rw [sound.visitedKind] at within
  cases within with
  | only child => exact (children _ held child).1
  | row child inside => exact everywhere_loose ((children _ held child).2 _ rfl x inside)

/-- A step keeps a node to a standard, if it fills what must be filled and keeps to the standard what it leaves below. -/
theorem Leaves.complete_iff (leaves : Leaves bare out loose es es') (complete : Everywhere (Complete std) loose (.dict es))
    (alone : ∀ x, Child loose es .only x → out .only x = [] ∨ ∃ y, out .only x = [y] ∧ y.list? = none) :
    Everywhere (Complete std) false (.dict es') ↔
      (∀ key ∈ fieldsIn std.fields (.dict es), std.child key (outline (part (.dict es') key))) ∧
      (∀ key ∈ fieldsIn statementLists (.dict es), (part (.dict es') key).list?.any (·.all fun w => std.statement (outline w))) ∧
      ∀ spot x, Child loose es spot x → ∀ y ∈ out spot x, Everywhere (Complete std) false y := by
  obtain ⟨sound, children⟩ := everywhere_complete.mp complete
  have kind : kindName (.dict es') = kindName (.dict es) := kindName_of_kind? (leaves.kind?_of sound.kind?.1)
  have same (table : List (String × List String)) : fieldsIn table (.dict es') = fieldsIn table (.dict es) := by
    rw [fieldsIn, fieldsIn, kind]
  have other {key : String} (child : isChild (childFields (kindName (.dict es))) key) := isChild_comments sound.known child
  have visited := sound.visitedKind loose
  rw [everywhere_complete, kind]
  constructor
  · rintro ⟨soundAfter, childrenAfter⟩
    refine ⟨fun key watched => soundAfter.fields key (by rwa [same]), fun key listed => soundAfter.statements key (by rwa [same]), fun spot x child y left => ?_⟩
    have isOnly := alone x
    obtain ⟨key, v, held, -, within⟩ := id child
    obtain ⟨⟨_, w⟩, heldAfter, named, field⟩ := forall₂_mem_left leaves held
    cases named
    dsimp only at field
    rw [visited] at within field
    cases within with
    | only isChild node =>
      have good := (childrenAfter _ heldAfter isChild).1
      cases field with
      | only =>
        rcases isOnly child with none | ⟨z, single, -⟩
        · simp [none] at left
        · rw [single] at left good
          exact mem_singleton.mp left ▸ good
      | same untouched => simp [isChild, node] at untouched
      | row => cases node
      | aside => cases node
    | row isChild inside =>
      have good := (childrenAfter _ heldAfter isChild).2
      cases field with
      | only _ node => cases node
      | row _ kept => exact everywhere_map_bare kept (good _ rfl) y (mem_flatMap.mpr ⟨x, inside, left⟩)
      | same untouched => simp [isChild] at untouched
      | aside _ aside => simp [isChild] at aside
  · rintro ⟨fields, statements, below⟩
    refine ⟨⟨by rw [kind]; exact sound.known, ?_, fun key branch => ?_, fun key watched => fields key (by rwa [← same]),
      fun key listed => statements key (by rwa [← same])⟩, fun e' heldAfter child => ?_⟩
    · have once := sound.once
      simp only [entriesOf, dict?, Option.getD_some] at once ⊢
      rwa [leaves.keys]
    · rw [same] at branch
      have single := sound.single key branch
      rcases leaves.part_cases (branches_child branch).2 with ⟨-, child, after⟩ | ⟨items, _, before, -⟩ | unchanged
      · rw [after]
        rcases alone _ child with none | ⟨y, only, leaf⟩
        · rw [none]
          rfl
        · rw [only]
          exact leaf
      · rw [before] at single
        cases single
      · rwa [unchanged]
    · obtain ⟨⟨key, c⟩, held, named, field⟩ := forall₂_mem_right leaves heldAfter
      obtain ⟨_, w⟩ := e'
      cases named
      have inner {spot : Spot} {x : Value} (within : Within (visitedKind loose es) key c spot x) : Child loose es spot x :=
        ⟨key, c, held, other child, within⟩
      cases field with
      | only isChild node =>
        rcases alone c (inner (.only isChild node)) with none | ⟨y, only, leaf⟩
        · rw [none]
          exact ⟨everywhere_leaf (by rintro _ ⟨⟩), by rintro _ ⟨⟩⟩
        · rw [only]
          refine ⟨below _ c (inner (.only isChild node)) y (by simp [only]), ?_⟩
          rintro _ rfl
          cases leaf
      | row isChild kept =>
        refine ⟨everywhere_leaf (by rintro _ ⟨⟩), ?_⟩
        rintro _ ⟨⟩
        refine everywhere_map_bare kept.symm fun y remains => ?_
        obtain ⟨x, inside, left⟩ := mem_flatMap.mp remains
        exact below _ x (inner (.row isChild inside)) y left
      | same => exact children _ held child
      | aside _ aside => simp [visited, child] at aside

end Leaves

section After

variable {std : Standard} {p : Pass} {loose : Bool} {kind key : String} {c c' v x : Value} {es es' : Entries}

theorem mem_leftOf : x ∈ leftOf p loose items ↔ ∃ w ∈ items, (walkItem p loose w).value.left? = some x := by
  simp [leftOf]

section

variable (after : After p bare loose es es')
include after

theorem After.kindName (sound : Sound std (.dict es)) : Flag.kindName (.dict es') = Flag.kindName (.dict es) :=
  kindName_of_kind? (after.kind? sound.kind?.1)

theorem After.list (sound : Sound std (.dict es)) (child : isChild (childFields (Flag.kindName (.dict es))) key)
    (held : Flag.part (.dict es) key = .list items) :
    ∃ left, Flag.part (.dict es') key = .list left ∧
      left.map bare = (leftOf p (isPropertyList (Flag.kindName (.dict es)) key) items).map bare ∧
      ∀ w ∈ items, (walkItem p (isPropertyList (Flag.kindName (.dict es)) key) w).fault = none := by
  have read : Entries.get? key es = some (.list items) := by
    simp only [Flag.part, field?] at held
    cases read : Entries.get? key es <;> simp_all
  rw [← sound.visitedKind loose] at child ⊢
  obtain ⟨fine, left, found, kept⟩ := after.get?_list child read
  exact ⟨left, by simp [Flag.part, field?, found], kept, fine⟩

theorem After.child (sound : Sound std (.dict es)) (watched : key ∈ fieldsIn std.fields (.dict es)) :
    std.child key (outline (Flag.part (.dict es') key)) = std.child key (outline (walkItem p false (Flag.part (.dict es) key)).value.slot) := by
  have child := (Standard.fields_child watched).1
  by_cases listed : ∃ items, Flag.part (.dict es) key = .list items
  · obtain ⟨items, held⟩ := listed
    obtain ⟨left, found, -⟩ := after.list sound child held
    rw [found, held]
    exact (std.lists key).trans (std.lists key).symm
  · rw [← sound.visitedKind loose] at child
    rw [(after.part child fun items held => listed ⟨items, held⟩).2]

theorem After.statements (sound : Sound std (.dict es)) (listed : key ∈ fieldsIn statementLists (.dict es)) :
    (Flag.part (.dict es') key).list?.any (·.all fun w => std.statement (outline w)) ↔
      ∀ items, Flag.part (.dict es) key = .list items → ∀ w ∈ items, ∀ x,
        (walkItem p false w).value.left? = some x → std.statement (outline x) := by
  obtain ⟨child, plain, -⟩ := statementLists_child listed
  obtain ⟨items, held, -⟩ := list?_any.mp (sound.statements key listed)
  obtain ⟨left, found, kept, -⟩ := after.list sound child held
  rw [plain] at kept
  rw [found]
  simp only [Value.list?, Option.any_some, all_of_bare kept, all_eq_true, mem_leftOf]
  constructor
  · intro good items' held' w inside x remains
    cases held.symm.trans held'
    exact good x ⟨w, inside, remains⟩
  · rintro good x ⟨w, inside, remains⟩
    exact good items held w inside x remains

end

end After

inductive Hole (std : Standard) (p : Pass) : Bool → Value → Prop where
  | field {loose : Bool} {es : Entries} {key : String} (stays : (walkNode p loose (.dict es)).value.fate = .stays)
      (watched : key ∈ fieldsIn std.fields (.dict es))
      (gone : std.child key (outline (walkItem p false (part (.dict es) key)).value.slot) = false) : Hole std p loose (.dict es)
  | element {loose : Bool} {es : Entries} {key : String} {items : List Value} {w x : Value}
      (stays : (walkNode p loose (.dict es)).value.fate = .stays) (listed : key ∈ fieldsIn statementLists (.dict es))
      (held : part (.dict es) key = .list items) (inside : w ∈ items)
      (remains : (walkItem p false w).value.left? = some x) (gone : std.statement (outline x) = false) : Hole std p loose (.dict es)
  | child {loose : Bool} {es : Entries} {key : String} {c : Value}
      (stays : (walkNode p loose (.dict es)).value.fate = .stays) (held : (key, c) ∈ es)
      (child : isChild (childFields (kindName (.dict es))) key = true) (node : isNode c = true)
      (below : Hole std p false c) : Hole std p loose (.dict es)
  | item {loose : Bool} {es : Entries} {key : String} {items : List Value} {w : Value}
      (stays : (walkNode p loose (.dict es)).value.fate = .stays) (held : (key, .list items) ∈ es)
      (child : isChild (childFields (kindName (.dict es))) key = true) (inside : w ∈ items) (node : isNode w = true)
      (below : Hole std p (isPropertyList (kindName (.dict es)) key) w) : Hole std p loose (.dict es)
  | branch {loose : Bool} {es : Entries} {key : String} {w : Value} (kept : (p.enter (.dict es)).action = .keep)
      (becomes : (walkNode p loose (.dict es)).value.fate = .becomes w)
      (listed : key ∈ fieldsIn branches (.dict es)) (node : isNode (part (.dict es) key) = true)
      (taken : bare w = bare (walkNode p false (part (.dict es) key)).value.slot)
      (below : Hole std p false (part (.dict es) key)) : Hole std p loose (.dict es)

def yielding : List String := branches.map Prod.fst

def droppable : List String :=
  ["IfStatement", "ConditionalExpression", "VariableDeclaration", "VariableDeclarator", "FunctionDeclaration"]

def Outline.isSteady (o : Outline) : Bool :=
  !(yielding ++ droppable).contains o.kind &&
    (o.kind != "ExpressionStatement" || !("AssignmentExpression" :: yielding).contains o.expression)

inductive Verdict (std : Standard) (v : Value) : Action → Prop where
  | keep : Verdict std v .keep
  | put {w : Value} (inner : kind? v ≠ some "Program") (made : kind? w = some "Literal") (complete : Complete std w) :
      Verdict std v (.put w)
  | drop {carry : Carry} (fleeting : (outline v).isSteady = false) : Verdict std v (.drop carry)

structure Branch (v : Value) (key : String) (w : Value) : Prop where
  listed : key ∈ fieldsIn branches v
  taken : bare w = bare (part v key)
  chosen : kind? v = some "IfStatement" → key = "alternate" → part v key ≠ .null

structure Tame (std : Standard) (p : Pass) : Prop where
  enter {v : Value} : Complete std v → (p.enter v).fault = none → Verdict std v (p.enter v).action
  leave {v : Value} : (p.leave v).fault = none →
    Verdict std v (p.leave v).action ∧ ((p.leave v).action = .keep → (p.leave v).node = v) ∨
      ∃ w key, (p.leave v).action = .put w ∧ Branch v key w

section Tame

variable {std : Standard} {p : Pass} {loose : Bool} {es : Entries} {v w tree : Value} {es' : Entries} {key : String}

theorem everywhere_literal (made : kind? w = some "Literal") (complete : Complete std w) :
    Everywhere (Complete std) loose w := by
  obtain ⟨es, rfl⟩ := isNode_dict complete.isNode
  refine everywhere_complete.mpr ⟨complete.toSound, fun e _ child => ?_⟩
  rw [kindName_of_kind? made] at child
  cases child

inductive Ending (std : Standard) (p : Pass) (loose : Bool) (es : Entries) : Walked → Prop where
  | stay {es' : Entries} (after : After p bare loose es es') : Ending std p loose es { node := .dict es', fate := .stays }
  | put {node w : Value} (walked : (p.enter (.dict es)).action = .keep → ∃ es', After p bare loose es es')
      (inner : kind? (.dict es) ≠ some "Program") (made : kind? w = some "Literal") (complete : Complete std w) :
      Ending std p loose es { node, fate := .becomes w }
  | branch {es' : Entries} {node w : Value} {key : String} (kept : (p.enter (.dict es)).action = .keep)
      (after : After p bare loose es es') (branch : Branch (.dict es') key w) :
      Ending std p loose es { node, fate := .becomes w }
  | drop {node : Value} {carry : Carry}
      (fleeting : (outline (.dict es)).isSteady = false ∨ ∃ es', After p bare loose es es' ∧ (outline (.dict es')).isSteady = false) :
      Ending std p loose es { node, fate := .goes carry }

theorem Sound.view (sound : Sound std (.dict es)) :
    p.Retains ∨ Coarse bare ∧ (p.CarriesNothing ∨ (es.map Prod.fst).count "body" ≤ 1) := .inr ⟨coarse_bare, .inr sound.once⟩

theorem Tame.ending (tame : Tame std p) (complete : Complete std (.dict es))
    (finished : (walkNode p loose (.dict es)).fault = none) : Ending std p loose es (walkNode p loose (.dict es)).value := by
  obtain ⟨entered, ⟨decided, value⟩ | ⟨kept, -, es', after, left, value⟩⟩ := walkNode_cases complete.view finished
  · rw [value, Reply.outcome]
    have verdict := tame.enter complete entered
    generalize entry : (p.enter (.dict es)).action = action at decided verdict ⊢
    cases verdict with
    | keep => exact (decided rfl).elim
    | put inner made complete => exact .put (fun kept => by simp [kept] at entry) inner made complete
    | drop fleeting => exact .drop (Or.inl fleeting)
  · rw [value, Reply.outcome]
    rcases tame.leave left with ⟨verdict, same⟩ | ⟨w, key, put, branch⟩
    · generalize (p.leave (.dict es')).action = action at same verdict ⊢
      cases verdict with
      | keep =>
        rw [same rfl]
        exact .stay after
      | put inner made complete' =>
        exact .put (fun _ => ⟨es', after⟩) (fun root => inner (after.kind? root)) made complete'
      | drop fleeting => exact .drop (Or.inr ⟨es', after, fleeting⟩)
    · rw [put]
      exact .branch kept after branch

theorem part_typed (complete : Complete std (.dict es))
    (child : isChild (childFields (kindName (.dict es))) key) : isTyped (part (.dict es) key) := by
  simp only [part, field?]
  cases read : Entries.get? key es with
  | none => rfl
  | some c => exact complete.typed (key, c) (Entries.mem_of_get? read) child

theorem After.branch (after : After p bare loose es es') (sound : Sound std (.dict es)) (listed : key ∈ fieldsIn branches (.dict es)) :
    (walkItem p false (Flag.part (.dict es) key)).fault = none ∧
      Flag.part (.dict es') key = (walkItem p false (Flag.part (.dict es) key)).value.slot := by
  have child := (branches_child listed).1
  rw [← sound.visitedKind loose] at child
  refine after.part child fun items held => ?_
  have := sound.single key listed
  simp [held, Value.list?] at this

theorem Branch.before (branch : Branch (.dict es') key w) (after : After p bare loose es es')
    (sound : Sound std (.dict es)) :
    key ∈ fieldsIn branches (.dict es) ∧ (walkItem p false (part (.dict es) key)).fault = none ∧
      bare w = bare (walkItem p false (part (.dict es) key)).value.slot := by
  have listed : key ∈ fieldsIn branches (.dict es) := by
    have := branch.listed
    rwa [fieldsIn, after.kindName sound] at this
  obtain ⟨clean, found⟩ := after.branch sound listed
  exact ⟨listed, clean, by rw [branch.taken, found]⟩

theorem bare_eq_list (same : bare v = bare (.list items)) : v = .list items := by
  cases v <;> simp_all [bare, unset]

theorem Tame.slot_single (tame : Tame std p) (complete : Everywhere (Complete std) loose v) (single : ∀ items, v ≠ .list items)
    (finished : (walkNode p loose v).fault = none) (items : List Value) : (walkNode p loose v).value.slot ≠ .list items := by
  induction loose, v using below_induction generalizing items with
  | leaf loose v leaf => cases v <;> first | exact (leaf _ rfl).elim | exact (single _ rfl).elim | rintro ⟨⟩
  | node loose es ih =>
    have self := everywhere_self complete
    have ending := tame.ending self finished
    generalize (walkNode p loose (.dict es)).value = walked at ending
    cases ending with
    | stay => rintro ⟨⟩
    | put _ _ _ made =>
      obtain ⟨es', rfl⟩ := isNode_dict made.isNode
      rintro ⟨⟩
    | drop => rintro ⟨⟩
    | branch _ after branch =>
      obtain ⟨listed, clean, alike⟩ := branch.before after self.toSound
      rintro rfl
      have slot := bare_eq_list alike.symm
      cases node : isNode (part (.dict es) _) with
      | true =>
        have below : Below loose es false _ := self.toSound.below_single (branches_child listed).1 (mem_of_isNode_part node) node
        rw [walkItem_node node] at clean slot
        exact ih _ _ below ((everywhere_below.mp complete).2 _ _ below) (isNode_single node) clean _ slot
      | false =>
        have alone := self.single _ listed
        rw [walkItem_leaf node] at slot
        simp [show part (.dict es) _ = .list _ from slot, Value.list?] at alone

theorem forall₂_forall_mem {α β : Type} {R : α → β → Prop} {Q : α → Prop} {S : β → Prop} {xs : List α} {ys : List β}
    (related : List.Forall₂ R xs ys) (same : ∀ x ∈ xs, ∀ y, R x y → (S y ↔ Q x)) :
    (∀ y ∈ ys, S y) ↔ ∀ x ∈ xs, Q x := by
  induction related with
  | nil => simp
  | cons first _ ih =>
    rw [forall_mem_cons, forall_mem_cons, same _ mem_cons_self _ first,
      ih fun x inside => same x (mem_cons_of_mem _ inside)]

theorem After.alone (tame : Tame std p) (complete : Everywhere (Complete std) loose (.dict es)) (after : After p bare loose es es')
    (c : Value) (child : Child loose es .only c) : (walkAt p .only c).value = [] ∨ ∃ y, (walkAt p .only c).value = [y] ∧ y.list? = none := by
  have fine := after.inner child
  rw [walkAt_visited (isVisited_node child.isNode)] at fine ⊢
  have single := tame.slot_single (child.complete complete) (isNode_single child.isNode) fine
  show (walkNode p false c).value.left?.toList = [] ∨ ∃ y, (walkNode p false c).value.left?.toList = [y] ∧ y.list? = none
  rw [Spot.loose, Walked.slot] at single
  cases left : (walkNode p false c).value.left? with
  | none => exact Or.inl rfl
  | some y =>
    rw [left] at single
    refine Or.inr ⟨y, rfl, ?_⟩
    cases y <;> first | rfl | exact (single _ rfl).elim

theorem After.complete_iff (tame : Tame std p) (complete : Everywhere (Complete std) loose (.dict es)) (after : After p bare loose es es') :
    Everywhere (Complete std) false (.dict es') ↔
      (∀ key ∈ fieldsIn std.fields (.dict es), std.child key (outline (walkItem p false (Flag.part (.dict es) key)).value.slot)) ∧
      (∀ key ∈ fieldsIn statementLists (.dict es), ∀ items, Flag.part (.dict es) key = .list items → ∀ w ∈ items, ∀ x,
        (walkItem p false w).value.left? = some x → std.statement (outline x)) ∧
      ∀ l v, Below loose es l v → Everywhere (Complete std) false (walkNode p l v).value.slot := by
  have sound := (everywhere_self complete).toSound
  have fields (key : String) (watched : key ∈ fieldsIn std.fields (.dict es)) := after.child sound watched
  have statements (key : String) (listed : key ∈ fieldsIn statementLists (.dict es)) := after.statements sound listed
  rw [after.leaves.complete_iff complete (after.alone tame complete)]
  refine and_congr (forall₂_congr fun key watched => by rw [fields key watched]) (and_congr (forall₂_congr statements) ?_)
  -- what is hidden from the walk is no table, and nothing is asked of it
  have left {spot : Spot} {x : Value} : (∀ y ∈ (walkAt p spot x).value, Everywhere (Complete std) false y) ↔
      Everywhere (Complete std) false (walkItem p spot.loose x).value.slot := by
    show (∀ y ∈ (walkItem p spot.loose x).value.left?.toList, _) ↔ _
    rw [Walked.slot]
    cases (walkItem p spot.loose x).value.left? with
    | none => simp [everywhere_leaf]
    | some y => simp
  constructor
  · intro all l v below
    obtain ⟨spot, rfl, child⟩ := below.child (by rw [sound.visitedKind]; exact sound.known)
    have slot := left.mp (all spot v child)
    rwa [walkItem, if_pos below.visited] at slot
  · intro all spot x child
    refine left.mpr ?_
    rw [walkItem]
    split
    · rename_i visited
      exact all _ x (child.below visited)
    · rename_i hidden
      refine everywhere_leaf fun fields table => hidden ?_
      have whole := child.complete complete
      rw [show x = .dict fields from table] at whole ⊢
      exact isVisited_node (everywhere_self whole).isNode

theorem Complete.branch_slot (complete : Complete std (.dict es)) (listed : key ∈ fieldsIn branches (.dict es))
    (below : Flag.isNode (part (.dict es) key) → Everywhere (Complete std) false (walkNode p false (part (.dict es) key)).value.slot) :
    Everywhere (Complete std) false (walkItem p false (part (.dict es) key)).value.slot := by
  cases node : Flag.isNode (part (.dict es) key) with
  | true =>
    rw [walkItem_node node]
    exact below node
  | false =>
    rw [walkItem_leaf node]
    refine everywhere_leaf fun es' whole => ?_
    have typed := part_typed complete (branches_child listed).1
    rw [show part (.dict es) key = .dict es' from whole] at typed node
    simp [isTyped, node] at typed

theorem Hole.becomes (hole : Hole std p loose (.dict es))
    (becomes : (walkNode p loose (.dict es)).value.fate = .becomes w) :
    ∃ key ∈ fieldsIn branches (.dict es), isNode (part (.dict es) key) ∧ (p.enter (.dict es)).action = .keep ∧
      bare w = bare (walkNode p false (part (.dict es) key)).value.slot ∧ Hole std p false (part (.dict es) key) := by
  cases hole with
  | field stays => simp [becomes] at stays
  | element stays => simp [becomes] at stays
  | child stays => simp [becomes] at stays
  | item stays => simp [becomes] at stays
  | branch kept becomes' listed node taken below =>
    obtain rfl : w = _ := by simpa [becomes] using becomes'
    exact ⟨_, listed, node, kept, taken, below⟩

theorem Tame.slot_iff (tame : Tame std p) (complete : Everywhere (Complete std) loose v)
    (finished : (walkNode p loose v).fault = none) :
    Everywhere (Complete std) false (walkNode p loose v).value.slot ↔ ¬Hole std p loose v := by
  induction loose, v using below_induction with
  | leaf loose v leaf =>
    refine ⟨fun _ hole => by cases hole <;> exact leaf _ rfl, fun _ => ?_⟩
    cases v <;> first | exact (leaf _ rfl).elim | exact everywhere_leaf (by rintro _ ⟨⟩)
  | node loose es ih =>
    have self := everywhere_self complete
    have sound := self.toSound
    have ending := tame.ending self finished
    have below {es' : Entries} (after : After p bare loose es es') {l : Bool} {v : Value} (inside : Below loose es l v) :=
      ih l v inside ((everywhere_below.mp complete).2 l v inside) (after.below inside)
    -- what takes the place of the node fills it, if the child it comes from has no hole
    have filled {w : Value} (becomes : (walkNode p loose (.dict es)).value.fate = .becomes w)
        (walked : (p.enter (.dict es)).action = .keep → ∃ es', After p bare loose es es')
        (whole : Everywhere (Complete std) false w) : ¬Hole std p loose (.dict es) := by
      intro hole
      obtain ⟨key, isBranch, node, kept, taken, inner⟩ := hole.becomes becomes
      obtain ⟨es', after⟩ := walked kept
      exact (below after (sound.below_single (branches_child isBranch).1 (mem_of_isNode_part node) node)).mp
        (everywhere_of_bare taken whole) inner
    generalize walked : (walkNode p loose (.dict es)).value = w at ending
    cases ending with
    | stay after =>
      refine (after.complete_iff tame complete).trans ⟨?_, fun none => ⟨fun key watched => ?_, ?_, fun l v inside => ?_⟩⟩
      · rintro ⟨fields, statements, children⟩ hole
        cases hole with
        | field _ watched gone => simp [fields _ watched] at gone
        | element _ listed held inside remains gone => simp [statements _ listed _ held _ inside _ remains] at gone
        | child _ held isChild node inner =>
          have inside : Below loose es _ _ := sound.below_single isChild held node
          exact (below after inside).mp (children _ _ inside) inner
        | item _ held isChild inside node inner =>
          have inside : Below loose es _ _ := sound.below_listed isChild held inside node
          exact (below after inside).mp (children _ _ inside) inner
        | branch _ becomes => simp [walked] at becomes
      · by_contra gone
        exact none (.field (by rw [walked]) watched (by simpa using gone))
      · intro key listed items held w inside x remains
        by_contra gone
        exact none (.element (by rw [walked]) listed held inside remains (by simpa using gone))
      · refine (below after inside).mpr fun inner => none ?_
        obtain ⟨fields, rfl⟩ : ∃ fields, v = .dict fields := by cases inner <;> exact ⟨_, rfl⟩
        have node := (everywhere_self ((everywhere_below.mp complete).2 l _ inside)).isNode
        cases inside with
        | single held isChild =>
          rw [sound.visitedKind] at isChild
          exact .child (by rw [walked]) held isChild node inner
        | listed held isChild element =>
          rw [sound.visitedKind] at isChild inner
          exact .item (by rw [walked]) held isChild element node inner
    | put below _ made whole =>
      have literal : Everywhere (Complete std) false _ := everywhere_literal made whole
      exact ⟨fun _ => filled (by rw [walked]) below literal, fun _ => literal⟩
    | drop => exact ⟨fun _ hole => by cases hole <;> simp_all, fun _ => everywhere_leaf (by simp [Walked.slot, Walked.left?])⟩
    | @branch _ _ w key kept after branch =>
      have becomes : (walkNode p loose (.dict es)).value.fate = .becomes w := by rw [walked]
      refine ⟨filled becomes fun _ => ⟨_, after⟩, fun none => ?_⟩
      obtain ⟨isBranch, clean, alike⟩ := branch.before after sound
      refine everywhere_of_bare alike.symm (self.branch_slot isBranch fun node => ?_)
      rw [walkItem_node node] at alike
      refine (below after (sound.below_single (branches_child isBranch).1 (mem_of_isNode_part node) node)).mpr fun inner => ?_
      exact none (.branch kept becomes isBranch node alike inner)

theorem fieldsIn_program (root : kind? v = some "Program") : fieldsIn branches v = [] := by
  rw [fieldsIn, kindName_of_kind? root]
  rfl

theorem isSteady_program (root : kind? v = some "Program") : (outline v).isSteady := by
  simp [Outline.isSteady, outline, kindName_of_kind? root, droppable, yielding, branches]

theorem Tame.run_slot (tame : Tame std p) (keeps : Keeps std tree) (finished : (p.run tree).fault = none) :
    (walkNode p false tree).fault = none ∧ (p.run tree).value = (walkNode p false tree).value.slot ∧
      kind? (p.run tree).value = some "Program" := by
  obtain ⟨root, complete⟩ := keeps
  obtain ⟨es, rfl⟩ := dict_of_kind? root
  have walked := settleRoot_finished finished
  have ending := tame.ending (everywhere_self complete) walked
  rw [Pass.run]
  generalize whole : (walkNode p false (.dict es)).value = w at ending ⊢
  cases ending with
  | stay after =>
    rw [settleRoot_stays (by rw [whole]), whole]
    exact ⟨walked, rfl, after.kind? root⟩
  | put _ inner => exact (inner root).elim
  | drop fleeting =>
    rcases fleeting with fleeting | ⟨es', after, fleeting⟩
    · simp [isSteady_program root] at fleeting
    · simp [isSteady_program (after.kind? root)] at fleeting
  | branch _ after branch =>
    have listed := branch.listed
    simp [fieldsIn_program (after.kind? root)] at listed

theorem Tame.run_iff (tame : Tame std p) (keeps : Keeps std tree) (finished : (p.run tree).fault = none) :
    Keeps std (p.run tree).value ↔ ¬Hole std p false tree := by
  obtain ⟨walked, slot, root⟩ := tame.run_slot keeps finished
  rw [← tame.slot_iff keeps.complete walked, ← slot]
  exact ⟨fun keeps => keeps.complete, fun complete => ⟨root, complete⟩⟩

end Tame

end Rulewright.Flag
