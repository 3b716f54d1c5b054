import Rulewright.Proofs.Flag.Commentary
import Rulewright.Proofs.Flag.Footing

/-!
Walks that finish. A pass over a sturdy script whose comments can be moved stops nowhere but at a node that it cannot enter
(`Smooth.run_iff`), and it leaves comments that can be moved.
-/

open List

namespace Rulewright.Flag

variable {parent : Option Value}

open Value

def populated : Standard where
  fields := []
  child _ _ := true
  statement o := o.kind != ""
  children := anything.children
  literals := anything.literals
  lists := anything.lists

def Populated (v : Value) : Prop :=
  ∀ key ∈ fieldsIn statementLists v, (part v key).list?.any (·.all fun w => populated.statement (outline w)) = true

section Populated

variable {p : Pass} {loose : Bool} {v w x : Value} {key : String} {es es' : Entries} {P : Value → Prop}

theorem complete_populated_iff : Complete populated v ↔ Complete anything v ∧ Populated v := by
  constructor
  · intro complete
    refine ⟨⟨⟨complete.known, complete.once, complete.single, by rintro _ ⟨⟩, fun key listed => ?_⟩, complete.typed⟩,
      complete.statements⟩
    obtain ⟨items, held, -⟩ := list?_any.mp (complete.statements key listed)
    exact list?_any.mpr ⟨items, held, all_eq_true.mpr fun _ _ => rfl⟩
  · rintro ⟨complete, statements⟩
    exact ⟨⟨complete.known, complete.once, complete.single, by rintro _ ⟨⟩, statements⟩, complete.typed⟩

theorem everywhere_anything (complete : Everywhere (Complete populated) loose v) : Everywhere (Complete anything) loose v :=
  complete.imp fun _ here => (complete_populated_iff.mp here).1

theorem isNode_of_statement (statement : populated.statement (outline v)) : isNode v := by
  rw [isNode_eq]
  cases known : kind? v with
  | some kind => rfl
  | none => simp [populated, outline, kindName, known] at statement

theorem Sturdy.branch (sturdy : Sturdy v) (branch : Branch v key w)
    (marks : kind? v = some "IfStatement" → mayMark (part v "test")) : isNode (part v key) := by
  have either :=
    fieldsIn_all (Q := fun kind key =>
        key ∈ (supports.lookup kind).getD [] ∨ kind = "IfStatement" ∧ (key = "consequent" ∨ key = "alternate"))
      (by decide) branch.listed
  rcases either with listed | ⟨kind, rfl | rfl⟩
  · exact sturdy.filled.isNode listed
  · have known := kind?_of_kindName kind (by decide)
    exact isNode_of_endings fun x ends => isEnduring_isNode (sturdy.consequent known (marks known) x ends)
  · have known := kind?_of_kindName kind (by decide)
    have present := branch.chosen known rfl
    by_cases single : fieldsIn branches (part v "alternate") = []
    · refine (sturdy.otherwise known _ ?_).resolve_left present
      rw [endings_end single]
      exact mem_cons_self
    · obtain ⟨key, listed⟩ := exists_mem_of_ne_nil _ single
      have yields := branches_yielding listed
      rw [isNode_eq]
      cases own : kind? (part v "alternate") with
      | some kind => rfl
      | none => rw [kindName, own] at yields; cases yields

theorem Edits.left_statement (edits : Edits p) (complete : Everywhere (Complete anything) loose v) (sturdy : Everywhere Sturdy loose v)
    (node : isNode v) (finished : (walkNode p loose v).fault = none)
    (remains : (walkNode p loose v).value.left? = some x) : populated.statement (outline x) := by
  obtain ⟨es, rfl⟩ := isNode_dict node
  have self := everywhere_self complete
  have named {v : Value} (known : kindName v ≠ "") : populated.statement (outline v) := by
    simpa [populated, outline] using known
  have decided {y : Value} {up : Bool} {r : Reply} (edit : Edit y up r) (here : kindName y ≠ "")
      (branched : up = true → ∀ key, Branch y key x → r.action = .put x → kindName (part y key) ≠ "")
      (remains : r.outcome.left? = some x) : populated.statement (outline x) := by
    cases edit with
    | keep => cases remains; exact named here
    | stir => cases remains; exact named here
    | literal _ _ b => cases remains; exact named (by cases b <;> decide)
    | branch branch =>
      cases remains
      rw [outline_of_bare branch.taken]
      exact named (branched rfl _ branch rfl)
    | drop => cases remains
  obtain ⟨fine, ⟨acts, value⟩ | ⟨-, -, es', after, left, value⟩⟩ := walkNode_cases self.view finished <;> rw [value] at remains
  · exact decided (edits.enter fine) self.kind?.2 (by rintro ⟨⟩) remains
  · refine decided (edits.leave left) (by rw [after.kindName self.toSound]; exact self.kind?.2) (fun _ key branch put => ?_) remains
    have there := ((everywhere_self sturdy).step (edits.steady complete after) after.leaves).branch branch ((edits.leave left).opens put)
    obtain ⟨fields, whole⟩ := isNode_dict there
    have below := (everywhere_complete.mp (after.complete_anything edits.tame complete)).2 _ (mem_of_isNode_part there) (branches_child branch.listed).1
    rw [whole] at below ⊢
    exact (everywhere_self below.1).kind?.2

theorem everywhere_deep {std : Standard} (complete : Everywhere (Complete std) loose v) (all : Everywhere P loose v) :
    Everywhere (Everywhere P false) loose v := by
  induction loose, v using below_induction with
  | leaf loose v leaf => exact everywhere_leaf leaf
  | node loose es ih =>
    refine everywhere_below.mpr ⟨everywhere_other complete all, fun l x inside => ?_⟩
    exact ih l x inside ((everywhere_below.mp complete).2 l x inside) ((everywhere_below.mp all).2 l x inside)

theorem everywhere_element {items : List Value} (complete : Everywhere (Complete anything) loose (.dict es))
    (all : Everywhere P loose (.dict es)) (child : isChild (childFields (kindName (.dict es))) key)
    (plain : isPropertyList (kindName (.dict es)) key = false) (held : part (.dict es) key = .list items) (inside : v ∈ items)
    (node : isNode v) : Everywhere P false v := by
  rw [← plain]
  exact (everywhere_below.mp all).2 _ v ((everywhere_self complete).toSound.below_listed child (mem_of_part held) inside node)

theorem Edits.populated_after (edits : Edits p) (complete : Everywhere (Complete anything) loose (.dict es))
    (sturdy : Everywhere Sturdy loose (.dict es)) (here : Populated (.dict es)) (after : After p bare loose es es') :
    Populated (.dict es') := by
  intro key listed
  rw [fieldsIn, after.kindName (everywhere_self complete).toSound] at listed
  refine after.leaves.list_all (statementLists_child listed).2.2 (fun v w same => by rw [outline_of_bare same]; exact id)
    (fun l x child statement y left => ?_) (here key listed)
  have node := isNode_of_statement statement
  have below := child.below (isVisited_node node)
  rw [walkAt_visited (isVisited_node node)] at left
  exact edits.left_statement (child.complete complete) ((everywhere_below.mp sturdy).2 _ x below) node (after.below below) (Option.mem_toList.mp left)

end Populated

structure Fares (w : Walked) : Prop where
  node : Takes w.node
  becomes : ∀ v, w.fate = .becomes v → Takes v
  slot : Everywhere Commented false w.slot

def Passes (p : Pass) (loose : Bool) (v : Value) : Prop :=
  (walkItem p loose v).fault = none ∧ ∀ es, v = .dict es → Fares (walkItem p loose v).value

section Lists

variable {p : Pass} {loose : Bool} {v w x : Value} {items body raw done : List Value} {os : List (Outcome Walked)} {home : Home} {i : Nat}

theorem walkItem_scalar (leaf : ∀ es, v ≠ .dict es) : walkItem p loose v = .done (.untouched v) := by
  unfold walkItem
  split
  · cases v <;> first | rfl | exact (leaf _ rfl).elim
  · rfl

theorem Passes.left_commented (passes : Passes p loose v) {es : Entries}
    (remains : (walkItem p loose v).value.left? = some (.dict es)) : Commented (.dict es) := by
  by_cases table : ∃ es, v = .dict es
  · obtain ⟨fields, rfl⟩ := table
    have slot := (passes.2 fields rfl).slot
    rw [Walked.slot, remains] at slot
    exact everywhere_self slot
  · rw [walkItem_scalar fun es whole => table ⟨es, whole⟩] at remains
    cases remains
    exact (table ⟨es, rfl⟩).elim

theorem walkItems_map (passes : ∀ v ∈ items, Passes p loose v) : walkItems p loose items = items.map (walkItem p loose) := by
  induction items with
  | nil => rfl
  | cons v rest ih =>
    rw [walkItems_cons, if_neg (by simp [(passes v mem_cons_self).1]), map_cons,
      ih fun w member => passes w (mem_cons_of_mem _ member)]

theorem settle_own (fine : ∀ o ∈ os, o.fault = none) (becomes : ∀ o ∈ os, ∀ v, o.value.fate = .becomes v → Takes v)
    (takes : ∀ v ∈ body, Takes v) (whole : i + os.length = body.length) :
    (settle true raw os i body home).fault = none ∧ ∀ v ∈ (settle true raw os i body home).value.1, Takes v := by
  induction os generalizing i body with
  | nil => exact ⟨rfl, takes⟩
  | cons o os ih =>
    have others {j : Nat} {rest : List Value} := @ih rest j (fun o member => fine o (mem_cons_of_mem _ member))
      (fun o member => becomes o (mem_cons_of_mem _ member))
    rw [length_cons] at whole
    rw [settle, fine o mem_cons_self]
    cases fate : o.value.fate with
    | stays => exact others takes (by omega)
    | becomes v =>
      refine others (fun x member => ?_) (by rw [length_set]; omega)
      rcases mem_or_eq_of_mem_set member with old | rfl
      · exact takes x old
      · exact becomes o mem_cons_self x fate
    | goes carry =>
      have moved := carry.moved takes (by omega : i < body.length)
      have length := congrArg List.length (carry.move_bare body i)
      simp only [length_map] at length
      have answer : moveOut true carry body i home = (carry.move body i).map fun body => (body, home) := rfl
      simp only [answer, Outcome.map, moved.fine]
      refine others (fun x member => moved.takes x (mem_of_mem_eraseIdx member)) ?_
      rw [length_eraseIdx_of_lt (by omega)]
      omega

theorem moveOut_aside (none : home.statements = none) (carry : Carry) (body : List Value) (i : Nat) :
    moveOut false carry body i home = .done (body, home) := by
  unfold moveOut
  cases read : body[i]? with
  | none => rfl
  | some node =>
    obtain ⟨bound, rfl⟩ := List.getElem?_eq_some_iff.mp read
    simp [Home.takeOver, none, Outcome.map, Outcome.done]

theorem settle_aside (none : home.statements = none) (fine : ∀ o ∈ os, o.fault = Option.none) :
    (settle false raw os done.length (done ++ os.map fun o => o.value.node) home).fault = Option.none ∧
      (settle false raw os done.length (done ++ os.map fun o => o.value.node) home).value =
        (done ++ os.filterMap fun o => o.value.left?, home) := by
  induction os generalizing done with
  | nil => exact ⟨rfl, rfl⟩
  | cons o os ih =>
    have others (x : Value) := @ih (done ++ [x]) fun o member => fine o (mem_cons_of_mem _ member)
    simp only [length_append, length_singleton, append_assoc, singleton_append] at others
    rw [settle, fine o mem_cons_self, map_cons, filterMap_cons, Walked.left?]
    cases fate : o.value.fate with
    | stays => exact others o.value.node
    | becomes v =>
      have placed : (done ++ o.value.node :: os.map fun o => o.value.node).set done.length v =
          done ++ v :: os.map fun o => o.value.node := by simp
      simp only [placed]
      exact others v
    | goes carry =>
      have taken : (done ++ o.value.node :: os.map fun o => o.value.node).eraseIdx done.length =
          done ++ os.map fun o => o.value.node := by
        simp [eraseIdx_append_of_length_le]
      simp only [moveOut_aside none, Outcome.done, taken]
      exact ih fun o member => fine o (mem_cons_of_mem _ member)

theorem asListField_own (gained : home.gained = []) (passes : ∀ v ∈ items, Passes p loose v) (tables : ∀ v ∈ items, ∃ es, v = .dict es) :
    (asListField home true items (walkItems p loose items)).fault = none ∧
      ∃ left, (asListField home true items (walkItems p loose items)).value = (.list left, { statements := some left }) ∧
        ∀ v ∈ left, Takes v := by
  rw [walkItems_map passes]
  have fares (o : Outcome Walked) (member : o ∈ items.map (walkItem p loose)) : o.fault = none ∧ Fares o.value := by
    obtain ⟨v, inside, rfl⟩ := mem_map.mp member
    obtain ⟨es, whole⟩ := tables v inside
    exact ⟨(passes v inside).1, (passes v inside).2 es whole⟩
  have settled := @settle_own ((items.map (walkItem p loose)).map fun o => o.value.node) items _ home 0
    (fun o member => (fares o member).1) (fun o member => (fares o member).2.becomes)
    (by
      intro v member
      obtain ⟨o, inside, rfl⟩ := mem_map.mp member
      exact (fares o inside).2.node)
    (by simp)
  simp only [asListField, if_true, gained, enrich_nil, Outcome.map]
  exact ⟨settled.1, _, rfl, settled.2⟩

theorem asListField_aside (none : home.statements = none) (passes : ∀ v ∈ items, Passes p loose v) :
    (asListField home false items (walkItems p loose items)).fault = Option.none ∧
      (asListField home false items (walkItems p loose items)).value = (.list (leftOf p loose items), home) := by
  rw [walkItems_map passes]
  have settled := @settle_aside items [] (items.map (walkItem p loose)) home none (by
    intro o member
    obtain ⟨v, inside, rfl⟩ := mem_map.mp member
    exact (passes v inside).1)
  simp only [length_nil, nil_append] at settled
  simp only [asListField, Bool.false_eq_true, if_false, Outcome.map, settled]
  refine ⟨trivial, ?_⟩
  rw [filterMap_map]
  rfl

end Lists

structure Calm (fields : Option (List String)) (home : Home) (es : Entries) : Prop where
  gained : home.gained = []
  apart : home.statements = none ∧ (∀ items, ("body", .list items) ∉ es) ∨
    ∀ key v, (key, v) ∈ es → isChild fields key = true → key = "body" ∧ ∃ items, v = .list items ∧ ∀ w ∈ items, ∃ fs, w = .dict fs

structure FieldFares (fields : Option (List String)) (key : String) (rest : Entries) (o : Outcome (Value × Home)) : Prop where
  fine : o.fault = none
  calm : Calm fields o.value.2 rest
  elements : isChild fields key = true → ∀ left, o.value.1 = .list left → ∀ es, .dict es ∈ left → Commented (.dict es)

section Fields

variable {p : Pass} {loose : Bool} {v w x : Value} {kind key : String} {fields : Option (List String)} {items left : List Value}
  {home : Home} {es es' rest : Entries}

theorem Calm.tail (calm : Calm fields home ((key, v) :: rest)) : Calm fields home rest :=
  ⟨calm.gained, calm.apart.imp (fun aside => ⟨aside.1, fun items member => aside.2 items (mem_cons_of_mem _ member)⟩)
    fun own key v member => own key v (mem_cons_of_mem _ member)⟩

theorem Fares.slot_single {w : Walked} (fares : Fares w) : w.slot ≠ .list left := by
  rw [Walked.slot, Walked.left?]
  cases fate : w.fate with
  | stays =>
    obtain ⟨es, whole⟩ := fares.node.table
    simp [whole]
  | becomes v =>
    obtain ⟨es, rfl⟩ := (fares.becomes v fate).table
    simp
  | goes => simp

theorem headField_list (calm : Calm (childFields kind) home ((key, .list items) :: rest))
    (passes : isChild (childFields kind) key → ∀ w ∈ items, Passes p (isPropertyList kind key) w) :
    FieldFares (childFields kind) key rest (headField p kind (childFields kind) home key (.list items)) := by
  rw [headField]
  split
  · rename_i child
    rcases calm.apart with ⟨none, other⟩ | own
    · have apart : (key == "body") = false := by
        rw [beq_eq_false_iff_ne]
        rintro rfl
        exact other items mem_cons_self
      rw [apart]
      obtain ⟨fine, value⟩ := asListField_aside none (passes child)
      refine ⟨fine, by rw [value]; exact calm.tail, fun _ left whole es member => ?_⟩
      rw [value] at whole
      cases whole
      obtain ⟨w, inside, remains⟩ := mem_leftOf.mp member
      exact (passes child w inside).left_commented remains
    · obtain ⟨rfl, _, whole, tables⟩ := own key _ mem_cons_self child
      cases whole
      obtain ⟨fine, left, value, takes⟩ := asListField_own calm.gained (passes child) tables
      rw [show ("body" == "body") from rfl]
      refine ⟨fine, ?_, fun _ left' whole es member => ?_⟩
      · exact ⟨rfl, Or.inr fun key v member => own key v (mem_cons_of_mem _ member)⟩
      · rw [value] at whole
        cases whole
        exact (takes _ member).commented
  · rename_i other
    exact ⟨rfl, calm.tail, fun child => (other child).elim⟩

theorem headField_single (calm : Calm (childFields kind) home ((key, v) :: rest)) (alone : ∀ items, v ≠ .list items)
    (passes : isChild (childFields kind) key → isNode v → Passes p false v) :
    FieldFares (childFields kind) key rest (headField p kind (childFields kind) home key v) := by
  have unfolded : headField p kind (childFields kind) home key v =
      if isChild (childFields kind) key && isNode v then asField home (walkNode p false v) else .done (v, home) := by
    cases v <;> first | rfl | exact (alone _ rfl).elim
  rw [unfolded]
  split
  · rename_i both
    obtain ⟨child, node⟩ := Bool.and_eq_true_iff.mp both
    obtain ⟨fine, fares⟩ := passes child node
    obtain ⟨fs, rfl⟩ := isNode_dict node
    replace fares := fares fs rfl
    rw [walkItem_node node] at fine fares
    rcases calm.apart with ⟨none, -⟩ | own
    · have answer : (asField home (walkNode p false (.dict fs))).fault = Option.none ∧
          (asField home (walkNode p false (.dict fs))).value = ((walkNode p false (.dict fs)).value.slot, home) := by
        unfold asField
        rw [fine, Walked.slot, Walked.left?]
        cases fate : (walkNode p false (.dict fs)).value.fate with
        | goes carry => simp [Home.takeOver, none, Outcome.done]
        | stays => simp [Walked.value, fate]
        | becomes w => simp [Walked.value, fate]
      refine ⟨answer.1, by rw [answer.2]; exact calm.tail, fun _ left whole => ?_⟩
      rw [answer.2] at whole
      exact (fares.slot_single whole).elim
    · obtain ⟨-, items, whole, -⟩ := own key _ mem_cons_self child
      cases whole
  · exact ⟨rfl, calm.tail, fun _ left whole => (alone left whole).elim⟩

theorem walkEntries_fares (calm : Calm (childFields kind) home es)
    (passes : ∀ e ∈ es, ∀ spot x, Within kind e.1 e.2 spot x → Passes p spot.loose x) :
    (walkEntries p kind (childFields kind) home es).fault = none ∧ (walkEntries p kind (childFields kind) home es).value.2.gained = [] ∧
      ∀ key left, (key, .list left) ∈ (walkEntries p kind (childFields kind) home es).value.1 → isChild (childFields kind) key →
        ∀ fs, .dict fs ∈ left → Commented (.dict fs) := by
  induction es generalizing home with
  | nil => exact ⟨rfl, calm.gained, by rintro _ _ ⟨⟩⟩
  | cons e rest ih =>
    obtain ⟨key, v⟩ := e
    obtain ⟨own, others⟩ := forall_mem_cons.mp passes
    have head : FieldFares (childFields kind) key rest (headField p kind (childFields kind) home key v) := by
      by_cases whole : ∃ items, v = .list items
      · obtain ⟨items, rfl⟩ := whole
        exact headField_list calm fun child w inside => own _ w (.row child inside)
      · exact headField_single calm (fun items same => whole ⟨items, same⟩) fun child node => own _ v (.only child node)
    obtain ⟨fine, gained, elements⟩ := ih head.calm others
    rw [walkEntries_cons]
    simp only [fieldThen, head.fine]
    refine ⟨fine, gained, fun k left member child => ?_⟩
    rcases mem_cons.mp member with same | later
    · obtain ⟨rfl, whole⟩ := Prod.mk.inj same
      exact head.elements child left whole.symm
    · exact elements k left later child

theorem get?_of_once (once : (es.map Prod.fst).count key ≤ 1) (held : (key, v) ∈ es) : Entries.get? key es = some v := by
  induction es with
  | nil => cases held
  | cons e rest ih =>
    obtain ⟨k, w⟩ := e
    by_cases hit : k = key
    · subst hit
      rcases mem_cons.mp held with same | later
      · cases same
        simp [Entries.get?]
      · have again : 0 < (rest.map Prod.fst).count k := count_pos_iff.mpr (mem_map_of_mem (f := Prod.fst) later)
        simp at once
        omega
    · rcases mem_cons.mp held with same | later
      · cases same
        exact (hit rfl).elim
      · simp only [Entries.get?, if_neg hit]
        exact ih (by simpa [hit] using once) later

theorem own_kinds {names : List String} (known : childFields kind = some names) (only : names.all (· == "body"))
    (body : names.contains "body") : kind = "ClassBody" ∨ "body" ∈ (statementLists.lookup kind).getD [] := by
  unfold childFields at known
  split at known
  · rename_i found
    cases known
    exact (by decide : ∀ e ∈ kinds, e.2.all (· == "body") → e.2.contains "body" →
      e.1 = "ClassBody" ∨ "body" ∈ (statementLists.lookup e.1).getD []) _ (mem_of_lookup found) only body
  · split at known
    · cases known
      cases body
    · split at known <;> cases known
      cases body

theorem calm_start (complete : Complete populated (.dict es)) (sturdy : Sturdy (.dict es)) :
    Calm (childFields (kindName (.dict es))) (.ofEntries es) es := by
  refine ⟨rfl, ?_⟩
  have once : (es.map Prod.fst).count "body" ≤ 1 := complete.once
  have read (v : Value) (held : ("body", v) ∈ es) : part (.dict es) "body" = v := by
    simp [part, field?, get?_of_once once held]
  by_cases listed : ∃ items, part (.dict es) "body" = .list items
  · obtain ⟨items, whole⟩ := listed
    refine Or.inr fun key v held child => ?_
    obtain ⟨names, known⟩ := Option.isSome_iff_exists.mp complete.known
    have only := sturdy.home (by rw [whole]; rfl)
    rw [known] at child only
    obtain rfl : key = "body" := by
      simpa using all_eq_true.mp only key (contains_iff_mem.mp child)
    refine ⟨rfl, items, by rw [← read v held, whole], fun w inside => ?_⟩
    rcases own_kinds known only child with kind | statements
    · have members := sturdy.members (kind?_of_kindName kind (by decide))
      rw [whole] at members
      obtain ⟨_, same, all⟩ := list?_any.mp members
      cases same
      exact isNode_dict (isNode_of_endings fun x ends =>
        isEnduring_isNode (all_eq_true.mp (all_eq_true.mp all w inside) x ends))
    · have statements := complete.statements "body" statements
      rw [whole] at statements
      obtain ⟨_, same, all⟩ := list?_any.mp statements
      cases same
      exact isNode_dict (isNode_of_statement (all_eq_true.mp all w inside))
  · refine Or.inl ⟨?_, fun items held => listed ⟨items, read _ held⟩⟩
    simp only [Home.ofEntries]
    cases found : Entries.get? "body" es with
    | none => rfl
    | some v =>
      have whole : part (.dict es) "body" = v := by simp [part, field?, found]
      cases v <;> first | rfl | exact (listed ⟨_, whole⟩).elim

end Fields

structure Smooth (p : Pass) : Prop where
  tame : Tame anything p
  enter {es : Entries} : Everywhere Commented false (.dict es) → (p.enter (.dict es)).fault = none →
    Fares (p.enter (.dict es)).outcome
  leave {loose : Bool} {es es' : Entries} : Everywhere (Complete anything) loose (.dict es) → Everywhere Sturdy loose (.dict es) →
    After p bare loose es es' → Everywhere Commented false (.dict es') →
    (p.leave (.dict es')).fault = none ∧ Fares (p.leave (.dict es')).outcome

def stops (p : Pass) (v : Value) : Bool :=
  match (p.enter v).action with
  | .keep => false
  | _ => true

section Smooth

variable {p : Pass} {loose : Bool} {v tree : Value} {es es' : Entries}

theorem stops_iff : stops p v = false ↔ (p.enter v).action = .keep := by
  unfold stops
  cases (p.enter v).action <;> simp

theorem walkNode_decides (fine : (p.enter (.dict es)).fault = none) (acts : (p.enter (.dict es)).action ≠ .keep) :
    (walkNode p loose (.dict es)).fault = none ∧ (walkNode p loose (.dict es)).value = (p.enter (.dict es)).outcome := by
  have walked : walkNode p loose (.dict es) = (p.enter (.dict es)).walked := by
    rw [walkNode]
    split
    · rename_i keeps
      exact (acts keeps).elim
    · rfl
  rw [walked, Reply.walked, fine]
  exact ⟨rfl, rfl⟩

theorem walkNode_leaves (fine : (p.enter (.dict es)).fault = none) (keeps : (p.enter (.dict es)).action = .keep)
    (known : (childFields (visitedKind loose es)).isSome)
    (walked : (walkEntries p (visitedKind loose es) (childFields (visitedKind loose es)) (.ofEntries es) es).fault = none)
    (gained : (walkEntries p (visitedKind loose es) (childFields (visitedKind loose es)) (.ofEntries es) es).value.2.gained = [])
    (result : (walkEntries p (visitedKind loose es) (childFields (visitedKind loose es)) (.ofEntries es) es).value.1 = es')
    (left : (p.leave (.dict es')).fault = none) :
    (walkNode p loose (.dict es)).fault = none ∧ (walkNode p loose (.dict es)).value = (p.leave (.dict es')).outcome := by
  obtain ⟨fields, whole⟩ := Option.isSome_iff_exists.mp known
  have lenient : (p.strict && (childFields (visitedKind loose es)).isNone) = false := by
    rw [whole, Option.isNone_some, Bool.and_false]
  have settled : (Outcome.map (fun x : Entries × Home => x.2.settleIn x.1)
      (walkEntries p (visitedKind loose es) (childFields (visitedKind loose es)) (.ofEntries es) es)).value = es' := by
    simp only [Outcome.map, settleIn_nothing gained, result]
  rw [walkNode, fine, keeps]
  simp only [lenient, Bool.false_eq_true, if_false, leaveNode]
  rw [settled]
  simp only [Outcome.map, walked, Reply.walked, left]
  exact ⟨trivial, rfl⟩

theorem children_fare (tame : Tame anything p) (complete : Everywhere (Complete populated) loose (.dict es))
    (sturdy : Sturdy (.dict es)) (commented : Commented (.dict es))
    (below : ∀ l v, Below loose es l v → (walkNode p l v).fault = none ∧ ∀ es, v = .dict es → Fares (walkNode p l v).value) :
    ∃ es', After p bare loose es es' ∧ Everywhere Commented false (.dict es') ∧
      ((p.enter (.dict es)).fault = none → (p.enter (.dict es)).action = .keep → (p.leave (.dict es')).fault = none →
        (walkNode p loose (.dict es)).fault = none ∧ (walkNode p loose (.dict es)).value = (p.leave (.dict es')).outcome) := by
  have plain := everywhere_anything complete
  have self := everywhere_self complete
  have kind := self.visitedKind loose
  have calm : Calm (childFields (visitedKind loose es)) (.ofEntries es) es := by
    rw [kind]
    exact calm_start self sturdy
  have passes : ∀ e ∈ es, ∀ spot x, Within (visitedKind loose es) e.1 e.2 spot x → Passes p spot.loose x := by
    rintro ⟨key, v⟩ held spot x within
    rw [Passes]
    by_cases visited : isVisited spot.loose x
    · rw [walkItem, if_pos visited]
      exact below _ x (within.below held visited)
    · rw [walkItem, if_neg visited]
      refine ⟨rfl, ?_⟩
      rintro fs rfl
      refine (visited (isVisited_node ?_)).elim
      cases within with
      | only _ node => exact node
      | row child inside => simpa [dict?] using all_eq_true.mp (self.typed _ held (by rw [← kind]; exact child)) _ inside
  obtain ⟨walked, gained, elements⟩ := walkEntries_fares calm passes
  have after := After.of_entries walked
  refine ⟨_, after, everywhere_below.mpr ⟨?_, after.below_of tame plain ?_ ?_⟩, fun fine keeps left => ?_⟩
  · have aside : isChild (childFields (visitedKind loose es)) "comments" = false := by
      cases child : isChild (childFields (visitedKind loose es)) "comments" with
      | false => rfl
      | true => exact (isChild_comments (by rw [kind]; exact self.known) child rfl).elim
    exact Commented.of_field (v := .dict es) (after.leaves.field? aside (by decide)) commented
  · intro key left held child fs inside _
    exact elements key left held child fs inside
  · intro l v inside _
    obtain ⟨fs, rfl⟩ := inside.dict
    exact ((below l _ inside).2 fs rfl).slot
  · exact walkNode_leaves fine keeps (by rw [kind]; exact self.known) walked gained rfl left

theorem Smooth.walk (smooth : Smooth p) (complete : Everywhere (Complete populated) loose v) (sturdy : Everywhere Sturdy loose v)
    (commented : Everywhere Commented loose v) (enters : ∀ n ∈ nodesIn (stops p) loose parent v, (p.enter n.2).fault = none) :
    (walkNode p loose v).fault = none ∧ ∀ es, v = .dict es → Fares (walkNode p loose v).value := by
  induction loose, v using below_induction generalizing parent with
  | leaf loose v leaf =>
    refine ⟨?_, fun es whole => (leaf es whole).elim⟩
    cases v <;> first | rfl | exact (leaf _ rfl).elim
  | node loose es ih =>
    have plain := everywhere_anything complete
    have fine : (p.enter (.dict es)).fault = none := enters (parent, .dict es) (by exact mem_cons_self)
    by_cases keeps : (p.enter (.dict es)).action = .keep
    · have below (l : Bool) (v : Value) (inside : Below loose es l v) :
          (walkNode p l v).fault = none ∧ ∀ es, v = .dict es → Fares (walkNode p l v).value :=
        ih l v inside ((everywhere_below.mp complete).2 l v inside) ((everywhere_below.mp sturdy).2 l v inside)
          ((everywhere_below.mp commented).2 l v inside) fun n reached =>
            enters n (mem_nodesIn.mpr (Or.inr ⟨stops_iff.mpr keeps, l, v, inside, reached⟩))
      obtain ⟨es', after, moved, walked⟩ :=
        children_fare smooth.tame complete (everywhere_self sturdy) (everywhere_self commented) below
      obtain ⟨left, fares⟩ := smooth.leave plain sturdy after moved
      obtain ⟨done, value⟩ := walked fine keeps left
      rw [value]
      exact ⟨done, fun _ _ => fares⟩
    · obtain ⟨done, value⟩ := @walkNode_decides p loose es fine keeps
      rw [value]
      exact ⟨done, fun _ _ => smooth.enter (everywhere_other plain commented) fine⟩

theorem entered_of_finished (complete : Everywhere (Complete anything) loose v) (finished : (walkNode p loose v).fault = none) : ∀ n ∈ nodesIn (stops p) loose parent v, (p.enter n.2).fault = none := by
  induction loose, v using below_induction generalizing parent with
  | leaf loose v leaf => cases v <;> first | exact (leaf _ rfl).elim | (intro n reached; cases reached)
  | node loose es ih =>
    obtain ⟨self, below⟩ := everywhere_below.mp complete
    obtain ⟨fine, ends⟩ := walkNode_cases self.view finished
    intro n reached
    rcases mem_nodesIn.mp reached with rfl | ⟨goes, l, v, inside, reached⟩
    · exact fine
    · rcases ends with ⟨acts, -⟩ | ⟨-, -, es', after, -⟩
      · exact (acts (stops_iff.mp goes)).elim
      · exact ih l v inside (below l v inside) (after.below inside) n reached

end Smooth

structure Standing (tree : Value) : Prop where
  keeps : Keeps populated tree
  sturdy : Everywhere Sturdy false tree
  commented : Everywhere Commented false tree

section Standing

variable {p : Pass} {loose : Bool} {v tree : Value} {es : Entries}

theorem keeps_anything_of (keeps : Keeps populated tree) : Keeps anything tree := ⟨keeps.root, everywhere_anything keeps.complete⟩

theorem Tame.run_walked (tame : Tame anything p) (keeps : Keeps anything tree) :
    (p.run tree).fault = none ↔ (walkNode p false tree).fault = none := by
  obtain ⟨es, rfl⟩ := dict_of_kind? keeps.root
  refine ⟨settleRoot_finished, fun walked => ?_⟩
  have ending := tame.ending (everywhere_self keeps.complete) walked
  rw [Pass.run, settleRoot, walked]
  generalize (walkNode p false (.dict es)).value = w at ending ⊢
  cases ending with
  | stay => rfl
  | put => rfl
  | branch => rfl
  | drop fleeting =>
    rcases fleeting with fleeting | ⟨es', after, fleeting⟩
    · simp [isSteady_program keeps.root] at fleeting
    · simp [isSteady_program (after.kind? keeps.root)] at fleeting

theorem Smooth.run_iff (smooth : Smooth p) (standing : Standing tree) :
    (p.run tree).fault = none ↔ ∀ n ∈ nodesIn (stops p) false none tree, (p.enter n.2).fault = none := by
  have keeps := keeps_anything_of standing.keeps
  rw [smooth.tame.run_walked keeps]
  exact ⟨entered_of_finished keeps.complete,
    fun enters => (smooth.walk standing.keeps.complete standing.sturdy standing.commented enters).1⟩

theorem Edits.hands_sturdy (edits : Edits p) : Hands p Sturdy Sturdy where
  blind _ _ := Sturdy.of_bare
  made _ _ made _ := sturdy_literal made
  stays _ _ _ sturdy complete _ _ after _ _ _ := sturdy.step (edits.steady complete after) after.leaves

theorem Edits.hands_populated (edits : Edits p) : Hands p (fun v => Everywhere Sturdy false v ∧ Populated v) Populated where
  blind v w same here := by
    intro key listed
    rw [← part_of_bare same (statementLists_child listed).2.2]
    exact here key (by rw [fieldsIn_of_bare _ same]; exact listed)
  made _ _ made _ := by
    intro key listed
    rw [fieldsIn, kindName_of_kind? made] at listed
    cases listed
  stays loose es es' here complete _ _ after _ _ _ :=
    edits.populated_after complete (everywhere_other (everywhere_loose complete) here.1) here.2 after

theorem Standing.run (standing : Standing tree) (edits : Edits p) (smooth : Smooth p) (finished : (p.run tree).fault = none) :
    Standing (p.run tree).value := by
  have keeps := keeps_anything_of standing.keeps
  obtain ⟨walked, slot, root⟩ := edits.tame.run_slot keeps finished
  have complete := (edits.tame.keeps_anything keeps finished).complete
  have deep := everywhere_and (everywhere_deep keeps.complete standing.sturdy)
    (standing.keeps.complete.imp fun v here => (complete_populated_iff.mp here).2)
  have statements := edits.hands_populated.run edits.tame keeps deep finished
  refine ⟨⟨root, (everywhere_and complete statements).imp fun v both => complete_populated_iff.mpr both⟩,
    edits.hands_sturdy.run edits.tame keeps standing.sturdy finished, ?_⟩
  obtain ⟨es, rfl⟩ := dict_of_kind? keeps.root
  rw [slot]
  exact ((smooth.walk standing.keeps.complete standing.sturdy standing.commented
    ((smooth.run_iff standing).mp finished)).2 es rfl).slot

end Standing

end Rulewright.Flag
