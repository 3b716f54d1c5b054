import Rulewright.Proofs.Flag.Nodes

/-!
What a walk that finishes does to one node: `walkNode_cases` says that either the visit on the way
down decides, or every field gives way to what its own walk leaves (`FieldAfter`) and the visit on
the way up decides. Where elements of lists are taken out, this holds up to comments.
-/

open List

namespace Rulewright.Flag

variable {carry : Carry} {p : Pass} {v : Value} {loose isOwn : Bool} {g : Value → Value} {home : Home} {os : List (Outcome Walked)} {items : List Value}

def Walked.left? (w : Walked) : Option Value :=
  match w.fate with
  | .stays => some w.node
  | .becomes v => some v
  | .goes _ => none

def Walked.slot (w : Walked) : Value := w.left?.getD .null

abbrev Reply.outcome (r : Reply) : Walked := { node := r.node, fate := .ofAction r.action }

@[simp] theorem Walked.untouched_slot (v : Value) : (Walked.untouched v).slot = v := rfl

def walkItem (p : Pass) (loose : Bool) (v : Value) : Outcome Walked :=
  if isVisited loose v then walkNode p loose v else .done (.untouched v)

theorem walkItem_node (node : isNode v) : walkItem p loose v = walkNode p loose v := by
  simp [walkItem, isVisited, node]

theorem walkItem_leaf (leaf : isNode v = false) : walkItem p false v = .done (.untouched v) := by
  simp [walkItem, isVisited, leaf]

def Pass.Retains (p : Pass) : Prop :=
  ∀ v carry, (p.enter v).action ≠ .drop carry ∧ (p.leave v).action ≠ .drop carry

def Pass.CarriesNothing (p : Pass) : Prop :=
  ∀ v carry, ((p.enter v).action = .drop carry → carry = .nothing) ∧
    ((p.leave v).action = .drop carry → carry = .nothing)

def Coarse (g : Value → Value) : Prop := ∀ v w, bare v = bare w → g v = g w

theorem coarse_bare : Coarse bare := fun _ _ same => same

theorem Pass.Retains.carriesNothing (retains : p.Retains) : p.CarriesNothing :=
  fun v carry => ⟨fun h => ((retains v carry).1 h).elim, fun h => ((retains v carry).2 h).elim⟩

theorem walkNode_goes (goes : (walkNode p loose v).value.fate = .goes carry) :
    ∃ w, (p.enter w).action = .drop carry ∨ (p.leave w).action = .drop carry := by
  have walked : ∀ r : Reply, r.walked.value.fate = .goes carry → r.action = .drop carry := by
    intro r gone
    simp only [Reply.walked] at gone
    split at gone
    · cases gone
    · cases action : r.action <;> simp_all [Fate.ofAction]
  cases v with
  | dict entries =>
    simp only [walkNode] at goes
    split at goes
    · split at goes
      · cases goes
      · simp only [leaveNode] at goes
        split at goes
        · cases goes
        · exact ⟨_, Or.inr (walked _ goes)⟩
    · exact ⟨_, Or.inl (walked _ goes)⟩
  | _ => cases goes

theorem walkItem_goes (goes : (walkItem p loose v).value.fate = .goes carry) :
    ∃ w, (p.enter w).action = .drop carry ∨ (p.leave w).action = .drop carry := by
  unfold walkItem at goes
  split at goes
  · exact walkNode_goes goes
  · cases goes

theorem Pass.Retains.walkItem_stays (retains : p.Retains) (loose : Bool) (v : Value) (carry : Carry) :
    (walkItem p loose v).value.fate ≠ .goes carry := by
  intro goes
  obtain ⟨w, down | up⟩ := walkItem_goes goes
  · exact (retains w carry).1 down
  · exact (retains w carry).2 up

theorem moveOut_bare (isOwn : Bool) (carry : Carry) (body : List Value) (i : Nat) (home : Home) :
    (moveOut isOwn carry body i home).value.1.map bare = body.map bare := by
  unfold moveOut
  split
  · exact Carry.move_bare carry body i
  · split
    · rename_i node read
      refine map_set_of_eq ?_
      rw [read, takeOver_bare]
      rfl
    · rfl

/-- A walk that reports no change and takes nothing out. -/
structure Still (o : Outcome Walked) : Prop where
  unchanged : o.changed = false
  stays : ∀ carry, o.value.fate ≠ .goes carry

/-- The walk of a value finishes, and is still if nothing is reported. -/
def Walks (p : Pass) (unchanged : Prop) (loose : Bool) (v : Value) : Prop :=
  (walkItem p loose v).fault = none ∧ (unchanged → Still (walkItem p loose v))

theorem settle_left {raw done rest : List Value}
    (calm : (∀ o ∈ os, ∀ carry, o.value.fate ≠ .goes carry) ∨ Coarse g)
    (nodes : rest.map g = os.map fun o => g o.value.node)
    (finished : (settle isOwn raw os done.length (done ++ rest) home).fault = none) :
    (∀ o ∈ os, o.fault = none ∧ ((settle isOwn raw os done.length (done ++ rest) home).changed = false → Still o)) ∧
      (settle isOwn raw os done.length (done ++ rest) home).value.1.map g =
        done.map g ++ (os.filterMap fun o => o.value.left?).map g := by
  induction os generalizing done rest home with
  | nil =>
    simp [nodes, settle, Outcome.done]
  | cons o os ih =>
    obtain ⟨x, rest, rfl⟩ : ∃ x xs, rest = x :: xs := by
      cases rest with
      | nil => simp at nodes
      | cons x xs => exact ⟨x, xs, rfl⟩
    simp only [map_cons, List.cons.injEq] at nodes
    obtain ⟨shown, nodes⟩ := nodes
    have calmTail :=
      calm.imp_left fun stays o member => stays o (mem_cons_of_mem _ member)
    cases fault : o.fault with
    | some f => simp [settle, fault] at finished
    | none =>
      -- one more element is done with, whatever now stands for it
      have proceed (y : Value) (stays : ∀ carry, o.value.fate ≠ .goes carry)
          (settled : (settle isOwn raw os (done.length + 1) (done ++ y :: rest) home).fault = none) :
          (∀ o' ∈ o :: os, o'.fault = none ∧
            ((o.changed || (settle isOwn raw os (done.length + 1) (done ++ y :: rest) home).changed) = false → Still o')) ∧
            (settle isOwn raw os (done.length + 1) (done ++ y :: rest) home).value.1.map g =
              done.map g ++ (g y :: (os.filterMap fun o => o.value.left?).map g) := by
        obtain ⟨clean, left⟩ := @ih home (done ++ [y]) rest calmTail nodes (by simpa using settled)
        simp only [length_append, length_singleton, append_assoc, singleton_append] at clean
        refine ⟨forall_mem_cons.mpr ⟨⟨fault, fun same => ⟨(Bool.or_eq_false_iff.mp same).1, stays⟩⟩, fun o' member => ?_⟩, by simpa using left⟩
        exact ⟨(clean o' member).1, fun same => (clean o' member).2 (Bool.or_eq_false_iff.mp same).2⟩
      cases fate : o.value.fate with
      | stays =>
        simp only [settle, fault, fate] at finished ⊢
        obtain ⟨clean, left⟩ := proceed x (by simp [fate]) finished
        exact ⟨clean, by simp [left, Walked.left?, fate, shown]⟩
      | becomes v =>
        simp only [settle, fault, fate] at finished ⊢
        have replaced : (done ++ x :: rest).set done.length v = done ++ v :: rest := by simp
        rw [replaced] at finished ⊢
        obtain ⟨clean, left⟩ := proceed v (by simp [fate]) finished
        exact ⟨clean, by simp [left, Walked.left?, fate]⟩
      | goes carry =>
        have coarse : Coarse g := by
          rcases calm with stays | coarse
          · exact (stays o mem_cons_self carry fate).elim
          · exact coarse
        simp only [settle, fault, fate] at finished ⊢
        have alike := moveOut_bare isOwn carry (done ++ x :: rest) done.length home
        generalize moveOut isOwn carry (done ++ x :: rest) done.length home = moved at finished alike ⊢
        cases stuck : moved.fault with
        | some f => simp [stuck] at finished
        | none =>
          simp only [stuck] at finished ⊢
          obtain ⟨⟨body, home'⟩, changed, _⟩ := moved
          -- the comments moved, so the list falls apart at the same place
          simp only [map_append, map_cons] at alike
          obtain ⟨front, back, rfl, frontAlike, backAlike⟩ := map_eq_append_iff.mp alike
          obtain ⟨y, tail, rfl, -, tailAlike⟩ := map_eq_cons_iff.mp backAlike
          have sameLength : front.length = done.length := by simpa using congrArg List.length frontAlike
          have erased : (front ++ y :: tail).eraseIdx done.length = front ++ tail := by
            rw [← sameLength]; simp [eraseIdx_append_of_length_le]
          rw [erased, ← sameLength] at finished ⊢
          obtain ⟨clean, left⟩ := ih calmTail ((map_of_bare coarse tailAlike).trans nodes) finished
          refine ⟨forall_mem_cons.mpr ⟨⟨fault, by simp⟩, fun o member => ⟨(clean o member).1, by simp⟩⟩, ?_⟩
          simp [left, Walked.left?, fate, map_of_bare coarse frontAlike]

theorem walkItems_cons (p : Pass) (loose : Bool) (v : Value) (rest : List Value) :
    walkItems p loose (v :: rest) =
      if (walkItem p loose v).fault.isSome then walkItem p loose v :: rest.map fun v => .done (.untouched v)
      else walkItem p loose v :: walkItems p loose rest := by
  rfl

theorem walkItems_eq_map
    (clean : ∀ o ∈ walkItems p loose items, o.fault = none) :
    walkItems p loose items = items.map (walkItem p loose) := by
  induction items with
  | nil => rfl
  | cons v rest ih =>
    rw [walkItems_cons] at clean ⊢
    split at clean
    · rename_i stuck
      have := clean _ mem_cons_self
      simp [this] at stuck
    · rename_i fine
      rw [if_neg fine, ih fun o member => clean o (mem_cons_of_mem _ member), map_cons]

variable {o : Outcome Walked}

theorem walkItems_mem (member : o ∈ walkItems p loose items) :
    (∃ v ∈ items, o = walkItem p loose v) ∨ ∃ v, o = .done (.untouched v) := by
  induction items with
  | nil => simp [walkItems] at member
  | cons v rest ih =>
    rw [walkItems_cons] at member
    split at member
    · rcases mem_cons.mp member with rfl | later
      · exact Or.inl ⟨v, mem_cons_self, rfl⟩
      · obtain ⟨w, -, rfl⟩ := mem_map.mp later
        exact Or.inr ⟨w, rfl⟩
    · rcases mem_cons.mp member with rfl | later
      · exact Or.inl ⟨v, mem_cons_self, rfl⟩
      · rcases ih later with ⟨w, inside, same⟩ | untouched
        · exact Or.inl ⟨w, mem_cons_of_mem _ inside, same⟩
        · exact Or.inr untouched

theorem Pass.CarriesNothing.walkItem_goes (nothing : p.CarriesNothing)
    (goes : (walkItem p loose v).value.fate = .goes carry) : carry = .nothing := by
  obtain ⟨w, down | up⟩ := Flag.walkItem_goes goes
  · exact (nothing w carry).1 down
  · exact (nothing w carry).2 up

theorem Pass.CarriesNothing.walkItems_goes (nothing : p.CarriesNothing)
    (member : o ∈ walkItems p loose items) (goes : o.value.fate = .goes carry) : carry = .nothing := by
  rcases walkItems_mem member with ⟨v, -, rfl⟩ | ⟨v, rfl⟩
  · exact nothing.walkItem_goes goes
  · cases goes

theorem moveOut_statements (isOwn : Bool) (carry : Carry) (body : List Value) (i : Nat) (home : Home) :
    (moveOut isOwn carry body i home).value.2.statements = home.statements := by
  unfold moveOut
  split
  · rfl
  · split
    · exact takeOver_statements _ _ _
    · rfl

theorem moveOut_nothing (isOwn : Bool) (body : List Value) (i : Nat) (home : Home) :
    (moveOut isOwn .nothing body i home).value.2 = home := by
  unfold moveOut
  split
  · rfl
  · split
    · rw [takeOver_nothing]
      rfl
    · rfl

theorem settle_home {P : Home → Prop} {raw : List Value} {i : Nat}
    {body : List Value}
    (step : ∀ o ∈ os, ∀ carry, o.value.fate = .goes carry → ∀ body i home, P home →
      P (moveOut isOwn carry body i home).value.2)
    (start : P home) : P (settle isOwn raw os i body home).value.2 := by
  induction os generalizing i body home with
  | nil => exact start
  | cons o os ih =>
    have tail {i : Nat} {body : List Value} {home : Home} (start : P home) :
        P (settle isOwn raw os i body home).value.2 :=
      ih (fun o member => step o (mem_cons_of_mem _ member)) start
    rw [settle]
    split
    · exact start
    · exact tail start
    · exact tail start
    · rename_i carry _ fate
      have moved := step o mem_cons_self carry fate body i home start
      dsimp only
      split
      · exact moved
      · exact tail moved

def leftOf (p : Pass) (loose : Bool) (items : List Value) : List Value :=
  items.filterMap fun v => (walkItem p loose v).value.left?

theorem asListField_left
    (view : p.Retains ∧ home.gained = [] ∨ Coarse g)
    (finished : (asListField home isOwn items (walkItems p loose items)).fault = none) :
    (∀ v ∈ items, Walks p ((asListField home isOwn items (walkItems p loose items)).changed = false) loose v) ∧
      ∃ left, (asListField home isOwn items (walkItems p loose items)).value.1 = .list left ∧
        left.map g = (leftOf p loose items).map g := by
  have enriched : (Home.enrich home.gained ((walkItems p loose items).map fun o => o.value.node)).map g =
      (walkItems p loose items).map fun o => g o.value.node := by
    rcases view with ⟨-, none⟩ | coarse
    · simp [none]
    · rw [map_of_bare coarse (enrich_bare _ _), map_map]
      rfl
  have calm : (∀ o ∈ walkItems p loose items, ∀ carry, o.value.fate ≠ .goes carry) ∨ Coarse g := by
    refine view.imp_left fun kept o member carry => ?_
    rcases walkItems_mem member with ⟨v, -, rfl⟩ | ⟨v, rfl⟩
    · exact kept.1.walkItem_stays loose v carry
    · rintro ⟨⟩
  have conclude {rest : List Value} (nodes : rest.map g = (walkItems p loose items).map fun o => g o.value.node)
      (settled : (settle isOwn items (walkItems p loose items) 0 rest home).fault = none) :
      (∀ v ∈ items, Walks p ((settle isOwn items (walkItems p loose items) 0 rest home).changed = false) loose v) ∧
        (settle isOwn items (walkItems p loose items) 0 rest home).value.1.map g = (leftOf p loose items).map g := by
    obtain ⟨clean, left⟩ := @settle_left isOwn g home _ items [] rest calm nodes settled
    have whole := walkItems_eq_map fun o member => (clean o member).1
    rw [whole] at clean left ⊢
    refine ⟨fun v member => clean _ (mem_map_of_mem member), ?_⟩
    simpa [leftOf] using left
  cases isOwn with
  | true =>
    obtain ⟨clean, left⟩ := conclude enriched finished
    exact ⟨clean, _, rfl, left⟩
  | false =>
    obtain ⟨clean, left⟩ := conclude (by rw [map_map]; rfl) finished
    exact ⟨clean, _, rfl, left⟩

theorem asField_slot (finished : (asField home o).fault = none) :
    (o.fault = none ∧ ((asField home o).changed = false → Still o)) ∧ (asField home o).value.1 = o.value.slot := by
  unfold asField at finished ⊢
  split at finished
  · rename_i carry fault fate
    dsimp only at finished ⊢
    split at finished
    · cases finished
    · simp [fault, fate, Walked.slot, Walked.left?]
  · rename_i stays
    have fault : o.fault = none := finished
    have stays (carry : Carry) : o.value.fate ≠ .goes carry := stays carry fault
    refine ⟨⟨fault, fun same => ⟨same, stays⟩⟩, ?_⟩
    cases fate : o.value.fate with
    | goes carry => exact (stays carry fate).elim
    | stays => simp [fate, Walked.value, Walked.slot, Walked.left?]
    | becomes v => simp [fate, Walked.value, Walked.slot, Walked.left?]

theorem asField_statements (home : Home) (o : Outcome Walked) :
    (asField home o).value.2.statements = home.statements := by
  unfold asField
  split
  · dsimp only
    split <;> exact takeOver_statements _ _ _
  · rfl

theorem asField_gained (nothing : ∀ carry, o.value.fate = .goes carry → carry = .nothing) :
    (asField home o).value.2.gained = home.gained := by
  unfold asField
  split
  · rename_i carry _ fate
    simp [nothing carry fate, Outcome.done]
  · rfl

theorem fieldThen_finished {key : String} {head : Outcome (Value × Home)} {raw : Entries}
    {tail : Home → Outcome (Entries × Home)} (finished : (fieldThen key head raw tail).fault = none) :
    head.fault = none ∧ (tail head.value.2).fault = none ∧
      (fieldThen key head raw tail).value = ((key, head.value.1) :: (tail head.value.2).value.1, (tail head.value.2).value.2) ∧
      (fieldThen key head raw tail).changed = (head.changed || (tail head.value.2).changed) := by
  unfold fieldThen at finished ⊢
  cases fault : head.fault with
  | some f => simp [fault] at finished
  | none =>
    simp only [fault] at finished ⊢
    exact ⟨trivial, finished, trivial, trivial⟩

/-- What is left of a field, seen through `g`, if `out` is left of what stands in it. -/
inductive FieldLeft (g : Value → Value) (out : Spot → Value → List Value) (kind key : String) : Value → Value → Prop where
  | only {v : Value} (child : isChild (childFields kind) key = true) (node : isNode v = true) :
      FieldLeft g out kind key v ((out .only v).head?.getD .null)
  | row {items left : List Value} (child : isChild (childFields kind) key = true)
      (kept : left.map g = (items.flatMap (out (.row (isPropertyList kind key)))).map g) :
      FieldLeft g out kind key (.list items) (.list left)
  | same {v : Value} (untouched : isChild (childFields kind) key = false ∨ isNode v = false ∧ ∀ items, v ≠ .list items) :
      FieldLeft g out kind key v v
  | aside {items left : List Value} (body : key = "body") (other : isChild (childFields kind) key = false)
      (kept : left.map g = items.map g) : FieldLeft g out kind key (.list items) (.list left)

def Leaves (g : Value → Value) (out : Spot → Value → List Value) (loose : Bool) (es es' : Entries) : Prop :=
  List.Forall₂ (fun e e' => e'.1 = e.1 ∧ FieldLeft g out (visitedKind loose es) e.1 e.2 e'.2) es es'

def walkAt (p : Pass) (spot : Spot) (v : Value) : Outcome (List Value) := (walkItem p spot.loose v).map (·.left?.toList)

theorem walkAt_slot (spot : Spot) : (walkAt p spot v).value.head?.getD .null = (walkItem p spot.loose v).value.slot := by
  show (walkItem p spot.loose v).value.left?.toList.head?.getD .null = _
  rw [Walked.slot]
  cases (walkItem p spot.loose v).value.left? <;> rfl

theorem walkAt_row (loose : Bool) (items : List Value) : (items.flatMap fun v => (walkAt p (.row loose) v).value) = leftOf p loose items := by
  rw [leftOf, filterMap_eq_flatMap_toList]
  rfl

/-- What a walk that finishes leaves of the fields of a node. -/
structure After (p : Pass) (g : Value → Value) (loose : Bool) (es es' : Entries) : Prop where
  leaves : Leaves g (fun spot x => (walkAt p spot x).value) loose es es'
  walks : ∀ e ∈ es, ∀ spot x, Within (visitedKind loose es) e.1 e.2 spot x → (walkItem p spot.loose x).fault = none

section Fields

variable {p : Pass} {g : Value → Value} {kind : String} {fields : Option (List String)} {home : Home}
  {key : String} {v w w' : Value} {items body : List Value} {es es' : Entries}
    {loose : Bool}

def headField (p : Pass) (kind : String) (fields : Option (List String)) (home : Home) (key : String) :
    Value → Outcome (Value × Home)
  | .list items =>
    if isChild fields key then asListField home (key == "body") items (walkItems p (isPropertyList kind key) items)
    else .done (.list items, home)
  | v => if isChild fields key && isNode v then asField home (walkNode p false v) else .done (v, home)

theorem walkEntries_cons (p : Pass) (kind : String) (fields : Option (List String)) (home : Home) (key : String)
    (v : Value) (rest : Entries) :
    walkEntries p kind fields home ((key, v) :: rest) =
      fieldThen key (headField p kind fields home key v) rest fun home => walkEntries p kind fields home rest := by
  cases v <;> rw [walkEntries] <;> first | rfl | rintro _ ⟨⟩

theorem headField_after (view : p.Retains ∧ home.gained = [] ∨ Coarse g)
    (finished : (headField p kind (childFields kind) home key v).fault = none) :
    FieldLeft g (fun spot x => (walkAt p spot x).value) kind key v (headField p kind (childFields kind) home key v).value.1 ∧
      ∀ spot x, Within kind key v spot x → Walks p ((headField p kind (childFields kind) home key v).changed = false) spot.loose x := by
  by_cases listed : ∃ items, v = .list items
  · obtain ⟨items, rfl⟩ := listed
    simp only [headField] at finished ⊢
    split at finished
    · rename_i child
      rw [if_pos child]
      obtain ⟨clean, left, value, kept⟩ := asListField_left view finished
      rw [value]
      refine ⟨.row child (by rw [walkAt_row]; exact kept), fun spot x within => ?_⟩
      cases within with
      | only _ node => cases node
      | row _ inside => exact clean x inside
    · rename_i other
      rw [if_neg other]
      refine ⟨.same (Or.inl (by simpa using other)), fun spot x within => ?_⟩
      cases within with
      | only child => exact (other child).elim
      | row child => exact (other child).elim
  · have single : headField p kind (childFields kind) home key v =
        if isChild (childFields kind) key && isNode v then asField home (walkNode p false v) else .done (v, home) := by
      cases v <;> first | rfl | exact (listed ⟨_, rfl⟩).elim
    rw [single] at finished ⊢
    split at finished
    · rename_i child
      rw [if_pos child]
      simp only [Bool.and_eq_true] at child
      rw [← walkItem_node child.2] at finished ⊢
      obtain ⟨clean, value⟩ := asField_slot finished
      rw [value, show (walkItem p false v).value.slot = _ from (walkAt_slot .only).symm]
      refine ⟨.only child.1 child.2, fun spot x within => ?_⟩
      cases within with
      | only => exact clean
      | row => exact (listed ⟨_, rfl⟩).elim
    · rename_i other
      rw [if_neg other]
      simp only [Bool.and_eq_true, not_and, Bool.not_eq_true] at other
      refine ⟨.same ?_, fun spot x within => ?_⟩
      · cases child : isChild (childFields kind) key with
        | false => exact Or.inl rfl
        | true => exact Or.inr ⟨other child, fun items same => listed ⟨items, same⟩⟩
      · cases within with
        | only child node => simp [other child] at node
        | row => exact (listed ⟨_, rfl⟩).elim

theorem asListField_gained (nothing : p.CarriesNothing) (none : home.gained = []) (isOwn loose : Bool) :
    (asListField home isOwn items (walkItems p loose items)).value.2.gained = [] := by
  unfold asListField
  split
  · rfl
  · refine settle_home (P := fun h => h.gained = []) ?_ none
    intro o member carry goes body i home none
    rw [nothing.walkItems_goes member goes, moveOut_nothing]
    exact none

theorem headField_gained (nothing : p.CarriesNothing) (none : home.gained = []) (v : Value) :
    (headField p kind fields home key v).value.2.gained = [] := by
  unfold headField
  split <;> split
  · exact asListField_gained nothing none _ _
  · exact none
  · rw [asField_gained]
    · exact none
    · intro carry goes
      obtain ⟨w, down | up⟩ := walkNode_goes goes
      · exact (nothing w carry).1 down
      · exact (nothing w carry).2 up
  · exact none

theorem walkEntries_after (view : p.Retains ∧ home.gained = [] ∨ Coarse g)
    (finished : (walkEntries p kind (childFields kind) home es).fault = none) :
    List.Forall₂ (fun e e' => e'.1 = e.1 ∧ FieldLeft g (fun spot x => (walkAt p spot x).value) kind e.1 e.2 e'.2) es
        (walkEntries p kind (childFields kind) home es).value.1 ∧
      ∀ e ∈ es, ∀ spot x, Within kind e.1 e.2 spot x →
        Walks p ((walkEntries p kind (childFields kind) home es).changed = false) spot.loose x := by
  induction es generalizing home with
  | nil => exact ⟨.nil, by simp⟩
  | cons e rest ih =>
    obtain ⟨key, v⟩ := e
    rw [walkEntries_cons] at finished ⊢
    obtain ⟨head, tail, value, changed⟩ := fieldThen_finished finished
    obtain ⟨field, own⟩ := headField_after view head
    obtain ⟨fields, others⟩ := ih (view.imp_left fun kept => ⟨kept.1, headField_gained kept.1.carriesNothing kept.2 v⟩) tail
    rw [value, changed, Bool.or_eq_false_iff]
    refine ⟨.cons ⟨rfl, field⟩ fields, forall_mem_cons.mpr ⟨fun spot x within => ?_, fun e held spot x within => ?_⟩⟩
    · exact ⟨(own spot x within).1, fun same => (own spot x within).2 same.1⟩
    · exact ⟨(others e held spot x within).1, fun same => (others e held spot x within).2 same.2⟩

theorem walkEntries_gained (nothing : p.CarriesNothing) (none : home.gained = []) :
    (walkEntries p kind fields home es).value.2.gained = [] := by
  induction es generalizing home with
  | nil => exact none
  | cons e rest ih =>
    obtain ⟨key, v⟩ := e
    have head : (headField p kind fields home key v).value.2.gained = [] := headField_gained nothing none v
    rw [walkEntries_cons]
    unfold fieldThen
    split
    · exact head
    · exact ih head

theorem headField_statements (p : Pass) (kind : String) (fields : Option (List String)) (home : Home) (key : String)
    (v : Value) :
    (key = "body" ∧ ∃ items left, v = .list items ∧
      (headField p kind fields home key v).value = (.list left, { statements := some left })) ∨
    (headField p kind fields home key v).value.2.statements = home.statements ∧
      (key = "body" → ∀ items, v = .list items → (headField p kind fields home key v).value.1 = v) := by
  unfold headField
  split <;> split
  · rename_i items _
    by_cases own : key = "body"
    · subst own
      exact Or.inl ⟨rfl, items, _, rfl, rfl⟩
    · refine Or.inr ⟨?_, fun hit => (own hit).elim⟩
      simp only [asListField, beq_eq_false_iff_ne.mpr own]
      refine settle_home (P := fun h => h.statements = home.statements) ?_ rfl
      intro o _ carry _ body i home same
      rw [moveOut_statements, same]
  · exact Or.inr ⟨rfl, fun _ _ _ => rfl⟩
  · rename_i v single _
    exact Or.inr ⟨asField_statements _ _, fun _ items listed => (single items listed).elim⟩
  · exact Or.inr ⟨rfl, fun _ _ _ => rfl⟩

theorem walkEntries_statements (once : (es.map Prod.fst).count "body" ≤ 1)
    (finished : (walkEntries p kind fields home es).fault = none)
    (fits : ∀ body, home.statements = some body →
      Entries.get? "body" es = some (.list body) ∨ Entries.get? "body" es = none)
    (stated : (walkEntries p kind fields home es).value.2.statements = some body) :
    (∃ items, Entries.get? "body" es = some (.list items) ∧
      Entries.get? "body" (walkEntries p kind fields home es).value.1 = some (.list body)) ∨
    Entries.get? "body" es = none ∧ home.statements = some body := by
  induction es generalizing home with
  | nil => exact Or.inr ⟨rfl, stated⟩
  | cons e rest ih =>
    obtain ⟨key, v⟩ := e
    rw [walkEntries_cons] at finished stated ⊢
    obtain ⟨head, tail, value, -⟩ := fieldThen_finished finished
    rw [value] at stated ⊢
    have others :=
      Nat.le_trans (count_le_count_cons) once
    by_cases own : key = "body"
    · subst own
      have gone : Entries.get? "body" rest = none := by
        cases read : Entries.get? "body" rest with
        | none => rfl
        | some w =>
          have again : 0 < (rest.map Prod.fst).count "body" :=
            count_pos_iff.mpr (mem_map_of_mem (f := Prod.fst) (Entries.mem_of_get? read))
          simp only [map_cons, count_cons_self] at once
          omega
      obtain ⟨items, read, _⟩ | ⟨_, stated⟩ := ih others tail (fun _ _ => Or.inr gone) stated
      · simp [gone] at read
      rcases headField_statements p kind fields home "body" v with ⟨-, items, left, rfl, whole⟩ | ⟨same, kept⟩
      · rw [whole] at stated
        cases stated
        exact Or.inl ⟨items, by simp [Entries.get?], by simp [Entries.get?, whole]⟩
      · rw [same] at stated
        rcases fits body stated with read | read
        · have listed : v = .list body := by simpa [Entries.get?] using read
          subst listed
          exact Or.inl ⟨body, read, by simp [Entries.get?, kept rfl body rfl]⟩
        · simp [Entries.get?] at read
    · have same : (headField p kind fields home key v).value.2.statements = home.statements := by
        rcases headField_statements p kind fields home key v with ⟨hit, _⟩ | ⟨same, _⟩
        · exact (own hit).elim
        · exact same
      have later := ih others tail (by
        intro body stated
        rw [same] at stated
        simpa [Entries.get?, own] using fits body stated) stated
      simpa [Entries.get?, own, same] using later

theorem forall₂_put {R : String × Value → String × Value → Prop} (keys : ∀ e e', R e e' → e'.1 = e.1)
    (related : List.Forall₂ R es es') (before : Entries.get? key es = some v) (after : Entries.get? key es' = some w)
    (swap : R (key, v) (key, w) → R (key, v) (key, w')) :
    List.Forall₂ R es (Entries.put key w' es') := by
  induction related with
  | nil => simp [Entries.get?] at before
  | @cons e e' rest rest' first others ih =>
    obtain ⟨k, x⟩ := e
    obtain ⟨k', x'⟩ := e'
    obtain rfl : k' = k := keys _ _ first
    by_cases hit : k' = key
    · subst hit
      simp only [Entries.get?, if_true, Option.some.injEq] at before after
      subst before after
      simp only [Entries.put, if_true]
      exact .cons (swap first) others
    · simp only [Entries.get?, if_neg hit] at before after
      simp only [Entries.put, if_neg hit]
      exact .cons first (ih before after)

theorem settleIn_after {out : Spot → Value → List Value}
    (related : List.Forall₂ (fun e e' => e'.1 = e.1 ∧ FieldLeft g out kind e.1 e.2 e'.2) es es')
    (quiet : home.gained = [] ∨ Coarse g ∧ ∀ body, home.statements = some body →
      ∃ items, Entries.get? "body" es = some (.list items) ∧ Entries.get? "body" es' = some (.list body)) :
    List.Forall₂ (fun e e' => e'.1 = e.1 ∧ FieldLeft g out kind e.1 e.2 e'.2) es (home.settleIn es') := by
  unfold Home.settleIn
  split
  · rename_i body stated
    split
    · exact related
    · rename_i gained
      rcases quiet with empty | ⟨coarse, read⟩
      · simp [empty] at gained
      · obtain ⟨items, before, after⟩ := read body stated
        refine forall₂_put (fun _ _ h => h.1) related before after fun both => ⟨rfl, ?_⟩
        obtain ⟨-, field⟩ := both
        have same : (Home.enrich home.gained body).map g = body.map g := map_of_bare coarse (enrich_bare _ _)
        generalize whole : Value.list body = v at field
        cases field with
        | only child node => cases node
        | row child kept =>
          cases whole
          exact .row child (same.trans kept)
        | same untouched =>
          rcases untouched with other | ⟨_, single⟩
          · exact .aside rfl other (by cases whole; exact same)
          · exact (single _ rfl).elim
        | aside _ other kept =>
          cases whole
          exact .aside rfl other (same.trans kept)
  · exact related

theorem reply_walked {r : Reply} (finished : r.walked.fault = none) :
    r.fault = none ∧ r.walked.value = r.outcome := by
  have fault : r.fault = none := finished
  exact ⟨fault, by simp [Reply.walked, fault]⟩

theorem leaveNode_finished {o : Outcome Entries} (finished : (leaveNode p o).fault = none) :
    o.fault = none ∧ (p.leave (.dict o.value)).fault = none ∧
      (leaveNode p o).value = (p.leave (.dict o.value)).outcome ∧
      (leaveNode p o).changed = (o.changed || (p.leave (.dict o.value)).changed) := by
  unfold leaveNode at finished ⊢
  cases fault : o.fault with
  | some f => simp [fault] at finished
  | none =>
    simp only [fault] at finished ⊢
    obtain ⟨left, value⟩ := reply_walked finished
    exact ⟨trivial, left, value, rfl⟩

theorem walkNode_cases (view : p.Retains ∨ Coarse g ∧ (p.CarriesNothing ∨ (es.map Prod.fst).count "body" ≤ 1))
    (finished : (walkNode p loose (.dict es)).fault = none) :
    (p.enter (.dict es)).fault = none ∧
      ((p.enter (.dict es)).action ≠ .keep ∧ (walkNode p loose (.dict es)).value = (p.enter (.dict es)).outcome ∨
        (p.enter (.dict es)).action = .keep ∧
          (p.strict → (childFields (visitedKind loose es)).isSome) ∧
          ∃ es', After p g loose es es' ∧ (p.leave (.dict es')).fault = none ∧
            (walkNode p loose (.dict es)).value = (p.leave (.dict es')).outcome) := by
  rw [walkNode] at finished ⊢
  dsimp only at finished ⊢
  split at finished
  · rename_i fault action
    refine ⟨fault, Or.inr ⟨action, ?_⟩⟩
    split at finished
    · cases finished
    · rename_i known
      rw [if_neg known]
      obtain ⟨walked, left, value, -⟩ := leaveNode_finished finished
      have quiet : p.Retains ∧ (Home.ofEntries es).gained = [] ∨ Coarse g :=
        view.imp (fun retains => ⟨retains, rfl⟩) And.left
      obtain ⟨fields, walks⟩ := walkEntries_after quiet walked
      refine ⟨fun strict => ?_, _, ⟨?_, fun e held spot x within => (walks e held spot x within).1⟩, left, value⟩
      · cases fields : childFields (visitedKind loose es) <;> simp_all
      -- the statement list was read off the same fields, so it is found there again
      · refine settleIn_after fields ?_
        rcases view with retains | ⟨coarse, nothing | once⟩
        · exact Or.inl (walkEntries_gained retains.carriesNothing rfl)
        · exact Or.inl (walkEntries_gained nothing rfl)
        · refine Or.inr ⟨coarse, fun body stated => ?_⟩
          have reads : ∀ body, (Home.ofEntries es).statements = some body →
              Entries.get? "body" es = some (.list body) := by
            intro body stated
            simp only [Home.ofEntries] at stated
            cases read : Entries.get? "body" es with
            | none => simp [read] at stated
            | some v => cases v <;> simp_all [Value.list?]
          rcases walkEntries_statements once walked (fun body h => Or.inl (reads body h)) stated with
            found | ⟨missing, stated⟩
          · exact found
          · simp [reads body stated] at missing
  · rename_i other
    obtain ⟨fault, value⟩ := reply_walked finished
    exact ⟨fault, Or.inl ⟨fun keep => other fault keep, value⟩⟩

theorem get?_forall₂ {R : String → Value → Value → Prop} (related : List.Forall₂ (fun e e' => e'.1 = e.1 ∧ R e.1 e.2 e'.2) es es')
    (key : String) : Entries.get? key es = none ∧ Entries.get? key es' = none ∨
      ∃ v w, Entries.get? key es = some v ∧ Entries.get? key es' = some w ∧ R key v w := by
  induction related with
  | nil => exact .inl ⟨rfl, rfl⟩
  | @cons e e' rest rest' first _ ih =>
    obtain ⟨k, v⟩ := e
    obtain ⟨k', w⟩ := e'
    obtain ⟨rfl, related⟩ := first
    by_cases hit : k' = key
    · subst hit
      exact .inr ⟨v, w, by simp [Entries.get?], by simp [Entries.get?], related⟩
    · simpa [Entries.get?, hit] using ih

section

variable {out : Spot → Value → List Value} (leaves : Leaves g out loose es es')
include leaves

theorem Leaves.read (key : String) : (Value.dict es).field? key = none ∧ (Value.dict es').field? key = none ∨
    ∃ v w, (Value.dict es).field? key = some v ∧ (Value.dict es').field? key = some w ∧ FieldLeft g out (visitedKind loose es) key v w :=
  get?_forall₂ leaves key

theorem Leaves.scalar (scalar : ∀ v, (Value.dict es).field? key = some v → isNode v = false ∧ ∀ items, v ≠ .list items) :
    (Value.dict es').field? key = (Value.dict es).field? key := by
  rcases leaves.read key with ⟨before, after⟩ | ⟨v, w, before, after, field⟩ <;> rw [before, after]
  obtain ⟨leaf, alone⟩ := scalar v before
  cases field with
  | only _ node => simp [leaf] at node
  | row => exact (alone _ rfl).elim
  | same => rfl
  | aside => exact (alone _ rfl).elim

theorem Leaves.type (typed : (Value.dict es).field? "type" = (kind? (.dict es)).map .str) :
    (Value.dict es').field? "type" = (Value.dict es).field? "type" := by
  refine leaves.scalar fun v held => ?_
  rw [typed] at held
  obtain ⟨kind, -, rfl⟩ := Option.map_eq_some_iff.mp held
  exact ⟨rfl, by rintro _ ⟨⟩⟩

theorem Leaves.kind?_of (known : Flag.kind? (.dict es) = some kind) : Flag.kind? (.dict es') = some kind := by
  rw [Flag.kind?, leaves.type (by rw [known]; exact type_of_kind? known)]
  exact known

theorem Leaves.field? (other : isChild (childFields (visitedKind loose es)) key = false) (different : key ≠ "body") :
    (Value.dict es').field? key = (Value.dict es).field? key := by
  rcases leaves.read key with ⟨before, after⟩ | ⟨v, w, before, after, field⟩ <;> rw [before, after]
  cases field with
  | only child => simp [child] at other
  | row child => simp [child] at other
  | same => rfl
  | aside body => exact (different body).elim

end

theorem After.of_entries (walked : (walkEntries p (visitedKind loose es) (childFields (visitedKind loose es)) home es).fault = none) :
    After p bare loose es (walkEntries p (visitedKind loose es) (childFields (visitedKind loose es)) home es).value.1 := by
  obtain ⟨fields, walks⟩ := walkEntries_after (Or.inr coarse_bare) walked
  exact ⟨fields, fun e held spot x within => (walks e held spot x within).1⟩

section

variable (after : After p g loose es es')
include after

theorem After.get?_list (child : isChild (childFields (visitedKind loose es)) key) (read : Entries.get? key es = some (.list items)) :
    (∀ v ∈ items, (walkItem p (isPropertyList (visitedKind loose es) key) v).fault = none) ∧
      ∃ left, Entries.get? key es' = some (.list left) ∧
        left.map g = (leftOf p (isPropertyList (visitedKind loose es) key) items).map g := by
  rcases after.leaves.read key with ⟨before, -⟩ | ⟨v, w, before, found, field⟩ <;> cases read.symm.trans before
  cases field with
  | only _ node => cases node
  | row _ kept =>
    exact ⟨fun v inside => after.walks _ (Entries.mem_of_get? read) _ v (.row child inside), _, found, by rw [kept, walkAt_row]⟩
  | same untouched => simp [child] at untouched
  | aside _ other => simp [child] at other

theorem After.part (child : isChild (childFields (visitedKind loose es)) key) (single : ∀ items, Flag.part (.dict es) key ≠ .list items) :
    (walkItem p false (Flag.part (.dict es) key)).fault = none ∧
      Flag.part (.dict es') key = (walkItem p false (Flag.part (.dict es) key)).value.slot := by
  rw [Flag.part] at single ⊢
  rcases after.leaves.read key with ⟨before, found⟩ | ⟨v, w, before, found, field⟩ <;> rw [before] at single ⊢ <;> rw [Flag.part, found]
  · exact ⟨rfl, rfl⟩
  · cases field with
    | only _ node => exact ⟨after.walks (key, v) (Entries.mem_of_get? before) _ v (.only child node), walkAt_slot .only⟩
    | row => exact (single _ rfl).elim
    | same untouched =>
      obtain ⟨leaf, -⟩ := untouched.resolve_left (by simp [child])
      rw [Option.getD_some, walkItem_leaf leaf]
      exact ⟨rfl, rfl⟩
    | aside => exact (single _ rfl).elim

theorem After.kind? {name : String} (known : kind? (.dict es) = some name) : kind? (.dict es') = some name := after.leaves.kind?_of known

theorem After.below {l : Bool} (below : Below loose es l v) : (walkNode p l v).fault = none := by
  cases below with
  | single held child node => exact walkItem_node node ▸ after.walks _ held _ v (.only child node)
  | listed held child inside visited =>
    have fine := after.walks _ held _ v (.row child inside)
    rwa [Spot.loose, walkItem, if_pos visited] at fine

end

end Fields

theorem settleRoot_finished (finished : (settleRoot o).fault = none) : o.fault = none := by
  unfold settleRoot at finished
  split at finished
  · assumption
  · exact finished

theorem settleRoot_stays (stays : o.value.fate = .stays) : (settleRoot o).value = o.value.node := by
  unfold settleRoot
  split
  · rename_i gone _
    rw [stays] at gone
    cases gone
  · rfl

def Quiet (p : Pass) (v : Value) : Prop :=
  ((p.enter v).fault = none → p.enter v = .keep v) ∧ ((p.leave v).fault = none → p.leave v = .keep v)

section Quiet

variable {p : Pass} {g : Value → Value} {loose l : Bool} {v w : Value} {items : List Value} {kind key : String}
  {fields : Option (List String)} {home : Home} {es es' entries : Entries}

theorem settleIn_nothing (nothing : home.gained = []) : home.settleIn entries = entries := by
  unfold Home.settleIn
  rw [nothing]
  split <;> rfl

theorem settle_untouched (isOwn : Bool) (raw : List Value) (items : List Value) (i : Nat) (body : List Value) (home : Home) :
    settle isOwn raw (items.map fun v => .done (.untouched v)) i body home = .done (body, home) := by
  induction items generalizing i with
  | nil => rfl
  | cons v rest ih =>
    rw [map_cons, settle]
    simp only [Outcome.done, Walked.untouched]
    have tail := ih (i + 1)
    simp only [Outcome.done, Walked.untouched] at tail
    rw [tail]
    rfl

theorem walkItems_untouched (still : ∀ v ∈ items, walkItem p loose v = .done (.untouched v)) :
    walkItems p loose items = items.map fun v => .done (.untouched v) := by
  induction items with
  | nil => rfl
  | cons v rest ih =>
    have head := still v mem_cons_self
    have tail := ih fun w member => still w (mem_cons_of_mem _ member)
    rw [walkItems_cons, head, tail]
    rfl

theorem asListField_untouched (still : ∀ v ∈ items, walkItem p loose v = .done (.untouched v)) (empty : home.gained = [])
    (isOwn : Bool) :
    ∃ home', asListField home isOwn items (walkItems p loose items) = .done (.list items, home') ∧ home'.gained = [] := by
  have nodes : ((items.map fun v => Outcome.done (Walked.untouched v)).map fun o => o.value.node) = items := by
    simp [Function.comp_def, Outcome.done, Walked.untouched]
  unfold asListField
  dsimp only
  rw [walkItems_untouched still, nodes, empty, enrich_nil, settle_untouched, settle_untouched]
  cases isOwn with
  | true => exact ⟨_, rfl, rfl⟩
  | false => exact ⟨home, rfl, empty⟩

theorem headField_untouched (still : ∀ spot x, Within kind key v spot x → walkItem p spot.loose x = .done (.untouched x))
    (empty : home.gained = []) : ∃ home', headField p kind (childFields kind) home key v = .done (v, home') ∧ home'.gained = [] := by
  unfold headField
  split <;> split
  · rename_i items child
    exact asListField_untouched (fun v inside => still _ v (.row child inside)) empty _
  · exact ⟨home, rfl, empty⟩
  · rename_i both
    obtain ⟨child, node⟩ := Bool.and_eq_true_iff.mp both
    have same := still _ _ (.only child node)
    rw [Spot.loose, walkItem_node node] at same
    rw [same]
    exact ⟨home, rfl, empty⟩
  · exact ⟨home, rfl, empty⟩

theorem walkEntries_untouched (still : ∀ e ∈ es, ∀ spot x, Within kind e.1 e.2 spot x → walkItem p spot.loose x = .done (.untouched x))
    (empty : home.gained = []) : ∃ home', walkEntries p kind (childFields kind) home es = .done (es, home') ∧ home'.gained = [] := by
  induction es generalizing home with
  | nil => exact ⟨home, rfl, empty⟩
  | cons e rest ih =>
    obtain ⟨own, others⟩ := forall_mem_cons.mp still
    obtain ⟨home₁, head, empty₁⟩ := headField_untouched own empty
    obtain ⟨home₂, tail, empty₂⟩ := ih others empty₁
    refine ⟨home₂, ?_, empty₂⟩
    rw [walkEntries_cons, head, fieldThen]
    simp only [Outcome.done] at tail ⊢
    rw [tail]
    rfl

theorem walkNode_untouched (known : ¬(p.strict && (childFields (visitedKind loose es)).isNone) = true)
    (enter : p.enter (.dict es) = .keep (.dict es)) (below : ∀ l v, Below loose es l v → walkNode p l v = .done (.untouched v)) :
    walkNode p loose (.dict es) = (p.leave (.dict es)).walked := by
  have still : ∀ e ∈ es, ∀ spot x, Within (visitedKind loose es) e.1 e.2 spot x → walkItem p spot.loose x = .done (.untouched x) := by
    intro e held spot x within
    unfold walkItem
    split
    · rename_i visited
      exact below _ x (within.below held visited)
    · rfl
  obtain ⟨home, children, empty⟩ := walkEntries_untouched still (rfl : (Home.ofEntries es).gained = [])
  rw [walkNode, enter]
  simp only [Reply.keep, if_neg known, children, Outcome.map, Outcome.done, settleIn_nothing empty, leaveNode, Bool.false_or]

theorem walkNode_quiet (quiet : Everywhere (Quiet p) loose v) (finished : (walkNode p loose v).fault = none) :
    walkNode p loose v = .done (.untouched v) := by
  induction loose, v using below_induction with
  | leaf loose v leaf => cases v <;> first | rfl | exact (leaf _ rfl).elim
  | node loose es ih =>
    obtain ⟨⟨enter, leave⟩, below⟩ := everywhere_below.mp quiet
    have whole := finished
    rw [walkNode] at finished
    dsimp only at finished
    split at finished
    · rename_i fault _
      split at finished
      · cases finished
      · rename_i known
        have after := After.of_entries (leaveNode_finished finished).1
        have same : walkNode p loose (.dict es) = (p.leave (.dict es)).walked :=
          walkNode_untouched known (enter fault) fun l v inside => ih l v inside (below l v inside) (after.below inside)
        rw [same] at whole ⊢
        rw [leave (reply_walked whole).1]
        rfl
    · rename_i other
      obtain ⟨fault, -⟩ := reply_walked finished
      exact (other fault (by rw [enter fault]; rfl)).elim

end Quiet

end Rulewright.Flag
