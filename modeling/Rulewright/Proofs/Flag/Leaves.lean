import Rulewright.Proofs.Flag.Descent
import Rulewright.Proofs.Flag.Flattening

/-!
What a step of the clean-up leaves of the fields of a node, once what stands in them was dealt with. The walk of a pass and the
flattening of blocks leave fields alike (`After`, `NodeFlat.leaves`), so what a step keeps is shown once, for `Leaves`.
-/

open List

namespace Rulewright.Flag

open Value Entries

def Child (loose : Bool) (es : Entries) (spot : Spot) (x : Value) : Prop :=
  ∃ key v, (key, v) ∈ es ∧ key ≠ "comments" ∧ Within (visitedKind loose es) key v spot x

section Leaves

variable {out : Spot → Value → List Value} {loose : Bool} {es es' : Entries} {key kind : String} {v w x : Value} {spot : Spot}

theorem isVisited_node (node : isNode v) : isVisited loose v := by
  simp [isVisited, node]

theorem isChild_comments (known : (childFields kind).isSome)
    (child : isChild (childFields kind) key) : key ≠ "comments" := by
  rintro rfl
  obtain ⟨fields, known⟩ := Option.isSome_iff_exists.mp known
  rw [known, isChild, childFields_contains known (by decide) (by decide)] at child
  cases child

theorem list?_any {q : List Value → Bool} : x.list?.any q ↔ ∃ items, x = .list items ∧ q items := by
  cases x <;> simp [Value.list?]

theorem child_induction {P : Spot → Value → Prop} (leaf : ∀ spot v, (∀ es, v ≠ .dict es) → P spot v)
    (node : ∀ spot es, (∀ inner x, Child spot.loose es inner x → P inner x) → P spot (.dict es)) (spot : Spot) (v : Value) : P spot v := by
  induction v using node_induction generalizing spot with
  | leaf v other => exact leaf spot v other
  | node es single listed =>
    refine node spot es fun inner x child => ?_
    obtain ⟨key, v, held, -, within⟩ := child
    cases within with
    | only => exact single key x held _
    | row _ inside => exact listed key _ held x inside _

theorem Child.below (child : Child loose es spot x) (visited : isVisited spot.loose x) : Below loose es spot.loose x := by
  obtain ⟨key, v, held, -, within⟩ := child
  exact within.below held visited

theorem Below.visited {l : Bool} (below : Below loose es l x) : isVisited l x := by
  cases below with
  | single _ _ node => exact isVisited_node node
  | listed _ _ _ visited => exact visited

theorem Below.child {l : Bool} (below : Below loose es l x) (known : (childFields (visitedKind loose es)).isSome) :
    ∃ spot : Spot, spot.loose = l ∧ Child loose es spot x := by
  cases below with
  | single held child node => exact ⟨.only, rfl, _, _, held, isChild_comments known child, .only child node⟩
  | listed held child inside => exact ⟨.row _, rfl, _, _, held, isChild_comments known child, .row child inside⟩

section

variable (leaves : Leaves bare out loose es es')
include leaves

theorem Leaves.keys : es'.map Prod.fst = es.map Prod.fst := by
  rw [← forall₂_eq_eq_eq, forall₂_map_left_iff, forall₂_map_right_iff]
  exact leaves.flip.imp fun _ _ same => same.1

/-- A part of a node was a node, a list, or nothing that a step comes by. -/
theorem Leaves.part_cases (other : key ≠ "comments") :
    (isNode (part (.dict es) key) ∧ Child loose es .only (part (.dict es) key) ∧
        part (.dict es') key = (out .only (part (.dict es) key)).head?.getD .null) ∨
      (∃ items left, part (.dict es) key = .list items ∧ part (.dict es') key = .list left ∧
        ∀ y ∈ left, ∃ z, bare z = bare y ∧ (z ∈ items ∨ ∃ l, ∃ x ∈ items, Child loose es (.row l) x ∧ z ∈ out (.row l) x)) ∨
      part (.dict es') key = part (.dict es) key := by
  rcases leaves.read key with ⟨before, after⟩ | ⟨v, w, before, after, field⟩ <;> rw [part, part, before, after]
  · exact .inr (.inr rfl)
  · have held := mem_of_get? before
    cases field with
    | only child node => exact .inl ⟨node, ⟨key, v, held, other, .only child node⟩, rfl⟩
    | row child kept =>
      refine .inr (.inl ⟨_, _, rfl, rfl, fun y inside => ?_⟩)
      obtain ⟨z, remains, same⟩ := mem_map.mp (kept ▸ mem_map_of_mem inside)
      obtain ⟨x, member, left⟩ := mem_flatMap.mp remains
      exact ⟨z, same, .inr ⟨_, x, member, ⟨key, _, held, other, .row child member⟩, left⟩⟩
    | same => exact .inr (.inr rfl)
    | aside _ _ kept =>
      refine .inr (.inl ⟨_, _, rfl, rfl, fun y inside => ?_⟩)
      obtain ⟨z, member, same⟩ := mem_map.mp (kept ▸ mem_map_of_mem inside)
      exact ⟨z, same, .inl member⟩

theorem Leaves.kind? (known : (childFields (visitedKind loose es)).isSome) : Flag.kind? (.dict es') = Flag.kind? (.dict es) := by
  obtain ⟨fields, known⟩ := Option.isSome_iff_exists.mp known
  rw [Flag.kind?, Flag.kind?, leaves.field? (by rw [known]; exact isChild_type known) (by decide)]

theorem Leaves.list_all {q : Value → Bool} (other : key ≠ "comments") (blind : ∀ v w, bare v = bare w → q v → q w)
    (step : ∀ l x, Child loose es (.row l) x → q x → ∀ y ∈ out (.row l) x, q y)
    (all : (Flag.part (.dict es) key).list?.any (·.all q)) : (Flag.part (.dict es') key).list?.any (·.all q) := by
  obtain ⟨items, held, each⟩ := list?_any.mp all
  rcases leaves.part_cases other with ⟨node, -⟩ | ⟨_, left, before, after, stays⟩ | same
  · rw [held] at node
    cases node
  · cases held.symm.trans before
    refine list?_any.mpr ⟨left, after, all_eq_true.mpr fun y inside => ?_⟩
    obtain ⟨z, alike, member | ⟨l, x, member, child, remains⟩⟩ := stays y inside
    · exact blind z y alike (all_eq_true.mp each z member)
    · exact blind z y alike (step l x child (all_eq_true.mp each x member) z remains)
  · rw [same]
    exact all

end

end Leaves

section Steps

variable {p : Pass} {loose : Bool} {es es' : Entries} {kind key : String} {v w x : Value} {spot : Spot} {f : Flattening} {fields : List String}

theorem walkAt_visited (visited : isVisited spot.loose v) :
    walkAt p spot v = (walkNode p spot.loose v).map (·.left?.toList) := by
  rw [walkAt, walkItem, if_pos visited]

theorem walkAt_hidden (hidden : isVisited spot.loose v = false) : walkAt p spot v = .done [v] := by
  rw [walkAt, walkItem, hidden]
  rfl

theorem After.inner (after : After p bare loose es es') (child : Child loose es spot x) : (walkAt p spot x).fault = none := by
  obtain ⟨key, v, held, -, within⟩ := child
  exact after.walks _ held spot x within

def flattenAt (f : Flattening) : Spot → Value → Outcome (List Value)
  | .only, v => (flattenNode f.keepComments false v).map ([·])
  | .row loose, v => (flatItem f loose v).map Flattened.parts

theorem NodeFlat.leaves (flat : NodeFlat f fields loose es w) :
    Leaves bare (fun spot x => (flattenAt f spot x).value) loose es (flatFields f loose fields es) := by
  refine forall₂_map_right_iff.mpr (forall₂_same.mpr fun e held => ⟨rfl, ?_⟩)
  obtain ⟨key, v⟩ := e
  have child : isChild (childFields (visitedKind loose es)) key = fields.contains key := by rw [flat.known]; rfl
  rcases flatField_cases (flat.clean _ held) with ⟨same, leaf⟩ | ⟨listed, ⟨node, -, same⟩ | ⟨items, rfl, fine, same⟩⟩ <;> rw [same]
  · refine .same ?_
    rw [child]
    cases listed : fields.contains key with
    | true => exact Or.inr (leaf listed)
    | false => exact Or.inl rfl
  · exact .only (child.trans listed) node
  · refine .row (child.trans listed) ?_
    rw [(flattenItems_finished fine).2]
    rfl

theorem NodeFlat.fine (flat : NodeFlat f fields loose es w) (child : Child loose es spot x) : (flattenAt f spot x).fault = none := by
  obtain ⟨key, v, held, -, within⟩ := child
  have contained : isChild (childFields (visitedKind loose es)) key → fields.contains key := by
    rw [flat.known]
    exact id
  cases within with
  | only child own => exact (flat.clean _ held (contained child)).1 own
  | row child inside => exact (flattenItems_finished ((flat.clean _ held (contained child)).2 _ rfl)).1 x inside

end Steps

end Rulewright.Flag
