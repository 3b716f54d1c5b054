import Rulewright.Proofs.Flag.Flatness
import Rulewright.Proofs.Flag.Upkeep

/-!
What a step of the clean-up leaves in the place of a node. The walk of a pass and the flattening of blocks both turn a node into
something simpler (`Remnant`) after what stands below it was dealt with in the same way (`Edits.walk_remains`,
`flattenNode_remains`). What every step keeps is shown once, for `Remains`.
-/

open List

namespace Rulewright.Flag

open Value Entries

inductive Remains (R : Spot → Value → List Value → Prop) : Spot → Value → List Value → Prop where
  | acts {spot : Spot} {v : Value} {ys : List Value} (does : R spot v ys) : Remains R spot v ys
  | node {spot : Spot} {es es' : Entries} {w : Value} {ys : List Value} {out : Spot → Value → List Value}
      (visited : isVisited spot.loose (.dict es) = true)
      (children : ∀ inner x, Child spot.loose es inner x → Remains R inner x (out inner x)) (leaves : Leaves bare out spot.loose es es')
      (same : bare w = bare (.dict es')) (does : R spot w ys) : Remains R spot (.dict es) ys

inductive Remnant : Spot → Value → List Value → Prop where
  | stays {spot : Spot} {v : Value} : Remnant spot v [v]
  | gone {spot : Spot} {es : Entries} : Remnant spot (.dict es) []
  | literal {spot : Spot} {es : Entries} {kind : String} (known : kind? (.dict es) = some kind) (listed : kind ∈ replaceable) (b : Bool) :
      Remnant spot (.dict es) [Flag.literal b]
  | branch {spot : Spot} {es : Entries} {w : Value} {key : String} (listed : key ∈ fieldsIn branches (.dict es))
      (taken : bare w = bare (part (.dict es) key)) : Remnant spot (.dict es) [w]
  | spilled {v : Value} {items ys : List Value} (block : kind? v = some "BlockStatement") (stated : statementsOf v = .ok items)
      (alike : ys.map bare = items.map bare) : Remnant (.row false) v ys

section Steps

variable {R : Spot → Value → List Value → Prop} {p : Pass} {loose keepComments up : Bool} {es es' : Entries} {kind key : String}
  {v w x : Value} {spot : Spot} {f : Flattening} {fields : List String} {ys : List Value} {r : Reply}

def Reply.left (r : Reply) : List Value := r.outcome.left?.toList

@[simp] theorem Reply.left_put (v w : Value) : (Reply.put v w).left = [w] := rfl

/-- What holds wherever a walk comes by, and says that a node has one body at most. -/
def Frames (F : Spot → Value → Prop) : Prop :=
  ∀ spot es, F spot (.dict es) → (es.map Prod.fst).count "body" ≤ 1 ∧ ∀ inner x, Child spot.loose es inner x → F inner x

theorem frames_complete {std : Standard} : Frames fun spot v => Everywhere (Complete std) spot.loose v :=
  fun _ _ complete => ⟨(everywhere_self complete).once, fun _ _ child => child.complete complete⟩

theorem walkAt_remains {F : Spot → Value → Prop}
    (frames : Frames F) (stays : ∀ spot v, R spot v [v])
    (enter : ∀ spot es, (p.enter (.dict es)).fault = none → R spot (.dict es) (p.enter (.dict es)).left)
    (leave : ∀ spot es, (p.leave (.dict es)).fault = none → R spot (.dict es) (p.leave (.dict es)).left)
    (held : F spot v) (finished : (walkAt p spot v).fault = none) : Remains R spot v (walkAt p spot v).value := by
  induction spot, v using child_induction with
  | leaf spot v leaf =>
    have hidden : isVisited spot.loose v = false := by
      cases v <;> first | exact (leaf _ rfl).elim | simp [isVisited, isNode, field?, dict?]
    rw [walkAt_hidden hidden]
    exact .acts (stays spot v)
  | node spot es ih =>
    cases visited : isVisited spot.loose (.dict es) with
    | false =>
      rw [walkAt_hidden visited]
      exact .acts (stays spot _)
    | true =>
      rw [walkAt_visited visited] at finished ⊢
      obtain ⟨once, below⟩ := frames spot es held
      obtain ⟨fault, ⟨-, value⟩ | ⟨-, -, es', after, left, value⟩⟩ := walkNode_cases (Or.inr ⟨coarse_bare, Or.inr once⟩) finished
      all_goals show Remains R spot _ (walkNode p spot.loose (.dict es)).value.left?.toList
      all_goals rw [value]
      · exact .acts (enter spot es fault)
      · exact .node visited (fun inner x child => ih inner x child (below inner x child) (after.inner child)) after.leaves rfl (leave spot es' left)

theorem Edit.remnant (edit : Edit (.dict es) up r) (spot : Spot) : Remnant spot (.dict es) r.left := by
  cases edit with
  | keep => exact .stays
  | stir => exact .stays
  | literal known listed b => exact .literal known listed b
  | branch branch => exact .branch branch.listed branch.taken
  | drop => exact .gone

theorem Edits.remains {F : Spot → Value → Prop} (edits : Edits p) (frames : Frames F) (held : F spot v) (finished : (walkAt p spot v).fault = none) : Remains Remnant spot v (walkAt p spot v).value :=
  walkAt_remains frames (fun _ _ => .stays) (fun spot _ fine => (edits.enter fine).remnant spot)
    (fun spot _ fine => (edits.leave fine).remnant spot) held finished

theorem run_root (root : kind? (.dict es) = some "Program") (once : (es.map Prod.fst).count "body" ≤ 1)
    (enter : ∀ v, kind? v = some "Program" → (p.enter v).fault = none → (p.enter v).action = .keep)
    (leave : ∀ v, kind? v = some "Program" → (p.leave v).fault = none → (p.leave v).action = .keep ∧ (p.leave v).node = v)
    (finished : (p.run (.dict es)).fault = none) :
    (walkAt p .only (.dict es)).fault = none ∧ (walkAt p .only (.dict es)).value = [(p.run (.dict es)).value] ∧
      kind? (p.run (.dict es)).value = some "Program" := by
  have walked := settleRoot_finished finished
  rw [walkAt_visited (isVisited_node (isNode_of_kind? root))]
  obtain ⟨fault, ⟨acts, -⟩ | ⟨-, -, es', after, left, value⟩⟩ := walkNode_cases (Or.inr ⟨coarse_bare, Or.inr once⟩) walked
  · exact (acts (enter _ root fault)).elim
  · have kind := after.kind? root
    obtain ⟨action, same⟩ := leave _ kind left
    rw [Reply.outcome, action, same] at value
    rw [Pass.run, settleRoot_stays (by rw [value]; rfl), value]
    refine ⟨walked, ?_, kind⟩
    show (walkNode p false (.dict es)).value.left?.toList = _
    rw [value]
    rfl

theorem Edit.stays (edit : Edit v up r) (root : kind? v = some "Program") : r.action = .keep ∧ r.node = v := by
  cases edit with
  | keep => exact ⟨rfl, rfl⟩
  | stir => exact ⟨rfl, rfl⟩
  | literal known listed =>
    cases root.symm.trans known
    exact absurd listed (by decide)
  | branch branch =>
    have listed := branch.listed
    simp [fieldsIn_program root] at listed
  | drop spent =>
    have fleeting := spent.fleeting
    simp [isSteady_program root] at fleeting

theorem Edits.run_remains {tree : Value} {F : Spot → Value → Prop} (edits : Edits p) (frames : Frames F) (held : F .only tree)
    (root : kind? tree = some "Program") (finished : (p.run tree).fault = none) :
    Remains Remnant .only tree [(p.run tree).value] ∧ kind? (p.run tree).value = some "Program" ∧
      (walkAt p .only tree).fault = none ∧ (walkAt p .only tree).value = [(p.run tree).value] := by
  obtain ⟨es, rfl⟩ := dict_of_kind? root
  obtain ⟨fine, left, kind⟩ := run_root root (frames _ es held).1 (fun _ root fine => ((edits.enter fine).stays root).1)
    (fun _ root fine => (edits.leave fine).stays root) finished
  exact ⟨left ▸ edits.remains frames held fine, kind, fine, left⟩

section

variable (stays : ∀ spot v, R spot v [v]) (spills : ∀ v items ys, kind? v = some "BlockStatement" → statementsOf v = .ok items →
  ys.map bare = items.map bare → R (.row false) v ys)
include stays spills

theorem NodeFlat.child (flat : NodeFlat f fields loose es w) (child : Child loose es spot x)
    (node : ∀ ys, isVisited spot.loose x → (flattenNode f.keepComments spot.loose x).fault = none →
      R spot (flattenNode f.keepComments spot.loose x).value ys → Remains R spot x ys) :
    Remains R spot x (flattenAt f spot x).value := by
  have fine := flat.fine child
  obtain ⟨key, v, held, -, within⟩ := child
  cases within with
  | only child own => exact node _ (isVisited_node own) fine (stays _ _)
  | row child inside =>
    show Remains R _ x (flatItem f _ x).value.parts
    rcases flatItem_cases fine with ⟨-, same⟩ | ⟨visited, clean, ⟨-, same⟩ | ⟨inScope, block, items, stated, alike⟩⟩
    · rw [same]
      exact .acts (stays _ x)
    · rw [same]
      exact node _ visited clean (stays _ _)
    · rw [isPropertyList_scope (flat.scope ▸ inScope)] at node visited clean block stated alike ⊢
      exact node _ visited clean (spills _ items _ (known_of block) stated alike)

theorem flattenNode_leaves (visited : isVisited spot.loose v) (finished : (flattenNode keepComments spot.loose v).fault = none)
    (rest : R spot (flattenNode keepComments spot.loose v).value ys) : Remains R spot v ys := by
  induction spot, v using child_induction generalizing ys with
  | leaf spot v leaf =>
    have same : flattenNode keepComments spot.loose v = .done v := by
      cases v <;> first | rfl | exact (leaf _ rfl).elim
    rw [same] at rest
    exact .acts rest
  | node spot es ih =>
    obtain ⟨fields, f, rfl, flat⟩ := flattenNode_finished finished
    exact .node visited (fun inner x child => flat.child stays spills child fun ys => ih inner x child) flat.leaves flat.alike rest

end

theorem flattenNode_remains (visited : isVisited spot.loose v) (finished : (flattenNode keepComments spot.loose v).fault = none)
    (rest : Remnant spot (flattenNode keepComments spot.loose v).value ys) : Remains Remnant spot v ys :=
  flattenNode_leaves (fun _ _ => .stays) (fun _ _ _ => .spilled) visited finished rest

theorem NodeFlat.remains (flat : NodeFlat f fields loose es w) (child : Child loose es spot x) :
    Remains Remnant spot x (flattenAt f spot x).value :=
  flat.child (fun _ _ => .stays) (fun _ _ _ => .spilled) child fun _ => flattenNode_remains

end Steps

section Standards

variable {std : Standard} {loose keepComments : Bool} {v : Value}

theorem flattenNode_complete (complete : Everywhere (Complete std) loose v) (finished : (flattenNode keepComments loose v).fault = none) :
    Everywhere (Complete std) false (flattenNode keepComments loose v).value := by
  obtain ⟨spot, rfl⟩ : ∃ spot : Spot, spot.loose = loose := ⟨.row loose, rfl⟩
  induction spot, v using child_induction with
  | leaf spot v leaf => cases v <;> first | exact (leaf _ rfl).elim | exact everywhere_leaf (by rintro _ ⟨⟩)
  | node spot es ih =>
    obtain ⟨fields, f, rfl, flat⟩ := flattenNode_finished finished
    have whole {inner : Spot} {x : Value} (child : Child spot.loose es inner x) := child.complete complete
    have only (x : Value) (child : Child spot.loose es .only x) : isNode (flattenNode f.keepComments false x).value := by
      rw [isNode_eq, flattenNode_kind? (flat.fine child), ← isNode_eq]
      exact child.isNode
    refine everywhere_of_bare flat.alike.symm ((flat.leaves.complete_iff complete fun x child => ?_).mpr ⟨fun key watched => ?_, fun key listed => ?_, fun inner x child => ?_⟩)
    · obtain ⟨fields, same⟩ := isNode_dict (only x child)
      exact Or.inr ⟨_, rfl, by rw [same]; rfl⟩
    · have held := (everywhere_self complete).fields key watched
      rcases flat.leaves.part_cases (Standard.fields_child watched).2 with ⟨-, child, after⟩ | ⟨_, left, -, after, -⟩ | unchanged
      · rw [after, show outline ((flattenAt f .only _).value.head?.getD .null) = _ from flattenNode_outline (flat.fine child)]
        exact held
      · rw [after]
        exact std.lists key
      · rwa [unchanged]
    · exact flat.leaves.list_all (statementLists_child listed).2.2 (fun v w alike => by rw [outline_of_bare alike]; exact id)
        (fun l x child statement y left => (flatItem_complete (everywhere_loose (whole child)) (ih _ x child (whole child)) (flat.fine child) y left).2 statement)
        ((everywhere_self complete).statements key listed)
    · cases inner with
      | only => exact forall_mem_singleton.mpr (ih .only x child (whole child) (flat.fine child))
      | row l => exact fun y left => (flatItem_complete (everywhere_loose (whole child)) (ih _ x child (whole child)) (flat.fine child) y left).1

theorem flattenBlocks_keeps {tree : Value} (keeps : Keeps std tree)
    (finished : (flattenBlocks keepComments tree).fault = none) : Keeps std (flattenBlocks keepComments tree).value := by
  obtain ⟨root, complete⟩ := keeps
  obtain ⟨es, rfl⟩ := dict_of_kind? root
  unfold flattenBlocks at finished ⊢
  dsimp only at finished ⊢
  split at finished
  · cases finished
  · rename_i plain
    rw [if_neg plain]
    exact ⟨by rw [flattenNode_kind? finished, root], flattenNode_complete complete finished⟩

end Standards

section Invariants

variable {R : Spot → Value → List Value → Prop} {spot : Spot} {v : Value} {ys : List Value}

theorem Remains.keeps {Q : Spot → Value → Prop} (remains : Remains R spot v ys)
    (down : ∀ spot es inner x, isVisited spot.loose (.dict es) → Q spot (.dict es) → Child spot.loose es inner x → Q inner x)
    (up : ∀ spot es es' out, isVisited spot.loose (.dict es) → Q spot (.dict es) → Leaves bare out spot.loose es es' →
      (∀ inner x, Child spot.loose es inner x → ∀ y ∈ out inner x, Q inner y) → Q spot (.dict es'))
    (blind : ∀ spot v w, bare v = bare w → Q spot v → Q spot w)
    (does : ∀ spot v ys, Q spot v → R spot v ys → ∀ y ∈ ys, Q spot y) (held : Q spot v) : ∀ y ∈ ys, Q spot y := by
  induction remains with
  | acts done => exact does _ _ _ held done
  | node visited _ leaves same done ih =>
    refine does _ _ _ (blind _ _ _ same.symm ?_) done
    exact up _ _ _ _ visited held leaves fun inner x child => ih inner x child (down _ _ _ _ visited held child)

end Invariants

end Rulewright.Flag
