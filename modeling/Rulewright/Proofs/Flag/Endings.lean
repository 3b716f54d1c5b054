import Rulewright.Proofs.Flag.Faithful
import Rulewright.Proofs.Flag.Inheritance
import Rulewright.Proofs.Flag.Remains
import Rulewright.Proofs.Flag.Silence

/-!
What a value may turn into. A conditional or a logical operator may give way to one of its branches, so a value ends as
one of the values at the ends of its branches. A pass takes endings away or puts truth values in their place; it adds no
name and no text (`Turning.walk`).
-/

open List

namespace Rulewright.Flag

mutual

def endings : Value → List Value
  | .dict es =>
    if (fieldsIn branches (.dict es)).isEmpty then [.dict es]
    else (fieldsIn branches (.dict es)).flatMap fun key => endingsAt key es
  | v => [v]

def endingsAt (key : String) : List (String × Value) → List Value
  | [] => [.null]
  | (k, v) :: rest => if k = key then endings v else endingsAt key rest

end

def isLasting (v : Value) : Bool :=
  isNode v && !("ExpressionStatement" :: (yielding ++ droppable)).contains (kindName v)

structure Fades (v w : Value) : Prop where
  name : kind? w = some "Identifier" → kind? v = some "Identifier" ∧ w.field? "name" = v.field? "name"
  text : kind? w = some "Literal" → ((w.field? "value").bind Value.str?).isSome = true →
    kind? v = some "Literal" ∧ w.field? "value" = v.field? "value"
  lasts : isLasting v = true → isLasting w = true

def Yields (R : Value → Value → Prop) (v w : Value) : Prop := ∀ x ∈ endings w, ∃ y ∈ endings v, R y x

/-- What a step may do to an ending. -/
structure Turns (R : Value → Value → Prop) : Prop where
  trans : ∀ u v w, R u v → R v w → R u w
  blind : ∀ v w, bare v = bare w → R v w
  made : ∀ v b, R v (literal b)
  lists : ∀ xs ys, R (.list xs) (.list ys)
  gone : ∀ v, Spent v → R v .null
  stays {out : Spot → Value → List Value} {loose : Bool} {es es' : Entries} : (childFields (visitedKind loose es)).isSome = true →
    Leaves bare out loose es es' → (∀ key, key ≠ "comments" → Yields R (part (.dict es) key) (part (.dict es') key)) → R (.dict es) (.dict es')

section Endings

variable {R : Value → Value → Prop} {Q : Value → Prop} {v w x u : Value} {key kind : String} {es : Entries}

theorem part_held (es : Entries) (key : String) : part (.dict es) key = .null ∨ (key, part (.dict es) key) ∈ es := by
  cases read : (Value.dict es).field? key with
  | none => exact Or.inl (by rw [part, read, Option.getD_none])
  | some v =>
    rw [part, read]
    exact Or.inr (Entries.mem_of_get? read)

theorem endingsAt_eq (key : String) (es : Entries) : endingsAt key es = endings (part (.dict es) key) := by
  induction es with
  | nil => rfl
  | cons e rest ih =>
    rw [endingsAt]
    split
    · rename_i same
      simp [part, Value.field?, Entries.get?, same]
    · rename_i other
      rw [ih]
      simp [part, Value.field?, Entries.get?, other]

theorem endings_end (single : fieldsIn branches v = []) : endings v = [v] := by
  cases v with
  | dict es => rw [endings, if_pos (by simp [single])]
  | _ => rfl

theorem endings_of_kind (known : kind? v = some kind) (single : yielding.contains kind = false) :
    fieldsIn branches v = [] ∧ endings v = [v] := by
  have none : fieldsIn branches v = [] := by
    refine eq_nil_iff_forall_not_mem.mpr fun key listed => ?_
    have branched := branches_yielding listed
    rw [kindName_of_kind? known, single] at branched
    cases branched
  exact ⟨none, endings_end none⟩

theorem mem_endings (branched : fieldsIn branches v ≠ []) :
    x ∈ endings v ↔ ∃ key ∈ fieldsIn branches v, x ∈ endings (part v key) := by
  cases v with
  | dict es =>
    rw [endings, if_neg (by simpa using branched), mem_flatMap]
    simp only [endingsAt_eq]
  | _ => exact (branched rfl).elim

theorem endings_exist (v : Value) : ∃ x, x ∈ endings v := by
  induction v using node_induction with
  | leaf v leaf => cases v <;> first | exact (leaf _ rfl).elim | exact ⟨_, mem_cons_self⟩
  | node es single =>
    by_cases none : fieldsIn branches (.dict es) = []
    · exact ⟨_, by rw [endings_end none]; exact mem_cons_self⟩
    · obtain ⟨key, listed⟩ := exists_mem_of_ne_nil _ none
      have inside : ∃ x, x ∈ endings (part (.dict es) key) := by
        rcases part_held es key with missing | held
        · rw [missing]
          exact ⟨.null, mem_cons_self⟩
        · exact single key _ held
      obtain ⟨x, ends⟩ := inside
      exact ⟨x, (mem_endings none).mpr ⟨key, listed, ends⟩⟩

theorem Fades.trans (first : Fades u v) (second : Fades v w) : Fades u w := by
  refine ⟨fun known => ?_, fun known text => ?_, second.lasts ∘ first.lasts⟩
  · obtain ⟨knownV, same⟩ := second.name known
    obtain ⟨knownU, before⟩ := first.name knownV
    exact ⟨knownU, same.trans before⟩
  · obtain ⟨knownV, same⟩ := second.text known text
    obtain ⟨knownU, before⟩ := first.text knownV (by rw [← same]; exact text)
    exact ⟨knownU, same.trans before⟩

theorem fades_of_fields (kind : kind? w = kind? v) (name : kind? v = some "Identifier" → w.field? "name" = v.field? "name")
    (value : kind? v = some "Literal" → w.field? "value" = v.field? "value") : Fades v w := by
  refine ⟨fun known => ?_, fun known _ => ?_, fun lasting => ?_⟩
  · rw [kind] at known
    exact ⟨known, name known⟩
  · rw [kind] at known
    exact ⟨known, value known⟩
  · rw [isLasting, isNode_eq, kindName, kind, ← isNode_eq]
    exact lasting

theorem fades_of_bare (same : bare v = bare w) : Fades v w :=
  fades_of_fields (kind?_of_bare same).symm (fun _ => (field?_of_bare same (by decide)).symm)
    (fun _ => (field?_of_bare same (by decide)).symm)

theorem fades_literal (v : Value) (b : Bool) : Fades v (literal b) :=
  ⟨fun known => absurd known (by cases b <;> decide), by rintro - ⟨⟩, fun _ => by cases b <;> decide⟩

theorem fades_null (gone : isLasting v = false) : Fades v .null :=
  ⟨by rintro ⟨⟩, by rintro ⟨⟩, by rw [gone]; rintro ⟨⟩⟩

theorem Yields.all (yields : Yields R v w) (keeps : ∀ y x, R y x → Q y → Q x) (ends : ∀ x ∈ endings v, Q x) : ∀ x ∈ endings w, Q x := by
  intro x last
  obtain ⟨y, before, turned⟩ := yields x last
  exact keeps y x turned (ends y before)

theorem yields_end (single : fieldsIn branches v = []) (same : fieldsIn branches w = []) (turned : R v w) : Yields R v w := by
  intro x ends
  rw [endings_end same, mem_singleton] at ends
  subst ends
  exact ⟨v, by rw [endings_end single]; exact mem_cons_self, turned⟩

theorem yields_branches (kind : fieldsIn branches w = fieldsIn branches v) (branched : fieldsIn branches v ≠ [])
    (below : ∀ key ∈ fieldsIn branches v, Yields R (part v key) (part w key)) : Yields R v w := by
  intro x ends
  obtain ⟨key, listed, ends⟩ := (mem_endings (by rw [kind]; exact branched)).mp ends
  rw [kind] at listed
  obtain ⟨y, inside, turned⟩ := below key listed x ends
  exact ⟨y, (mem_endings branched).mpr ⟨key, listed, inside⟩, turned⟩

theorem yields_null (ends : x ∈ endings v) (gone : R x .null) : Yields R v .null := by
  intro y nothing
  obtain rfl := mem_singleton.mp nothing
  exact ⟨x, ends, gone⟩

section

variable (turns : Turns R)
include turns

theorem Turns.yields_refl (v : Value) : Yields R v v := fun x ends => ⟨x, ends, turns.blind x x rfl⟩

theorem Turns.yields_trans {u : Value} (first : Yields R u v) (second : Yields R v w) : Yields R u w := by
  intro x ends
  obtain ⟨y, endsV, turned⟩ := second x ends
  obtain ⟨z, endsU, before⟩ := first y endsV
  exact ⟨z, endsU, turns.trans z y x before turned⟩

theorem Turns.yields_part (listed : key ∈ fieldsIn branches v) : Yields R v (part v key) :=
  fun x ends => ⟨x, (mem_endings (ne_nil_of_mem listed)).mpr ⟨key, listed, ends⟩, turns.blind x x rfl⟩

theorem Turns.yields_of_bare (same : bare v = bare w) : Yields R v w := by
  have fields := fieldsIn_of_bare branches same
  by_cases single : fieldsIn branches v = []
  · exact yields_end single (by rw [← fields, single]) (turns.blind v w same)
  · refine yields_branches fields.symm single fun key listed => ?_
    rw [part_of_bare same (branches_child listed).2]
    exact turns.yields_refl _

theorem Turns.yields_literal (v : Value) (b : Bool) : Yields R v (literal b) := by
  intro x ends
  obtain ⟨y, inside⟩ := endings_exist v
  have made : endings (literal b) = [literal b] := endings_end (by cases b <;> decide)
  rw [made, mem_singleton] at ends
  subst ends
  exact ⟨y, inside, turns.made y b⟩

end

theorem not_lasting_of_fleeting (fleeting : (outline v).isSteady = false) : isLasting v = false := by
  cases lasting : isLasting v with
  | false => rfl
  | true =>
    simp only [isLasting, Bool.and_eq_true, Bool.not_eq_true', contains_cons, Bool.or_eq_false_iff, beq_eq_false_iff_ne]
      at lasting
    rw [Outline.isSteady, show (outline v).kind = kindName v from rfl, lasting.2.2] at fleeting
    simp [lasting.2.1] at fleeting

end Endings

structure Turning (R : Value → Value → Prop) (p : Pass) : Prop where
  enter {v : Value} : (p.enter v).fault = none → Yields R v (p.enter v).slot
  leave {v : Value} : (p.leave v).fault = none → Yields R v (p.leave v).slot

/-- What the children of a node turn into. Only statements may be spilled into the lists they stand in. -/
def Settles (R : Value → Value → Prop) (out : Spot → Value → List Value) (loose : Bool) (es : Entries) : Prop :=
  ∀ spot x, Child loose es spot x → spot = .only ∨ isScope (visitedKind loose es) = false →
    (out spot x).length ≤ 1 ∧ Yields R x ((out spot x).head?.getD .null)

section Steps

variable {R : Value → Value → Prop} {std : Standard} {p : Pass} {loose : Bool} {v w x : Value} {key kind : String} {es es' : Entries}
  {r : Reply} {f : Flattening} {fields : List String} {keepComments : Bool} {spot : Spot} {out : Spot → Value → List Value}

theorem Leaves.fades (known : (childFields (visitedKind loose es)).isSome) (leaves : Leaves bare out loose es es') :
    Fades (.dict es) (.dict es') :=
  fades_of_fields (leaves.kind? known) (fun own => leaves.field? (isChild_visitedKind own rfl loose) (by decide))
    fun own => leaves.field? (isChild_visitedKind own rfl loose) (by decide)

theorem turns_fades : Turns Fades where
  trans _ _ _ := .trans
  blind _ _ := fades_of_bare
  made := fades_literal
  lists _ _ := ⟨by rintro ⟨⟩, by rintro ⟨⟩, by rintro ⟨⟩⟩
  gone _ spent := fades_null (not_lasting_of_fleeting spent.fleeting)
  stays known leaves _ := leaves.fades known

section

variable (turns : Turns R)
include turns

theorem Turns.part (leaves : Leaves bare out loose es es') (only : ∀ x, Child loose es .only x → Yields R x ((out .only x).head?.getD .null))
    (other : key ≠ "comments") : Yields R (part (.dict es) key) (part (.dict es') key) := by
  rcases leaves.part_cases other with ⟨-, child, after⟩ | ⟨items, left, before, after, -⟩ | same
  · rw [after]
    exact only _ child
  · rw [before, after]
    exact yields_end rfl rfl (turns.lists items left)
  · rw [same]
    exact turns.yields_refl _

theorem Turns.node (known : (childFields (visitedKind loose es)).isSome) (leaves : Leaves bare out loose es es')
    (only : ∀ x, Child loose es .only x → Yields R x ((out .only x).head?.getD .null)) : Yields R (.dict es) (.dict es') := by
  have listed : fieldsIn branches (.dict es') = fieldsIn branches (.dict es) := by
    rw [fieldsIn, fieldsIn, kindName, kindName, leaves.kind? known]
  by_cases single : fieldsIn branches (.dict es) = []
  · exact yields_end single (listed.trans single) (turns.stays known leaves fun key => turns.part leaves only)
  · exact yields_branches listed single fun key isBranch => turns.part leaves only (branches_child isBranch).2

theorem Edit.yields {up : Bool} (edit : Edit v up r) : Yields R v r.slot := by
  cases edit with
  | keep => exact turns.yields_refl v
  | stir => exact turns.yields_refl v
  | literal _ _ b => exact turns.yields_literal v b
  | branch branch => exact turns.yields_trans (turns.yields_part branch.listed) (turns.yields_of_bare branch.taken.symm)
  | drop spent vacant =>
    rcases vacant with single | ⟨key, listed, missing⟩
    · refine yields_null (x := v) ?_ (turns.gone v spent)
      rw [endings_end single]
      exact mem_cons_self
    · have yields := turns.yields_part listed
      rw [missing] at yields
      exact yields

theorem Edits.turning (edits : Edits p) : Turning R p where
  enter fine := (edits.enter fine).yields turns
  leave fine := (edits.leave fine).yields turns

theorem Turning.walk (turning : Turning R p) (complete : Everywhere (Complete anything) spot.loose v)
    (finished : (walkAt p spot v).fault = none) : Yields R v ((walkAt p spot v).value.head?.getD .null) := by
  induction spot, v using child_induction with
  | leaf spot v leaf =>
    have hidden : isVisited spot.loose v = false := by
      cases v <;> first | exact (leaf _ rfl).elim | simp [isVisited, isNode, Value.field?, Value.dict?]
    rw [walkAt_hidden hidden]
    exact turns.yields_refl v
  | node spot es ih =>
    have self := everywhere_self complete
    rw [walkAt_visited (isVisited_node self.isNode)] at finished
    rw [walkAt_slot, walkItem_node self.isNode]
    obtain ⟨fine, ⟨-, value⟩ | ⟨-, -, es', after, left, value⟩⟩ := walkNode_cases self.view finished <;> rw [value, slot_ofAction]
    · exact turning.enter fine
    · refine turns.yields_trans (turns.node ?_ after.leaves fun x child => ?_) (turning.leave left)
      · rw [self.visitedKind]
        exact self.known
      · exact ih _ x child (child.complete complete) (after.inner child)

theorem Turning.settles (turning : Turning R p) (complete : Everywhere (Complete anything) loose (.dict es)) (after : After p bare loose es es') :
    Settles R (fun spot x => (walkAt p spot x).value) loose es := by
  refine fun spot x child _ => ⟨?_, turning.walk turns (child.complete complete) (after.inner child)⟩
  show (walkItem p spot.loose x).value.left?.toList.length ≤ 1
  cases (walkItem p spot.loose x).value.left? <;> simp

theorem Turns.flatten (finished : (flattenNode keepComments loose v).fault = none) : Yields R v (flattenNode keepComments loose v).value := by
  induction v using node_induction generalizing loose with
  | leaf v leaf => cases v <;> first | exact (leaf _ rfl).elim | exact turns.yields_refl _
  | node es single =>
    obtain ⟨fields, f, rfl, flat⟩ := flattenNode_finished finished
    refine turns.yields_trans (turns.node (by rw [flat.known]; rfl) flat.leaves fun x child => ?_) (turns.yields_of_bare flat.alike.symm)
    have fine := flat.fine child
    obtain ⟨key, v, held, -, within⟩ := child
    cases within with
    | only => exact single key x held fine

theorem NodeFlat.settles (flat : NodeFlat f fields loose es w) : Settles R (fun spot x => (flattenAt f spot x).value) loose es := by
  intro spot x child alone
  have fine := flat.fine child
  cases spot with
  | only => exact ⟨Nat.le_refl 1, turns.flatten fine⟩
  | row l =>
    show (flatItem f l x).value.parts.length ≤ 1 ∧ Yields R x ((flatItem f l x).value.parts.head?.getD .null)
    rcases flatItem_cases fine with ⟨-, same⟩ | ⟨visited, clean, ⟨-, same⟩ | ⟨inScope, -⟩⟩
    · rw [same]
      exact ⟨Nat.le_refl 1, turns.yields_refl x⟩
    · rw [same]
      exact ⟨Nat.le_refl 1, turns.flatten clean⟩
    · rw [flat.scope] at inScope
      simp [inScope] at alone

end

theorem unmark_turning : Turning Fades unmark where
  enter := by
    intro v finished
    rcases unmark_cases finished with ⟨-, kept⟩ | ⟨marked, put⟩
    · rw [kept]
      exact turns_fades.yields_refl v
    · rw [put, Reply.slot]
      have known := isMark_kind? marked
      have same {key : String} (other : key ≠ marker) : (v.unset marker).field? key = v.field? key := by
        cases v with
        | dict es => exact Entries.get?_erase_ne es other
        | _ => rfl
      have kind : kind? (v.unset marker) = kind? v := by rw [kind?, same (by decide), kind?]
      exact yields_end (endings_of_kind known (by decide)).1 (endings_of_kind (kind.trans known) (by decide)).1
        (fades_of_fields kind (fun _ => same (by decide)) (fun _ => same (by decide)))
  leave := fun _ => turns_fades.yields_refl _

end Steps

end Rulewright.Flag
