import Rulewright.Proofs.Flag.Flatness
import Rulewright.Proofs.Flag.Upkeep

/-!
What holds of every node of a tree is handed on by a pass, if it holds again of every node that stays
(`Hands.run`). The passes keep the shape of a script as long as nothing is asked of single fields and
statements (`Keeps anything`).
-/

open List

namespace Rulewright.Flag

def anything : Standard where
  fields := []
  child _ _ := true
  statement _ := true
  children := by rintro _ ⟨⟩
  literals := rfl
  lists _ := rfl

section Inheritance

variable {P Q : Value → Prop} {std : Standard} {p : Pass} {g : Value → Value} {loose l other : Bool} {v w tree : Value}
  {key : String} {es es' : Entries}

theorem not_hole_anything : ¬Hole anything p loose v := by
  intro hole
  induction hole with
  | field _ watched => cases watched
  | element _ _ _ _ _ gone => cases gone
  | child _ _ _ _ _ ih => exact ih
  | item _ _ _ _ _ _ ih => exact ih
  | branch _ _ _ _ _ _ ih => exact ih

theorem Tame.keeps_anything (tame : Tame anything p) (keeps : Keeps anything tree) (finished : (p.run tree).fault = none) :
    Keeps anything (p.run tree).value :=
  (tame.run_iff keeps finished).mpr not_hole_anything

theorem After.complete_anything (tame : Tame anything p) (complete : Everywhere (Complete anything) loose (.dict es))
    (after : After p bare loose es es') : Everywhere (Complete anything) false (.dict es') := by
  refine (after.complete_iff tame complete).mpr ⟨by rintro _ ⟨⟩, fun _ _ _ _ _ _ _ _ => rfl, fun l v inside => ?_⟩
  exact (tame.slot_iff ((everywhere_below.mp complete).2 l v inside) (after.below inside)).mpr not_hole_anything

theorem everywhere_bare_of (complete : Everywhere (Complete std) loose v) (all : Everywhere P loose v) (same : bare v = bare w)
    (here : P w) : Everywhere P loose w := by
  cases w with
  | dict es =>
    obtain ⟨es', rfl, alike⟩ := bare_eq_dict same
    have known : (childFields (visitedKind loose es')).isSome := by
      have self := everywhere_self complete
      rw [self.visitedKind]
      exact self.known
    exact everywhere_below.mpr
      ⟨here, fun l x inside => (everywhere_below.mp all).2 l x (below_of_erase alike.symm known inside)⟩
  | _ => exact everywhere_leaf (by rintro _ ⟨⟩)

theorem everywhere_bare (blind : ∀ v w, bare v = bare w → P v → P w) (complete : Everywhere (Complete std) loose v)
    (all : Everywhere P loose v) (same : bare v = bare w) : Everywhere P loose w := by
  cases w with
  | dict es =>
    obtain ⟨es', rfl, -⟩ := bare_eq_dict same
    exact everywhere_bare_of complete all same (blind _ _ same (everywhere_self all))
  | _ => exact everywhere_leaf (by rintro _ ⟨⟩)

theorem everywhere_made (known : kind? v = some "Literal") (here : P v) : Everywhere P loose v := by
  obtain ⟨es, rfl⟩ := dict_of_kind? known
  refine everywhere_below.mpr ⟨here, fun l x below => ?_⟩
  have visited : visitedKind loose es = "Literal" := visitedKind_of_kind? known (by decide)
  have childless (key : String) : isChild (childFields (visitedKind loose es)) key = false := by
    rw [visited]
    rfl
  cases below with
  | single _ child => simp [childless] at child
  | listed _ child => simp [childless] at child

theorem After.below_of (after : After p bare loose es es') (tame : Tame anything p)
    (complete : Everywhere (Complete anything) loose (.dict es))
    (own : ∀ key left, (key, .list left) ∈ es' → isChild (childFields (visitedKind loose es)) key →
      ∀ fields, .dict fields ∈ left → (∃ y, bare y = bare (.dict fields) ∧ Q y) → Q (.dict fields))
    (below : ∀ l v, Below loose es l v → (walkNode p l v).fault = none → Everywhere Q false (walkNode p l v).value.slot) :
    ∀ l x, Below false es' l x → Everywhere Q l x := by
  obtain ⟨sound, children⟩ := everywhere_complete.mp complete
  obtain ⟨soundAfter, childrenAfter⟩ := everywhere_complete.mp (after.complete_anything tame complete)
  have kind : visitedKind false es' = visitedKind loose es := by
    rw [soundAfter.visitedKind, sound.visitedKind, after.kindName sound]
  have slot {c : Value} (node : isNode c) : (walkAt p .only c).value.head?.getD .null = (walkNode p false c).value.slot :=
    (walkAt_slot _).trans (by rw [Spot.loose, walkItem_node node])
  intro l x inside
  cases inside with
  | single held child node =>
    obtain ⟨⟨_, c⟩, member, named, field⟩ := forall₂_mem_right after.leaves held
    cases named
    dsimp only at field
    rw [kind] at child
    cases field with
    | only _ own =>
      rw [slot own]
      exact below false c (.single member child own) (after.below (.single member child own))
    | row => cases node
    | same untouched => simp [child, node] at untouched
    | aside => cases node
  | @listed key left x held child element visited =>
    obtain ⟨⟨_, c⟩, member, named, field⟩ := forall₂_mem_right after.leaves held
    cases named
    dsimp only at field
    have completeX := (childrenAfter _ held (by rw [← soundAfter.visitedKind false]; exact child)).2 _ rfl x element
    rw [kind] at child visited ⊢
    generalize whole : Value.list left = y at field
    cases field with
    | row _ kept =>
      cases whole
      obtain ⟨y, remains, same⟩ := mem_map.mp (kept ▸ mem_map_of_mem element)
      obtain ⟨a, position, stays⟩ := mem_leftOf.mp (walkAt_row .. ▸ remains)
      rw [← isVisited_of_bare same] at visited
      have completeY := everywhere_of_bare same.symm completeX
      have result : Everywhere Q false y := by
        rw [walkItem] at stays
        split at stays
        · rename_i inside
          have result := below _ a (.listed member child position inside) (after.below (.listed member child position inside))
          rw [Walked.slot, stays] at result
          exact result
        · rename_i outside
          cases stays
          exact (outside visited).elim
      cases x with
      | dict fields =>
        obtain ⟨fields', rfl, -⟩ := bare_eq_dict same
        have top := own key left held child fields element ⟨_, same, everywhere_self result⟩
        exact everywhere_other completeX (everywhere_bare_of completeY result same top)
      | _ => exact everywhere_leaf (by rintro _ ⟨⟩)
    | only _ own =>
      have kept := children _ member (by rw [← sound.visitedKind loose]; exact child)
      have fine := after.below (.single member child own)
      exact (tame.slot_single kept.1 (isNode_single own) fine left (by rw [← slot own]; exact whole.symm)).elim
    | same untouched =>
      subst whole
      simp [child] at untouched
    | aside _ aside => simp [child] at aside

theorem everywhere_node_part (below : ∀ l x, Below loose es l x → Everywhere Q l x)
    (child : isChild (childFields (visitedKind loose es)) key) (node : isNode (part (.dict es) key)) : Q (part (.dict es) key) := by
  have inside := below _ _ (.single (mem_of_isNode_part node) child node)
  obtain ⟨fields, whole⟩ := isNode_dict node
  rw [whole] at inside ⊢
  exact everywhere_self inside

structure Hands (p : Pass) (P Q : Value → Prop) : Prop where
  blind : ∀ v w, bare v = bare w → Q v → Q w
  made : ∀ es w, kind? w = some "Literal" → (p.enter (.dict es)).fault = none ∧ (p.enter (.dict es)).action = .put w ∨
    (p.leave (.dict es)).fault = none ∧ (p.leave (.dict es)).action = .put w ∧ (∀ l x, Below false es l x → Everywhere Q l x) → Q w
  stays : ∀ loose es es', P (.dict es) → Everywhere (Complete anything) loose (.dict es) →
    (p.enter (.dict es)).fault = none → (p.enter (.dict es)).action = .keep → After p bare loose es es' →
    (p.leave (.dict es')).fault = none → (p.leave (.dict es')).action = .keep →
    (∀ l x, Below false es' l x → Everywhere Q l x) → Q (.dict es')

theorem Branch.everywhere (branch : Branch (.dict es) key w) (complete : Everywhere (Complete std) false (.dict es))
    (blind : ∀ v w, bare v = bare w → Q v → Q w) (below : ∀ l x, Below false es l x → Everywhere Q l x) : Everywhere Q false w := by
  obtain ⟨sound, children⟩ := everywhere_complete.mp complete
  have child := (branches_child branch.listed).1
  cases node : isNode (part (.dict es) key) with
  | true =>
    have held := mem_of_isNode_part node
    have all := below false _ (.single held (by rw [sound.visitedKind]; exact child) node)
    exact everywhere_bare blind (children _ held child).1 all branch.taken.symm
  | false =>
    refine everywhere_leaf fun fields whole => ?_
    obtain ⟨_, table, -⟩ := bare_eq_dict (branch.taken.symm.trans (by rw [whole]))
    have typed := part_typed (everywhere_self complete) child
    rw [table, isTyped, ← table, node] at typed
    cases typed

theorem Hands.walk (hands : Hands p P Q) (tame : Tame anything p) (complete : Everywhere (Complete anything) loose v)
    (all : Everywhere P loose v) (finished : (walkNode p loose v).fault = none) :
    Everywhere Q false (walkNode p loose v).value.slot := by
  induction loose, v using below_induction with
  | leaf loose v leaf => cases v <;> first | exact (leaf _ rfl).elim | exact everywhere_leaf (by rintro _ ⟨⟩)
  | node loose es ih =>
    obtain ⟨self, completeBelow⟩ := everywhere_below.mp complete
    obtain ⟨here, below⟩ := everywhere_below.mp all
    have verdict {x : Value} {action : Action} (verdict : Verdict anything x action) (node : Value) (other : action ≠ .keep)
        (puts : ∀ w, kind? w = some "Literal" → action = .put w → Q w) :
        Everywhere Q false (Walked.mk node (.ofAction action)).slot := by
      cases verdict with
      | keep => exact (other rfl).elim
      | put _ made => exact everywhere_made made (puts _ made rfl)
      | drop => exact everywhere_leaf (by rintro _ ⟨⟩)
    obtain ⟨fine, ⟨acts, value⟩ | ⟨kept, -, es', after, left, value⟩⟩ := walkNode_cases self.view finished
    · rw [value]
      exact verdict (tame.enter self fine) _ acts fun w made put => hands.made es w made (Or.inl ⟨fine, put⟩)
    · have completeAfter := after.complete_anything tame complete
      have inner : ∀ l x, Below false es' l x → Everywhere Q l x := by
        refine after.below_of tame complete ?_ fun l v inside => ih l v inside (completeBelow l v inside) (below l v inside)
        rintro _ _ _ _ _ _ ⟨y, same, held⟩
        exact hands.blind y _ same held
      rw [value, Reply.outcome]
      rcases tame.leave left with ⟨decided, same⟩ | ⟨w, key, put, branch⟩
      · by_cases keeps : (p.leave (.dict es')).action = .keep
        · rw [keeps, same keeps]
          exact everywhere_below.mpr ⟨hands.stays loose es es' here complete fine kept after left keeps inner, inner⟩
        · exact verdict decided _ keeps fun w made put => hands.made es' w made (Or.inr ⟨left, put, inner⟩)
      · rw [put]
        exact branch.everywhere completeAfter hands.blind inner

theorem Hands.run (hands : Hands p P Q) (tame : Tame anything p) (keeps : Keeps anything tree) (all : Everywhere P false tree)
    (finished : (p.run tree).fault = none) : Everywhere Q false (p.run tree).value := by
  obtain ⟨walked, slot, -⟩ := tame.run_slot keeps finished
  rw [slot]
  exact hands.walk tame keeps.complete all walked

end Inheritance

end Rulewright.Flag
