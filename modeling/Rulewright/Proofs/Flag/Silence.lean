import Rulewright.Proofs.Flag.Upkeep

/-!
Walks that change nothing. A pass that reports no
change has left every node alone (`Edits.run_unchanged`), and a pass that leaves every node alone does
nothing (`run_silent`).
-/

open List Bool

namespace Rulewright.Flag

variable {carry : Carry}

section Edit

variable {v : Value} {r : Reply} {up : Bool}

theorem Edit.kept (edit : Edit v up r) (unchanged : r.changed = false) (stays : ∀ carry, r.action ≠ .drop carry) : r = .keep v := by
  cases edit with
  | keep => rfl
  | drop => exact (stays _ rfl).elim
  | _ => cases unchanged

theorem Edit.drops (edit : Edit v up r) (drops : r.action = .drop carry) : r.node = v := by
  cases edit with
  | keep => rfl
  | stir => rfl
  | literal => rfl
  | branch => cases drops
  | drop => rfl

theorem Fate.ofAction_goes {action : Action} : Fate.ofAction action = .goes carry ↔ action = .drop carry := by
  cases action <;> simp [Fate.ofAction]

end Edit

def Silent (p : Pass) (v : Value) : Prop := p.enter v = .keep v ∧ p.leave v = .keep v

section Silent

variable {p : Pass} {loose : Bool} {v : Value} {items : List Value} {kind key : String}
  {fields : Option (List String)} {home : Home} {es : Entries}

theorem walkNode_silent (lenient : p.strict = false) (silent : Everywhere (Silent p) loose v) :
    walkNode p loose v = .done (.untouched v) := by
  induction loose, v using below_induction with
  | leaf loose v leaf => cases v <;> first | rfl | exact (leaf _ rfl).elim
  | node loose es ih =>
    obtain ⟨⟨enter, leave⟩, below⟩ := everywhere_below.mp silent
    rw [walkNode_untouched (by simp [lenient]) enter fun l v inside => ih l v inside (below l v inside), leave]
    rfl

theorem run_silent (lenient : p.strict = false) (silent : Everywhere (Silent p) false (.dict es)) :
    p.run (.dict es) = .done (.dict es) := by
  rw [Pass.run, walkNode_silent lenient silent]
  rfl

end Silent

section Still

variable {p : Pass} {loose isOwn : Bool} {v : Value} {items raw body : List Value} {kind key : String}
  {fields : Option (List String)} {home : Home} {es : Entries} {r : Reply} {up : Bool}

theorem Edit.silent (edit : Edit v up r) (fine : r.walked.fault = none) (still : Still r.walked) : r = .keep v := by
  refine edit.kept still.unchanged fun carry drops => still.stays carry ?_
  rw [(reply_walked fine).2, Reply.outcome, drops]
  rfl

theorem Edits.walkNode_still (edits : Edits p) (finished : (walkNode p loose v).fault = none) (still : Still (walkNode p loose v)) :
    Everywhere (Silent p) loose v := by
  induction loose, v using below_induction with
  | leaf loose v leaf => exact everywhere_leaf leaf
  | node loose es ih =>
    -- the visit on the way down keeps the node, or it would have decided and reported
    have entered : p.enter (.dict es) = .keep (.dict es) ∧
        ∀ e ∈ es, ∀ spot x, Within (visitedKind loose es) e.1 e.2 spot x → Walks p True spot.loose x := by
      obtain ⟨unchanged, stays⟩ := still
      rw [walkNode] at finished unchanged stays
      split at finished
      · rename_i fault action
        rw [fault, action] at unchanged
        simp only [edits.lenient, Bool.false_and, Bool.false_eq_true, if_false] at finished unchanged
        obtain ⟨own, below⟩ := or_eq_false_iff.mp unchanged
        obtain ⟨walked, -, -, reported⟩ := leaveNode_finished finished
        refine ⟨(edits.enter fault).kept own (by simp [action]), fun e held spot x within => ?_⟩
        obtain ⟨fine, still⟩ := (walkEntries_after (Or.inr coarse_bare) walked).2 e held spot x within
        exact ⟨fine, fun _ => still (or_eq_false_iff.mp (reported ▸ below)).1⟩
      · rename_i decides
        have fault : (p.enter (.dict es)).fault = none := (reply_walked finished).1
        have still : Still (p.enter (.dict es)).walked := by
          constructor
          · split at unchanged
            · rename_i fault action
              exact (decides fault action).elim
            · exact unchanged
          · split at stays
            · rename_i fault action
              exact (decides fault action).elim
            · exact stays
        have kept := (edits.enter fault).silent finished still
        exact (decides fault (by rw [kept]; rfl)).elim
    obtain ⟨enter, children⟩ := entered
    have below (l : Bool) (v : Value) (inside : Below loose es l v) : Everywhere (Silent p) l v := by
      cases inside with
      | single held child node =>
        obtain ⟨fine, still⟩ := children _ held _ v (.only child node)
        rw [Spot.loose, walkItem_node node] at fine still
        exact ih _ v (.single held child node) fine (still trivial)
      | listed held child element visited =>
        obtain ⟨fine, still⟩ := children _ held _ v (.row child element)
        rw [Spot.loose, walkItem, if_pos visited] at fine still
        exact ih _ v (.listed held child element visited) fine (still trivial)
    -- so the visit on the way up sees the node as it was
    rw [walkNode_untouched (by simp [edits.lenient]) enter fun l v inside => walkNode_silent edits.lenient (below l v inside)] at finished still
    exact everywhere_below.mpr ⟨⟨enter, (edits.leave (reply_walked finished).1).silent finished still⟩, below⟩

theorem Edits.goes_dict (edits : Edits p) (goes : (walkNode p loose (.dict es)).value.fate = .goes carry) :
    ∃ es', (walkNode p loose (.dict es)).value.node = .dict es' := by
  have walked {es : Entries} {r : Reply} {up : Bool} (edit : r.fault = none → Edit (.dict es) up r)
      (gone : r.walked.value.fate = .goes carry) : r.walked.value.node = .dict es := by
    cases fault : r.fault with
    | some stopped => simp [Reply.walked, fault] at gone
    | none => exact (edit fault).drops (by simpa [Reply.walked, fault, Fate.ofAction_goes] using gone)
  simp only [walkNode] at goes ⊢
  split at goes
  · rw [edits.lenient] at goes ⊢
    simp only [Bool.false_and, Bool.false_eq_true, if_false, leaveNode] at goes ⊢
    split at goes
    · cases goes
    · exact ⟨_, walked edits.leave goes⟩
  · exact ⟨_, walked edits.enter goes⟩

theorem Edits.run_unchanged (edits : Edits p) (finished : (p.run (.dict es)).fault = none)
    (unchanged : (p.run (.dict es)).changed = false) : Everywhere (Silent p) false (.dict es) := by
  have walked := settleRoot_finished finished
  refine edits.walkNode_still walked ⟨?_, fun carry goes => ?_⟩
  · rw [Pass.run, settleRoot] at unchanged
    split at unchanged
    · exact (or_eq_false_iff.mp unchanged).1
    · exact unchanged
  · -- a root that goes is reported
    obtain ⟨es', whole⟩ := edits.goes_dict goes
    rw [Pass.run, settleRoot, walked, goes, whole] at finished unchanged
    dsimp only at finished unchanged
    rw [finished] at unchanged
    simp at unchanged

end Still

end Rulewright.Flag
