import Rulewright.Proofs.Flag.Flattening

/-!
Comments that can be moved. A node takes comments if it is a table whose own comments, where it has any, are a list without
null (`Takes`). Among such nodes every movement of comments succeeds, and it leaves such nodes.
-/

open List

namespace Rulewright.Flag

open Comment

def Present (cs : List Value) : Prop := ∀ c ∈ cs, c ≠ .null

def Commented (v : Value) : Prop := ∃ cs, commentsOf v = .ok cs ∧ Present cs

instance (v : Value) : Decidable (Commented v) :=
  decidable_of_iff ((commentsOf v).toOption.any (·.all (· != .null)) = true) (by
    unfold Commented Present
    cases commentsOf v <;> simp [Except.toOption])

structure Takes (v : Value) : Prop where
  table : ∃ es, v = .dict es
  commented : Commented v

section Takes

variable {v w : Value} {c : Value} {cs new fresh body : List Value} {i : Nat} {es : Entries}

theorem Commented.of_field (same : w.field? "comments" = v.field? "comments") (commented : Commented v) : Commented w := by
  unfold Commented at commented ⊢
  rw [commentsOf, same]
  exact commented

theorem Present.append (first : Present cs) (second : Present new) : Present (cs ++ new) :=
  forall_mem_append.mpr ⟨first, second⟩

theorem Present.filter (present : Present cs) (q : Value → Bool) : Present (cs.filter q) :=
  fun c member => present c (mem_of_mem_filter member)

theorem Present.ite (p : Prop) [Decidable p] (present : Present cs) : Present (if p then cs else []) := by
  split
  · exact present
  · rintro _ ⟨⟩

theorem turn_ne_null (present : c ≠ .null) : turn c ≠ .null := by
  unfold turn
  split
  · cases c <;> first | exact (present rfl).elim | rintro ⟨⟩
  · exact present

theorem turnTimes_ne_null (n : Nat) (present : c ≠ .null) : turnTimes n c ≠ .null := by
  induction n generalizing c with
  | zero => exact present
  | succ n ih => exact ih (turn_ne_null present)

theorem Present.turnAll (present : Present cs) : Present (turnAll cs) := by
  intro c member
  obtain ⟨old, inside, rfl⟩ := mem_map.mp member
  exact turnTimes_ne_null _ (present old inside)

theorem listedComments_of (read : commentsOf v = .ok cs) : listedComments (some v) = cs := by
  unfold commentsOf at read
  rw [listedComments, Option.bind_some]
  split at read <;> rename_i held <;> cases read <;> rw [held]

theorem listedComments_set (es : Entries) (cs : List Value) :
    listedComments (some ((Value.dict es).set "comments" (.list cs))) = cs := by
  simp [listedComments, Value.set, Value.field?, Entries.get?_put_self]

theorem takes_set (table : ∃ es, v = .dict es) (present : Present cs) : Takes (v.set "comments" (.list cs)) := by
  obtain ⟨es, rfl⟩ := table
  exact ⟨⟨_, rfl⟩, cs, by simp [commentsOf, Value.set, Value.field?, Entries.get?_put_self], present⟩

section

variable (takes : Takes v)
include takes

theorem Takes.listed {items : List Value} (held : v.field? "comments" = some (.list items)) : Present items := by
  obtain ⟨-, cs, read, present⟩ := takes
  rw [commentsOf, held] at read
  cases read
  exact present

theorem listedComments_present : Present (listedComments (some v)) := by
  unfold listedComments
  split
  · rename_i held
    exact takes.listed held
  · rintro _ ⟨⟩

theorem Takes.collate : ∃ cs, collate (some v) = .ok cs ∧ cs.leading = (listedComments (some v)).filter isLeading ∧
    cs.trailing = (listedComments (some v)).filter fun c => !isLeading c && isTrailing c := by
  obtain ⟨⟨es, rfl⟩, cs, read, present⟩ := takes
  have whole : cs.any (fun c => c == .null) = false := by
    simpa [Present] using present
  rw [listedComments_of read]
  exact ⟨_, by simp only [Flag.collate, read, whole, bind, Except.bind]; rfl, rfl, rfl⟩

theorem Takes.collated : ∃ cs, Flag.collate (some v) = .ok cs ∧ Present cs.leading ∧ Present cs.trailing := by
  obtain ⟨cs, sorted, leading, trailing⟩ := takes.collate
  have present := listedComments_present takes
  exact ⟨cs, sorted, leading ▸ present.filter _, trailing ▸ present.filter _⟩

theorem Takes.openComments (spread : Bool) : openComments spread v = .ok (listedComments (some v)) := by
  obtain ⟨-, cs, read, -⟩ := takes
  rw [listedComments_of read]
  unfold Flag.openComments
  split
  · rename_i text held
    simp [commentsOf, held] at read
  · exact read

theorem Takes.attachBeginning (new : List Value) : ∃ w, attachBeginning new (some v) = .ok (some w) ∧
    listedComments (some w) = new ++ listedComments (some v) ∧ (Present new → Takes w) := by
  unfold Flag.attachBeginning
  split
  · rename_i nothing
    exact ⟨v, rfl, by rw [isEmpty_iff.mp nothing, nil_append], fun _ => takes⟩
  · have present := listedComments_present takes
    obtain ⟨es, rfl⟩ := takes.table
    exact ⟨_, by simp only [takes.openComments, bind, Except.bind]; rfl, listedComments_set es _,
      fun added => takes_set ⟨es, rfl⟩ (added.append present)⟩

theorem Takes.attachEnd (new : List Value) : ∃ w, attachEnd new (some v) = .ok (some w) ∧
    listedComments (some w) = listedComments (some v) ++ new ∧ (Present new → Takes w) := by
  unfold Flag.attachEnd
  split
  · rename_i nothing
    exact ⟨v, rfl, by rw [isEmpty_iff.mp nothing, append_nil], fun _ => takes⟩
  · have present := listedComments_present takes
    obtain ⟨es, rfl⟩ := takes.table
    exact ⟨_, by simp only [takes.openComments, bind, Except.bind]; rfl, listedComments_set es _,
      fun added => takes_set ⟨es, rfl⟩ (present.append added)⟩

theorem Takes.attachedBeginning (present : Present new) : ∃ w, Flag.attachBeginning new (some v) = .ok (some w) ∧ Takes w :=
  (takes.attachBeginning new).imp fun _ made => ⟨made.1, made.2.2 present⟩

theorem Takes.attachedEnd (present : Present new) : ∃ w, Flag.attachEnd new (some v) = .ok (some w) ∧ Takes w :=
  (takes.attachEnd new).imp fun _ made => ⟨made.1, made.2.2 present⟩

theorem Takes.turnComments (leads trails : Bool) : Takes (turnComments leads trails v) := by
  unfold Flag.turnComments
  split
  · rename_i items held
    refine takes_set takes.table fun c member => ?_
    obtain ⟨old, inside, rfl⟩ := mem_map.mp member
    have present := takes.listed held old inside
    split
    · exact turnTimes_ne_null _ present
    · exact present
  · exact takes

theorem Takes.refreshComments (present : Present fresh) : Takes (refreshComments fresh v) := by
  unfold Flag.refreshComments
  split
  · rename_i items held
    refine takes_set takes.table fun c member => ?_
    obtain ⟨old, inside, rfl⟩ := mem_map.mp member
    unfold refresh
    cases found : fresh.find? (isCopy old) with
    | none => exact takes.listed held old inside
    | some c => exact present c (mem_of_find?_eq_some found)
  · exact takes

end

def toPrevious (body : List Value) (i : Nat) : List Value :=
  turnAll ((listedComments body[i]?).filter isLeading) ++
    if i + 1 == body.length then (listedComments body[i]?).filter fun c => !isLeading c && isTrailing c else []

def toNext (body : List Value) (i : Nat) : List Value :=
  (if i == 0 then (listedComments body[i]?).filter isLeading else []) ++
    turnAll ((listedComments body[i]?).filter fun c => !isLeading c && isTrailing c)

structure Handed (body : List Value) (i : Nat) (after : List Value) : Prop where
  takes : ∀ v ∈ after, Takes v
  own : after[i]? = body[i]?.map (turnComments (decide (0 < i)) (decide (i + 1 < body.length)))
  previous : ∀ j, j + 1 = i → listedComments after[j]? = listedComments body[j]? ++ toPrevious body i
  next : i + 1 < body.length → listedComments after[i + 1]? = toNext body i ++ listedComments body[i + 1]?
  others : ∀ j, j + 1 ≠ i → j ≠ i → j ≠ i + 1 → after[j]? = body[j]?

structure Moved (o : Outcome (List Value)) : Prop where
  fine : o.fault = none
  takes : ∀ v ∈ o.value, Takes v

section

variable (takes : ∀ v ∈ body, Takes v)
include takes

theorem takes_set_element (good : Takes w) : ∀ v ∈ body.set i w, Takes v := by
  intro v member
  rcases mem_or_eq_of_mem_set member with old | rfl
  · exact takes v old
  · exact good

theorem changeAt_moved {f : Option Value → Except Fault (Option Value)} (inside : i < body.length)
    (step : ∀ v, Takes v → ∃ w, f (some v) = .ok (some w) ∧ Takes w) : Moved (changeAt body i f) := by
  obtain ⟨w, changed, good⟩ := step body[i] (takes _ (getElem_mem inside))
  have answer : changeAt body i f = .done (body.set i w) := by
    rw [changeAt, getElem?_eq_getElem inside, changed]
  rw [answer]
  exact ⟨rfl, takes_set_element takes good⟩

theorem takes_modify (leads trails : Bool) : ∀ v ∈ body.modify i (turnComments leads trails), Takes v := by
  intro v member
  obtain ⟨j, bound, rfl⟩ := mem_iff_getElem.mp member
  rw [length_modify] at bound
  rw [getElem_modify]
  split
  · exact (takes _ (getElem_mem bound)).turnComments leads trails
  · exact takes _ (getElem_mem bound)

theorem moveAll_handed (inside : i < body.length) (two : 2 ≤ body.length) : ∃ after, moveAll body i = .done after ∧ Handed body i after := by
  obtain ⟨cs, sorted, leading, trailing⟩ := (takes _ (getElem_mem inside)).collate
  have present := listedComments_present (takes _ (getElem_mem inside))
  rw [← getElem?_eq_getElem inside] at sorted leading trailing present
  have backward : (turnAll cs.leading ++ if i + 1 == body.length then cs.trailing else []) = toPrevious body i := by
    rw [toPrevious, leading, trailing]
  have forward : (if i == 0 then cs.leading else []) ++ turnAll cs.trailing = toNext body i := by
    rw [toNext, leading, trailing]
  have turned {j : Nat} {w : Value} {f : Option Value → Except Fault (Option Value)} (g : Value → Value) (other : i ≠ j)
      (changed : f body[j]? = .ok (some w)) : changeAt (body.modify i g) j f = .done ((body.modify i g).set j w) := by
    rw [changeAt, getElem?_modify_ne _ _ other, changed]
  obtain ⟨w, good, next⟩ : ∃ w, Takes w ∧ (i + 1 < body.length → attachBeginning (toNext body i) body[i + 1]? = .ok (some w) ∧
      listedComments (some w) = toNext body i ++ listedComments body[i + 1]?) := by
    by_cases more : i + 1 < body.length
    · rw [getElem?_eq_getElem more]
      obtain ⟨w, attached, listed, good⟩ := (takes _ (getElem_mem more)).attachBeginning (toNext body i)
      refine ⟨w, good ((Present.ite _ (present.filter _)).append (present.filter _).turnAll), fun _ => ⟨attached, listed⟩⟩
    · exact ⟨_, takes _ (getElem_mem inside), fun inside => (more inside).elim⟩
  simp only [moveAll, sorted, backward, forward]
  cases i with
  | zero =>
    refine ⟨(body.modify 0 (turnComments false true)).set 1 w, ?_, takes_set_element (takes_modify takes _ _) good, ?_, by omega, fun _ => ?_, fun j _ own other => ?_⟩
    · rw [← turned _ (by omega) (next two).1]
      simp [beq_false_of_ne (Nat.ne_of_lt two)]
    · rw [getElem?_set_ne (by omega), getElem?_modify_eq, decide_eq_true (show 0 + 1 < body.length from two)]
      rfl
    · rw [getElem?_set_self (by simp; omega), (next two).2]
    · rw [getElem?_set_ne (by omega), getElem?_modify_ne _ _ own.symm]
  | succ k =>
    have before : k < body.length := by omega
    obtain ⟨x, previous, gained, held⟩ := (takes _ (getElem_mem before)).attachEnd (toPrevious body (k + 1))
    rw [← getElem?_eq_getElem before] at previous gained
    refine ⟨((body.modify (k + 1) (turnComments true (decide (k + 2 < body.length)))).set (k + 2) w).set k x, ?_,
      takes_set_element (takes_set_element (takes_modify takes _ _) good) (held ((present.filter _).turnAll.append (Present.ite _ (present.filter _)))),
      ?_, ?_, ?_, ?_⟩
    · rw [Nat.add_sub_cancel, previous]
      by_cases last : k + 2 = body.length
      · rw [@set_eq_of_length_le _ (body.modify _ _) (k + 2) (by simp [last]), ← turned _ (by omega) previous]
        simp [last]
      · have more : k + 2 < body.length := by omega
        rw [turned (turnComments true true) (by omega) (next more).1, decide_eq_true more, beq_false_of_ne last]
        rfl
    · rw [getElem?_set_ne (by omega), getElem?_set_ne (by omega), getElem?_modify_eq]
      rfl
    · rintro j ⟨⟩
      rw [getElem?_set_self (by simp; omega), gained]
    · intro more
      rw [getElem?_set_ne (by omega), getElem?_set_self (by simpa using more), (next more).2]
    · intro j before own after
      rw [getElem?_set_ne (by omega), getElem?_set_ne (by omega), getElem?_modify_ne _ _ own.symm]

theorem moveAll_moved (inside : i < body.length) : Moved (moveAll body i) := by
  by_cases two : 2 ≤ body.length
  · obtain ⟨after, answer, handed⟩ := moveAll_handed takes inside two
    rw [answer]
    exact ⟨rfl, handed.takes⟩
  · obtain ⟨cs, sorted, -⟩ := (takes _ (getElem_mem inside)).collate
    obtain rfl : i = 0 := by omega
    have single : body.length = 1 := by omega
    rw [← getElem?_eq_getElem inside] at sorted
    simp only [moveAll, sorted, single]
    exact ⟨rfl, takes⟩

theorem moveLeading_moved (inside : i < body.length) : Moved (moveLeading body i) := by
  obtain ⟨cs, sorted, leading, -⟩ := (takes _ (getElem_mem inside)).collated
  unfold moveLeading
  rw [getElem?_eq_getElem inside, sorted]
  dsimp only
  split
  · rename_i more
    refine changeAt_moved takes ?_ fun v good => good.attachedBeginning leading
    simp only [Bool.not_eq_true', beq_eq_false_iff_ne] at more
    omega
  · split
    · exact ⟨rfl, takes⟩
    · refine changeAt_moved (takes_modify takes _ _) ?_ fun v good => good.attachedEnd leading.turnAll
      rw [length_modify]
      omega

end

theorem Carry.moved (carry : Carry) (takes : ∀ v ∈ body, Takes v) (inside : i < body.length) : Moved (carry.move body i) := by
  have moves : Moved (carry.moveFrom body i) := by
    cases carry with
    | nothing => exact ⟨rfl, takes⟩
    | leading => exact moveLeading_moved takes inside
    | all => exact moveAll_moved takes inside
  refine ⟨moves.fine, fun v member => ?_⟩
  obtain ⟨old, held, rfl⟩ := mem_map.mp member
  refine (moves.takes old held).refreshComments ?_
  cases read : (carry.moveFrom body i).value[i]? with
  | none => rintro _ ⟨⟩
  | some x => exact listedComments_present (moves.takes x (mem_of_getElem? read))

theorem Takes.moveToBranch {branch : String} (takes : Takes v) (held : v.field? branch = some w) (good : Takes w) :
    ∃ x, moveToBranch branch (some v) = .ok (some (v.set branch x)) ∧ bare x = bare w ∧ Takes x := by
  obtain ⟨cs, sorted, leading, trailing⟩ := takes.collated
  obtain ⟨x, front, first⟩ := good.attachedBeginning leading
  obtain ⟨y, back, second⟩ := first.attachedEnd trailing
  refine ⟨y, ?_, ?_, second⟩
  · simp only [Flag.moveToBranch, sorted, held, front, back, bind, Except.bind]
    rfl
  · have begins := attachBeginning_bare front
    have ends := attachEnd_bare back
    simp only [Option.map_some, Option.some.injEq] at begins ends
    exact ends.trans begins

theorem Takes.spill {f : Flattening} (takes : Takes v) (stated : statementsOf v = .ok body) (good : ∀ x ∈ body, Takes x)
    (parent : f.takes) :
    (spill f v).fault = none ∧ (∀ x ∈ (spill f v).value.parts, Takes x) ∧ Present (spill f v).value.toParent := by
  obtain ⟨cs, sorted, leading, trailing⟩ := takes.collated
  cases body with
  | nil =>
    have comments : Present (if f.keepComments then listedComments (some v) else []) := .ite _ (listedComments_present takes)
    simp only [Flag.spill, sorted, stated, parent, Bool.true_or, if_true]
    exact ⟨rfl, by rintro _ ⟨⟩, comments⟩
  | cons first rest =>
    obtain ⟨x, front, begins⟩ := (good first mem_cons_self).attachedBeginning leading
    have statements : ∀ y ∈ x :: rest, Takes y :=
      forall_mem_cons.mpr ⟨begins, fun y member => good y (mem_cons_of_mem _ member)⟩
    obtain ⟨z, back, ends⟩ := (statements _ (getLast_mem (cons_ne_nil x rest))).attachedEnd trailing
    have answer : Flag.spill f v = .done { parts := (x :: rest).dropLast ++ [z] } := by
      simp only [Flag.spill, sorted, stated, front, Option.toList_some, cons_append, nil_append]
      rw [getLast?_eq_some_getLast (cons_ne_nil x rest), back]
      rfl
    rw [answer]
    refine ⟨rfl, fun y member => ?_, by rintro _ ⟨⟩⟩
    rcases mem_append.mp member with early | last
    · exact statements y (dropLast_subset _ early)
    · obtain rfl := mem_singleton.mp last
      exact ends

end Takes

end Rulewright.Flag
