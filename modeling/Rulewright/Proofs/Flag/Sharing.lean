import Rulewright.Flag.Session
import Rulewright.Proofs.Flag.Answers
import Rulewright.Proofs.Flag.Commentary
import Mathlib.Data.List.Pairwise

/-!
Comments that go to the neighbours of a node. Every comment that stands before or after the node goes to exactly one neighbour, at the
side where the node stood, and it is turned exactly when it crosses the node's place; nothing else changes.
-/

open List

namespace Rulewright.Flag

open Comment

theorem put_of_get? {key : String} {v : Value} {es : Entries} (read : Entries.get? key es = some v) : Entries.put key v es = es := by
  induction es with
  | nil => cases read
  | cons e rest ih =>
    obtain ⟨k, w⟩ := e
    by_cases hit : k = key
    · simp_all [Entries.get?, Entries.put]
    · simp only [Entries.get?, Entries.put, hit, if_false] at read ⊢
      rw [ih read]

/-- Where a comment of the element at `i` goes: backward if it is leading or nothing follows, but never from the first element. -/
def goesBack (body : List Value) (i : Nat) (c : Value) : Bool := 0 < i && (isLeading c || i + 1 == body.length)

/-- The comment as it arrives: turned if a leading one went backward or a trailing one forward. -/
def arrived (body : List Value) (i : Nat) (c : Value) : Value := if goesBack body i c = isLeading c then turn c else c

def outgoing (body : List Value) (i : Nat) : List Value :=
  let cs := listedComments body[i]?
  cs.filter isLeading ++ cs.filter fun c => !isLeading c && isTrailing c

/-- No two comments of the statements are copies of one another. -/
def AreDistinct (cs : List Value) : Prop := cs.Pairwise fun a b => isCopy a b = false

instance (cs : List Value) : Decidable (AreDistinct cs) := inferInstanceAs (Decidable (Pairwise _ _))

structure Shared (body : List Value) (i : Nat) (after : List Value) : Prop where
  bare : after.map bare = body.map bare
  others : ∀ j, j + 1 ≠ i → j ≠ i → j ≠ i + 1 → after[j]? = body[j]?
  own : listedComments after[i]? = (listedComments body[i]?).map (arrived body i)
  previous : ∀ j, j + 1 = i →
    listedComments after[j]? = listedComments body[j]? ++ ((outgoing body i).filter (goesBack body i)).map (arrived body i)
  next : listedComments after[i + 1]? =
    ((outgoing body i).filter fun c => !goesBack body i c).map (arrived body i) ++ listedComments body[i + 1]?

section Sharing

variable {a b c v w : Value} {cs fresh new body after : List Value} {i j : Nat} {es : Entries}

theorem isCopy_comm (a b : Value) : isCopy a b = isCopy b a := by
  unfold isCopy
  by_cases same : number? a = number? b
  · rw [same]
  · rw [beq_false_of_ne same, beq_false_of_ne (Ne.symm same), Bool.and_false, Bool.and_false]

@[simp] theorem number?_turn (c : Value) : number? (turn c) = number? c := by
  unfold turn number?
  split
  · cases c <;> simp [Value.set, Value.field?, numberKey, Entries.get?_put_ne]
  · rfl

@[simp] theorem number?_arrived (body : List Value) (i : Nat) (c : Value) : number? (arrived body i c) = number? c := by
  unfold arrived
  split
  · exact number?_turn c
  · rfl

theorem AreDistinct.countP (distinct : AreDistinct cs) (inside : c ∈ cs) (numbered : (number? c).isSome) : cs.countP (isCopy c) = 1 := by
  induction cs with
  | nil => cases inside
  | cons d rest ih =>
    obtain ⟨first, others⟩ := pairwise_cons.mp distinct
    rcases mem_cons.mp inside with rfl | later
    · rw [countP_cons_of_pos (by simp [isCopy, numbered]), countP_eq_zero.mpr (by simpa using first)]
    · have apart := first c later
      rw [isCopy_comm] at apart
      rw [countP_cons_of_neg (by simp [apart])]
      exact ih others later

theorem AreDistinct.turnAmong (distinct : AreDistinct cs) (inside : c ∈ cs) : turnAmong cs c = turn c := by
  unfold Comment.turnAmong
  split
  · rename_i numbered
    rw [distinct.countP inside numbered]
    rfl
  · rfl

theorem AreDistinct.turnAll (distinct : AreDistinct cs) : turnAll cs = cs.map turn :=
  map_congr_left fun _ inside => distinct.turnAmong inside

theorem turn_of_neither (front : isLeading c = false) (back : isTrailing c = false) : turn c = c := by
  simp [turn, front, back]

theorem AreDistinct.turnComments (leads trails : Bool) (distinct : AreDistinct (listedComments (some v))) :
    listedComments (some (turnComments leads trails v)) = (listedComments (some v)).map fun c =>
      if (leads && isLeading c) || (trails && !isLeading c && isTrailing c) then turn c else c := by
  unfold Flag.turnComments
  split
  · rename_i items held
    have listed : listedComments (some v) = items := by simp [listedComments, held]
    rw [listed] at distinct ⊢
    cases v with
    | dict es =>
      rw [listedComments_set]
      refine map_congr_left fun c inside => ?_
      dsimp only
      split
      · rename_i turned
        exact AreDistinct.turnAmong (Pairwise.filter _ distinct) (mem_filter.mpr ⟨inside, turned⟩)
      · rfl
    | _ => cases held
  · rename_i unlisted
    have none : listedComments (some v) = [] := by
      unfold listedComments
      split
      · rename_i items held
        exact absurd held (unlisted items)
      · rfl
    rw [none]
    rfl

theorem refreshComments_eq (same : ∀ c ∈ listedComments (some v), ∀ d ∈ fresh, isCopy c d → d = c) : refreshComments fresh v = v := by
  unfold refreshComments
  split
  · rename_i items held
    have listed : listedComments (some v) = items := by simp [listedComments, held]
    have kept : items.map (refresh fresh) = items := by
      refine (map_congr_left fun c inside => ?_).trans (map_id items)
      unfold refresh
      cases found : fresh.find? (isCopy c) with
      | none => rfl
      | some d => exact same c (listed ▸ inside) d (mem_of_find?_eq_some found) (find?_some found)
    rw [kept]
    cases v with
    | dict es => exact congrArg Value.dict (put_of_get? held)
    | _ => cases held
  · rfl

theorem arrived_eq (inside : i < body.length) (two : 2 ≤ body.length) (c : Value) : arrived body i c =
    if (decide (0 < i) && isLeading c) || (decide (i + 1 < body.length) && !isLeading c && isTrailing c) then turn c else c := by
  unfold arrived goesBack
  have := @turn_of_neither c
  by_cases first : 0 < i <;> by_cases last : i + 1 = body.length <;> grind

theorem map_filter_of {p : Value → Bool} {f g : Value → Value} (all : ∀ c ∈ cs, p c = true ∧ f c = g c) :
    (cs.filter p).map f = cs.map g := by
  rw [filter_eq_self.mpr fun c inside => (all c inside).1]
  exact map_congr_left fun c inside => (all c inside).2

theorem toPrevious_arrived (first : 0 < i) (distinct : AreDistinct (listedComments body[i]?)) :
    toPrevious body i = ((outgoing body i).filter (goesBack body i)).map (arrived body i) := by
  rw [toPrevious, AreDistinct.turnAll (Pairwise.filter _ distinct), outgoing, filter_append, map_append]
  congr 1
  · exact (map_filter_of (by grind [goesBack, arrived])).symm
  · split
    · exact ((map_filter_of (g := id) (by grind [goesBack, arrived])).trans (map_id _)).symm
    · rw [eq_comm, map_eq_nil_iff, filter_eq_nil_iff]
      grind [goesBack]

theorem toNext_arrived (last : i + 1 < body.length) (distinct : AreDistinct (listedComments body[i]?)) :
    toNext body i = ((outgoing body i).filter fun c => !goesBack body i c).map (arrived body i) := by
  rw [toNext, AreDistinct.turnAll (Pairwise.filter _ distinct), outgoing, filter_append, map_append]
  congr 1
  · split
    · exact ((map_filter_of (g := id) (by grind [goesBack, arrived])).trans (map_id _)).symm
    · rw [eq_comm, map_eq_nil_iff, filter_eq_nil_iff]
      grind [goesBack]
  · exact (map_filter_of (by grind [goesBack, arrived])).symm

theorem moveAll_shared (takes : ∀ v ∈ body, Takes v) (inside : i < body.length) (two : 2 ≤ body.length)
    (distinct : AreDistinct (listedComments body[i]?)) : ∃ after, moveAll body i = .done after ∧ Shared body i after := by
  obtain ⟨after, answer, handed⟩ := moveAll_handed takes inside two
  have bare := moveAll_bare body i
  rw [answer] at bare
  have size : after.length = body.length := by simpa [Outcome.done] using congrArg length bare
  refine ⟨after, answer, bare, handed.others, ?_, fun j before => ?_, ?_⟩
  · rw [handed.own]
    rw [getElem?_eq_getElem inside] at distinct ⊢
    rw [Option.map_some, AreDistinct.turnComments _ _ distinct]
    exact map_congr_left fun c _ => (arrived_eq inside two c).symm
  · rw [handed.previous j before, toPrevious_arrived (by omega) distinct]
  · by_cases more : i + 1 < body.length
    · rw [handed.next more, toNext_arrived more distinct]
    · rw [filter_eq_nil_iff.mpr (by grind [goesBack]), getElem?_eq_none (by omega), getElem?_eq_none (by omega)]
      rfl

theorem AreDistinct.apart (distinct : AreDistinct (body.flatMap fun v => listedComments (some v))) (other : j ≠ i)
    (first : a ∈ listedComments body[j]?) (second : b ∈ listedComments body[i]?) : isCopy a b = false := by
  have across := (pairwise_flatMap.mp distinct).2
  rw [pairwise_iff_getElem] at across
  have bound {k : Nat} {c : Value} (member : c ∈ listedComments body[k]?) : k < body.length := by
    by_contra outside
    rw [getElem?_eq_none (by omega)] at member
    cases member
  have left := bound first
  have right := bound second
  rw [getElem?_eq_getElem left] at first
  rw [getElem?_eq_getElem right] at second
  rcases Nat.lt_or_gt_of_ne other with less | more
  · exact across j i left right less a first b second
  · rw [isCopy_comm]
    exact across i j right left more b second a first

theorem AreDistinct.own (distinct : AreDistinct (body.flatMap fun v => listedComments (some v))) :
    AreDistinct (listedComments body[i]?) := by
  cases read : body[i]? with
  | none => exact .nil
  | some v => exact (pairwise_flatMap.mp distinct).1 v (mem_of_getElem? read)

theorem Shared.origin (shared : Shared body i after) (member : c ∈ listedComments after[j]?) :
    (j ≠ i ∧ c ∈ listedComments body[j]?) ∨ ∃ d ∈ listedComments body[i]?, c = arrived body i d := by
  have gained {p : Value → Bool} (new : c ∈ ((outgoing body i).filter p).map (arrived body i)) :
      ∃ d ∈ listedComments body[i]?, c = arrived body i d := by
    obtain ⟨d, kept, rfl⟩ := mem_map.mp new
    refine ⟨d, ?_, rfl⟩
    rcases mem_append.mp (mem_of_mem_filter kept) with front | back
    · exact mem_of_mem_filter front
    · exact mem_of_mem_filter back
  by_cases here : j = i
  · subst here
    rw [shared.own] at member
    obtain ⟨d, held, rfl⟩ := mem_map.mp member
    exact .inr ⟨d, held, rfl⟩
  · by_cases before : j + 1 = i
    · rw [shared.previous j before] at member
      exact (mem_append.mp member).imp (⟨here, ·⟩) gained
    · by_cases next : j = i + 1
      · subst next
        rw [shared.next] at member
        exact (mem_append.mp member).symm.imp (⟨here, ·⟩) gained
      · rw [shared.others j before here next] at member
        exact .inl ⟨here, member⟩

theorem Shared.refreshed (shared : Shared body i after)
    (distinct : AreDistinct (body.flatMap fun v => listedComments (some v))) :
    after.map (refreshComments (listedComments after[i]?)) = after := by
  refine (map_congr_left fun v member => ?_).trans (map_id after)
  obtain ⟨j, read⟩ := mem_iff_getElem?.mp member
  refine refreshComments_eq fun c held d fresh copy => ?_
  rw [← read] at held
  rw [shared.own] at fresh
  obtain ⟨d, listed, rfl⟩ := mem_map.mp fresh
  have copies (e : Value) : isCopy e (arrived body i d) = isCopy e d := by simp [isCopy]
  rw [copies] at copy
  rcases shared.origin held with ⟨other, old⟩ | ⟨e, mine, rfl⟩
  · rw [distinct.apart other old listed] at copy
    cases copy
  · by_contra different
    have unlike : e ≠ d := fun same => different (by rw [same])
    have : Std.Symm fun a b : Value => isCopy a b = false := ⟨fun a b apart => by rwa [isCopy_comm]⟩
    have apart := Pairwise.forall distinct.own mine listed unlike
    rw [isCopy, number?_arrived, ← isCopy, apart] at copy
    cases copy

theorem turn_flags (flagged : isLeading c = !isTrailing c) :
    isLeading (turn c) = !isLeading c ∧ isTrailing (turn c) = !isTrailing c := by
  cases c with
  | dict es =>
    have either : isLeading (.dict es) || isTrailing (.dict es) := by
      rw [flagged]
      cases isTrailing (.dict es) <;> rfl
    simp only [turn, either, if_true]
    constructor
    · simp [isLeading, Value.set, Value.field?, Entries.get?_put_ne, Entries.get?_put_self, truthy]
    · simp [isTrailing, Value.set, Value.field?, Entries.get?_put_self, truthy]
  | _ => cases flagged

theorem outgoing_perm (flagged : ∀ c ∈ listedComments body[i]?, isLeading c = !isTrailing c) :
    outgoing body i ~ listedComments body[i]? := by
  have trailing : (listedComments body[i]?).filter (fun c => !isLeading c && isTrailing c) =
      (listedComments body[i]?).filter fun c => !isLeading c :=
    filter_congr fun c held => by simp [flagged c held]
  rw [outgoing, trailing]
  exact filter_append_perm _ _

theorem comments_go_to_neighbours {tree : Value} {node parent : Path} (there : at? parent tree = some (.dict es))
    (stated : Entries.get? "body" es = some (.list body)) (found : positionIn parent node body = some i) (two : 2 ≤ body.length)
    (takes : ∀ v ∈ body, Takes v) (distinct : AreDistinct (body.flatMap fun v => listedComments (some v)))
    (flagged : ∀ c ∈ listedComments body[i]?, isLeading c = !isTrailing c) :
    ∃ after, moveToSiblings .all node parent tree = .done (modifyAt (·.set "body" (.list after)) parent tree) ∧
      Shared body i after ∧ outgoing body i ~ listedComments body[i]? ∧
      ∀ c ∈ listedComments body[i]?, isTrailing (arrived body i c) = !isLeading (arrived body i c) ∧
        (isLeading (arrived body i c) = !isLeading c ↔ goesBack body i c = isLeading c) := by
  have inside : i < body.length := by
    unfold positionIn at found
    split at found
    · obtain ⟨-, kept⟩ := Option.filter_eq_some_iff.mp found
      simp only [Bool.and_eq_true, decide_eq_true_eq] at kept
      exact kept.2
    · cases found
  obtain ⟨after, moved, shared⟩ := moveAll_shared takes inside two distinct.own
  refine ⟨after, ?_, shared, outgoing_perm flagged, fun c held => ?_⟩
  · simp only [moveToSiblings, there, stated, found, Carry.move, Carry.moveFrom, moved, Outcome.map, Outcome.done, shared.refreshed distinct]
  · obtain ⟨front, back⟩ := turn_flags (flagged c held)
    unfold arrived
    split
    · simp_all
    · simp_all

def remark (isLeading : Bool) (text : String) : Value :=
  .dict [("type", .str "Line"), ("value", .str text), ("leading", .bool isLeading), ("trailing", .bool !isLeading)]

def remarkedBody : List Value :=
  [statement (identifier "f"), (statement (identifier "g")).set "comments" (.list [remark true " before", remark false " after"]),
    statement (identifier "h")]

theorem remarkedBody_shares : ∃ after,
    moveToSiblings .all ["body", "1"] [] (script remarkedBody) = .done (script after) ∧ Shared remarkedBody 1 after := by
  have there : at? [] (script remarkedBody) = some (script remarkedBody) := rfl
  have takes : ∀ v ∈ remarkedBody, Takes v := by
    simp only [remarkedBody, forall_mem_cons]
    exact ⟨⟨⟨_, rfl⟩, by decide⟩, ⟨⟨_, rfl⟩, by decide⟩, ⟨⟨_, rfl⟩, by decide⟩, by simp⟩
  have found : positionIn [] ["body", "1"] remarkedBody = some 1 := by decide
  obtain ⟨after, moved, shared, -⟩ := comments_go_to_neighbours there rfl found (by decide) takes (by decide) (by decide)
  exact ⟨after, moved, shared⟩

end Sharing

end Rulewright.Flag
