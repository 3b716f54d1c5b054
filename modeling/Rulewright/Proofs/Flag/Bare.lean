import Rulewright.Flag.Comment
import Rulewright.Proofs.Runs

/-!
Nodes up to their own comments. `bare` leaves the comments of a node out; every step that moves
comments around changes a node only up to `bare`.
-/

open List

namespace Rulewright.Entries

theorem get?_erase_ne {key other : String} (entries : Entries) (different : other ≠ key) :
    get? other (erase key entries) = get? other entries := by
  induction entries with
  | nil => rfl
  | cons e rest ih =>
    obtain ⟨k, v⟩ := e
    unfold erase at ih ⊢
    by_cases same : k = key
    · subst same
      simpa [get?, Ne.symm different] using ih
    · by_cases hit : k = other
      · subst hit
        simp [get?, same]
      · simpa [get?, same, hit] using ih

theorem erase_put_self (key : String) (v : Value) (entries : Entries) :
    erase key (put key v entries) = erase key entries := by
  induction entries with
  | nil => simp [put, erase]
  | cons e rest ih =>
    obtain ⟨k, w⟩ := e
    unfold erase at ih ⊢
    by_cases same : k = key
    · simp [put, same]
    · simp [put, same, ih]

end Rulewright.Entries

namespace Rulewright.Flag

open Entries

variable {key kind branch : String} {v w : Value} {items new body : List Value} {i : Nat}

open Comment

theorem mem_of_lookup {α β : Type} [BEq α] [LawfulBEq α] {key : α} {x : β} {entries : List (α × β)}
    (found : entries.lookup key = some x) : (key, x) ∈ entries := by
  obtain ⟨before, after, whole, -⟩ := lookup_eq_some_iff.mp found
  simp [whole]

theorem andThen_finished {α : Type} {o : Outcome α} {next : α → Outcome α} (finished : (o.andThen next).fault = none) :
    o.fault = none ∧ (next o.value).fault = none ∧ (o.andThen next).value = (next o.value).value := by
  unfold Outcome.andThen at finished ⊢
  cases fault : o.fault with
  | some f => simp [fault] at finished
  | none =>
    simp only [fault] at finished ⊢
    exact ⟨trivial, finished, trivial⟩

def bare (v : Value) : Value := v.unset "comments"

@[simp] theorem bare_set_comments (v comments : Value) : bare (v.set "comments" comments) = bare v := by
  cases v <;> simp [bare, Value.set, Value.unset, erase_put_self]

theorem field?_bare (v : Value) (other : key ≠ "comments") : (bare v).field? key = v.field? key := by
  cases v <;> simp [bare, Value.unset, Value.field?, get?_erase_ne _ other]

theorem field?_of_bare (same : bare v = bare w) (other : key ≠ "comments") : v.field? key = w.field? key := by
  rw [← field?_bare v other, same, field?_bare w other]

theorem kind?_of_bare (same : bare v = bare w) : kind? v = kind? w := by
  rw [kind?, kind?, field?_of_bare same (by decide)]

theorem hasKind_of_bare (same : bare v = bare w) : hasKind v kind = hasKind w kind := by
  rw [hasKind, hasKind, kind?_of_bare same]

theorem isNode_of_bare (same : bare v = bare w) : isNode v = isNode w := by
  rw [isNode, isNode, field?_of_bare same (by decide)]

theorem bare_eq_dict {entries : Entries} (same : bare v = bare (.dict entries)) :
    ∃ es, v = .dict es ∧ erase "comments" es = erase "comments" entries := by
  cases v <;> simp_all [bare, Value.unset]

def part (v : Value) (key : String) : Value := (v.field? key).getD .null

theorem part_of_bare (same : bare v = bare w) (other : key ≠ "comments") : part v key = part w key := by
  rw [part, part, field?_of_bare same other]

theorem field?_of_list (held : part v key = .list items) : v.field? key = some (.list items) := by
  unfold part at held
  cases read : v.field? key with
  | none => simp [read] at held
  | some w => rw [read] at held; exact congrArg some held

theorem mem_of_part {es : Entries} (held : part (.dict es) key = .list items) : (key, .list items) ∈ es := by
  simp only [part, Value.field?] at held
  cases read : get? key es with
  | none => simp [read] at held
  | some v =>
    obtain rfl : v = .list items := by simpa [read] using held
    exact mem_of_get? read

theorem attachBeginning_bare {v w : Option Value}
    (attached : attachBeginning new v = .ok w) : w.map bare = v.map bare := by
  unfold attachBeginning at attached
  split at attached
  · cases attached; rfl
  · split at attached
    · obtain ⟨old, _, attached⟩ := bind_cases attached
      cases attached
      simp
    · cases attached; rfl
    · cases attached

theorem attachEnd_bare {v w : Option Value}
    (attached : attachEnd new v = .ok w) : w.map bare = v.map bare := by
  unfold attachEnd at attached
  split at attached
  · cases attached; rfl
  · split at attached
    · obtain ⟨old, _, attached⟩ := bind_cases attached
      cases attached
      simp
    · cases attached; rfl
    · cases attached

@[simp] theorem turnComments_bare (leads trails : Bool) (v : Value) :
    bare (turnComments leads trails v) = bare v := by
  unfold turnComments
  split
  · exact bare_set_comments _ _
  · rfl

@[simp] theorem refreshComments_bare (fresh : List Value) (v : Value) :
    bare (refreshComments fresh v) = bare v := by
  unfold refreshComments
  split
  · exact bare_set_comments _ _
  · rfl

theorem map_set_of_eq {f : Value → Value} (same : body[i]?.map f = some (f v)) : (body.set i v).map f = body.map f := by
  rw [map_set]
  apply ext_getElem?
  intro j
  by_cases hit : j = i
  · subst hit
    have bound : j < (body.map f).length := by
      cases read : body[j]? with
      | none => simp [read] at same
      | some w => simpa using (List.getElem?_eq_some_iff.mp read).1
    rw [getElem?_set_self bound, getElem?_map, same]
  · rw [getElem?_set_ne (Ne.symm hit)]

theorem map_modify_of_eq {f h : Value → Value} (body : List Value) (i : Nat) (same : ∀ v, f (h v) = f v) :
    (body.modify i h).map f = body.map f := by
  apply ext_getElem?
  intro j
  simp only [getElem?_map, getElem?_modify]
  split <;> cases body[j]? <;> simp [same]

theorem changeAt_bare {f : Option Value → Except Fault (Option Value)}
    (keeps : ∀ v w, f v = .ok w → w.map bare = v.map bare) :
    (changeAt body i f).value.map bare = body.map bare := by
  unfold changeAt
  split
  · rename_i v changed
    exact map_set_of_eq (keeps _ _ changed).symm
  · rfl
  · rfl

theorem moveAll_bare (body : List Value) (i : Nat) : (moveAll body i).value.map bare = body.map bare := by
  have turned (leads trails : Bool) : (body.modify i (turnComments leads trails)).map bare = body.map bare :=
    map_modify_of_eq body i (turnComments_bare leads trails)
  unfold moveAll
  dsimp only
  split
  · rfl
  · split
    · rfl
    · exact (changeAt_bare fun _ _ h => attachBeginning_bare h).trans (turned _ _)
    · exact (changeAt_bare fun _ _ h => attachEnd_bare h).trans (turned _ _)
    · split
      · exact turned _ _
      · rename_i previous attached
        -- the next neighbour changes first, so the one before is still as it was read
        have next {new : List Value} :
            (changeAt (body.modify i (turnComments true true)) (i + 1) (attachBeginning new)).value.map bare =
              body.map bare :=
          (changeAt_bare fun _ _ h => attachBeginning_bare h).trans (turned true true)
        cases previous with
        | none => exact next
        | some v =>
          refine (map_set_of_eq ?_).trans next
          have before := attachEnd_bare attached
          rw [← getElem?_map] at before
          rw [← getElem?_map, next, ← before]
          rfl

theorem moveLeading_bare (body : List Value) (i : Nat) :
    (moveLeading body i).value.map bare = body.map bare := by
  unfold moveLeading
  dsimp only
  split
  · rfl
  · split
    · exact changeAt_bare fun _ _ h => attachBeginning_bare h
    · split
      · rfl
      · exact (changeAt_bare fun _ _ h => attachEnd_bare h).trans
          (map_modify_of_eq body i (turnComments_bare _ _))

theorem Carry.move_bare (carry : Carry) (body : List Value) (i : Nat) :
    (carry.move body i).value.map bare = body.map bare := by
  have moved : (carry.moveFrom body i).value.map bare = body.map bare := by
    cases carry with
    | nothing => rfl
    | leading => exact moveLeading_bare body i
    | all => exact moveAll_bare body i
  simp only [Carry.move, Outcome.map, map_map]
  rw [← moved]
  exact map_congr_left fun v _ => refreshComments_bare _ v

theorem strayComments_bare (carry : Carry) (isEmpty : Bool) (node : Value) :
    bare (strayComments carry isEmpty node).value.1 = bare node := by
  unfold strayComments
  split
  · rfl
  · rfl
  · split
    · rfl
    · split
      · rfl
      · exact turnComments_bare _ _ _
  · split
    · exact turnComments_bare _ _ _
    · split
      · rfl
      · exact turnComments_bare _ _ _

theorem enrich_bare (gained body : List Value) : (Home.enrich gained body).map bare = body.map bare := by
  cases body with
  | nil => rfl
  | cons first rest =>
    simp only [Home.enrich]
    split
    · rename_i attached
      simpa using attachBeginning_bare attached
    · rfl

@[simp] theorem enrich_nil (body : List Value) : Home.enrich [] body = body := by
  cases body <;> rfl

theorem takeOver_bare (home : Home) (carry : Carry) (node : Value) :
    bare (home.takeOver carry node).value.1 = bare node := by
  unfold Home.takeOver
  split
  · rfl
  · dsimp only
    split <;> exact strayComments_bare _ _ _

@[simp] theorem takeOver_statements (home : Home) (carry : Carry) (node : Value) :
    (home.takeOver carry node).value.2.statements = home.statements := by
  unfold Home.takeOver
  split
  · rfl
  · dsimp only
    split <;> rfl

@[simp] theorem takeOver_nothing (home : Home) (node : Value) :
    home.takeOver .nothing node = .done (node, home) := by
  unfold Home.takeOver
  split <;> rfl

theorem moveToBranch_bare {w : Option Value} (moved : moveToBranch branch (some v) = .ok w) :
    w = some v ∧ v.field? branch = none ∨
      ∃ old new, v.field? branch = some old ∧ bare new = bare old ∧ w = some (v.set branch new) := by
  obtain ⟨cs, _, moved⟩ := bind_cases moved
  obtain ⟨first, front, moved⟩ := bind_cases moved
  obtain ⟨last, back, moved⟩ := bind_cases moved
  have same := (attachEnd_bare back).trans (attachBeginning_bare front)
  cases read : v.field? branch with
  | none =>
    rw [read, Option.map_none, Option.map_eq_none_iff] at same
    subst same
    cases moved
    exact Or.inl ⟨rfl, rfl⟩
  | some old =>
    rw [read, Option.map_some, Option.map_eq_some_iff] at same
    obtain ⟨new, rfl, alike⟩ := same
    cases moved
    exact Or.inr ⟨old, new, rfl, alike, rfl⟩

theorem map_of_bare {α : Type} {g : Value → α} (blind : ∀ v w, bare v = bare w → g v = g w) {xs ys : List Value}
    (alike : xs.map bare = ys.map bare) : xs.map g = ys.map g := by
  induction xs generalizing ys with
  | nil => simp_all
  | cons x xs ih =>
    obtain ⟨y, ys, rfl, head, tail⟩ := map_eq_cons_iff.mp alike.symm
    rw [map_cons, map_cons, blind x y head.symm, ih tail.symm]

end Rulewright.Flag
