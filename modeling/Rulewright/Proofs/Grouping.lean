import Rulewright.Draw.Collect
import Mathlib.Data.List.Induction
import Mathlib.Data.List.Nodup

/-!
Things that are gathered under names, each behind those already there. The names stand in the order of their first thing, and the things of
a name in their own order (`grouped`).
-/

open List

namespace Rulewright

open Draw (addTo addName)

variable {α : Type} {name : String} {a : α}

def under (name : String) (rs : List (String × α)) : List α := (rs.filter (·.1 = name)).map (·.2)

theorem addTo_map {names : List String} (f : String → List α) (once : names.Nodup) :
    addTo name a (names.map fun k => (k, f k)) =
      if name ∈ names then names.map fun k => (k, if k = name then f k ++ [a] else f k)
      else names.map (fun k => (k, f k)) ++ [(name, [a])] := by
  induction names with
  | nil => rfl
  | cons k rest ih =>
    obtain ⟨apart, once⟩ := nodup_cons.mp once
    rw [map_cons, addTo]
    by_cases same : k = name
    · subst same
      have others : rest.map (fun j => (j, if j = k then f j ++ [a] else f j)) = rest.map fun j => (j, f j) :=
        map_congr_left fun j inside => by rw [if_neg (ne_of_mem_of_not_mem inside apart)]
      simp [others]
    · rw [ih once]
      by_cases later : name ∈ rest <;> simp [later, same, Ne.symm same]

theorem eraseDups_concat (names : List String) : (names ++ [name]).eraseDups = addName name names.eraseDups := by
  rw [eraseDups_append, addName]
  by_cases known : name ∈ names <;> simp [List.removeAll, known, eraseDups_cons]

theorem mem_addName {other : String} {names : List String} : other ∈ addName name names ↔ other = name ∨ other ∈ names := by
  unfold addName
  split
  · rename_i known
    have inside : name ∈ names := by simpa using known
    exact ⟨.inr, by rintro (rfl | old) <;> assumption⟩
  · simp [or_comm]

theorem nodup_eraseDups (names : List String) : names.eraseDups.Nodup := by
  induction names using List.reverseRecOn with
  | nil => simp
  | append_singleton names name ih =>
    rw [eraseDups_concat, addName]
    split
    · exact ih
    · rename_i new
      simpa [nodup_append, ih] using fun k inside => ne_of_mem_of_not_mem inside (by simpa using new)

theorem under_concat (rs : List (String × α)) (r : String × α) :
    under name (rs ++ [r]) = if name = r.1 then under name rs ++ [r.2] else under name rs := by
  by_cases same : name = r.1
  · simp [under, same]
  · simp [under, same, Ne.symm same]

theorem under_eq_nil {rs : List (String × α)} (absent : name ∉ rs.map (·.1)) : under name rs = [] := by
  rw [under, map_eq_nil_iff, filter_eq_nil_iff]
  intro r inside same
  exact absent (mem_map.mpr ⟨r, inside, by simpa using same⟩)

theorem grouped (rs : List (String × α)) :
    rs.foldl (fun gs r => addTo r.1 r.2 gs) [] = (rs.map (·.1)).eraseDups.map fun name => (name, under name rs) := by
  induction rs using List.reverseRecOn with
  | nil => rfl
  | append_singleton rs r ih =>
    rw [foldl_concat, ih, addTo_map _ (nodup_eraseDups _), map_append, map_singleton, eraseDups_concat, addName]
    simp only [contains_eq_mem, decide_eq_true_eq, mem_eraseDups, under_concat]
    split
    · rfl
    · rename_i new
      rw [map_append, map_singleton, if_pos rfl, under_eq_nil new]
      congr 1
      refine map_congr_left fun k inside => ?_
      rw [if_neg (ne_of_mem_of_not_mem (mem_eraseDups.mp inside) new)]

end Rulewright
