import Rulewright.Proofs.Flag.Standard

/-!
Flat trees: no block stands directly in a block or a program. Flattening leaves a flat tree
(`flattenNode_flat`), and a flat tree is not flattened further (`Flat.flattenNode`).
-/

open List Option

namespace Rulewright.Flag

open Entries

section Below

variable {P Q : Value → Prop} {loose l : Bool} {es es' : Entries} {v w : Value} {keepComments : Bool}

theorem mem_of_erase {key : String} (alike : erase "comments" es' = erase "comments" es)
    (other : key ≠ "comments") (held : (key, v) ∈ es) : (key, v) ∈ es' := by
  have kept : (key, v) ∈ erase "comments" es := mem_filter.mpr ⟨held, by simpa using other⟩
  rw [← alike] at kept
  exact mem_of_mem_filter kept

theorem visitedKind_of_erase (alike : erase "comments" es' = erase "comments" es) (loose : Bool) :
    visitedKind loose es' = visitedKind loose es := by
  refine visitedKind_of_get? ?_ loose
  rw [← get?_erase_ne es' (by decide : "type" ≠ "comments"), alike, get?_erase_ne _ (by decide)]

theorem below_of_erase (alike : erase "comments" es' = erase "comments" es)
    (known : (childFields (visitedKind loose es)).isSome) (below : Below loose es' l v) : Below loose es l v := by
  have kind := visitedKind_of_erase alike loose
  cases below with
  | single held child node =>
    rw [kind] at child
    exact .single (mem_of_erase alike.symm (isChild_comments known child) held) child node
  | listed held child inside visited =>
    rw [kind] at child visited ⊢
    exact .listed (mem_of_erase alike.symm (isChild_comments known child) held) child inside visited

theorem Below.plain (scope : isScope (visitedKind loose es)) (below : Below loose es l v) : l = false := by
  cases below with
  | single => rfl
  | listed => exact isPropertyList_scope scope

end Below

inductive Flat (P : Value → Prop) : Bool → Value → Prop where
  | leaf {loose : Bool} {v : Value} (leaf : ∀ es, v ≠ .dict es) : Flat P loose v
  | node {loose : Bool} {es : Entries} (known : (childFields (visitedKind loose es)).isSome = true) (here : P (.dict es))
      (below : ∀ l v, Below loose es l v → Flat P l v)
      (apart : isScope (visitedKind loose es) = true → ∀ l v, Below loose es l v → hasKind v "BlockStatement" = false) :
      Flat P loose (.dict es)

section Flat

variable {P Q : Value → Prop} {loose l : Bool} {es : Entries} {v w : Value} {keepComments : Bool} {f : Flattening}
  {items : List Value} {kind key : String} {fields : List String}

theorem Flat.everywhere (flat : Flat P loose v) : Everywhere P loose v := by
  induction flat with
  | leaf leaf => exact everywhere_leaf leaf
  | node known here below apart ih => exact everywhere_below.mpr ⟨here, ih⟩

theorem Flat.of_bare (same : bare v = bare w) (blind : P v → P w) (flat : Flat P loose v) : Flat P loose w := by
  cases flat with
  | leaf leaf =>
    refine .leaf fun es whole => ?_
    subst whole
    obtain ⟨es', rfl, -⟩ := bare_eq_dict same
    exact leaf es' rfl
  | @node _ es known here below apart =>
    obtain ⟨es', rfl, alike⟩ := bare_eq_dict same.symm
    have kind := visitedKind_of_erase alike loose
    refine .node (by rw [kind]; exact known) (blind here) (fun l v inside => ?_) (fun scope l v inside => ?_)
    · exact below l v (below_of_erase alike known inside)
    · rw [kind] at scope
      exact apart scope l v (below_of_erase alike known inside)

theorem flattenItems_done (still : ∀ v ∈ items, flatItem f loose v = .done { parts := [v] }) :
    flattenItems f loose items = .done { parts := items } := by
  induction items with
  | nil => rfl
  | cons v rest ih =>
    have head := still v mem_cons_self
    have tail := ih fun w member => still w (mem_cons_of_mem _ member)
    unfold flatItem at head
    rw [flattenItems, head, tail]
    rfl

theorem flattenEntries_done (still : ∀ e ∈ es, flatEntry f kind fields e.1 e.2 = .done { parts := [e] }) :
    flattenEntries f kind fields es = .done { parts := es } := by
  induction es with
  | nil => rfl
  | cons e rest ih =>
    rw [flattenEntries_cons, still e mem_cons_self, ih fun e member => still e (mem_cons_of_mem _ member)]
    rfl

theorem Flat.flattenNode (flat : Flat P loose v) (keepComments : Bool) :
    Flag.flattenNode keepComments loose v = .done v := by
  induction flat with
  | @leaf _ v leaf => cases v <;> first | rfl | exact (leaf _ rfl).elim
  | @node loose es known here below apart ih =>
    obtain ⟨fields, known⟩ := isSome_iff_exists.mp known
    have whole {l : Bool} {v : Value} (inside : Below loose es l v) :
        ¬((Outcome.done v).fault.isNone && isScope (visitedKind loose es) && hasKind v "BlockStatement") = true := by
      simpa [Outcome.done] using fun scope => apart scope l v inside
    rw [Flag.flattenNode]
    rw [known]
    dsimp only
    rw [flattenEntries_done]
    · rfl
    · rintro ⟨key, v⟩ held
      unfold flatEntry
      dsimp only
      split
      · rename_i items
        split
        · rename_i child
          rw [flattenItems_done]
          · rfl
          · intro v member
            unfold flatItem
            split
            · rename_i visited
              have inside := Below.listed held (by rw [known]; exact child) member visited
              rw [ih _ v inside]
              exact if_neg (whole inside)
            · rfl
        · rfl
      · split
        · rename_i both
          obtain ⟨child, node⟩ := Bool.and_eq_true_iff.mp both
          have inside : Below loose es false v := .single held (by rw [known]; exact child) node
          rw [ih _ v inside]
          exact if_neg (whole inside)
        · rfl

theorem flattenNode_apart (finished : (flattenNode keepComments loose (.dict es)).fault = none)
    (scope : isScope (visitedKind loose es)) {key : String} (held : (key, v) ∈ es)
    (child : isChild (childFields (visitedKind loose es)) key) (node : isNode v) :
    hasKind v "BlockStatement" = false := by
  obtain ⟨fields, f, rfl, flat⟩ := flattenNode_finished finished
  rw [flat.known] at child
  rw [hasKind, ← flattenNode_kind? ((flat.clean _ held child).1 node)]
  exact (flatEntry_finished (flat.entries _ held)).2.2 (flat.scope ▸ scope) child node

/-- What is below a flattened node is left of something that was below it. -/
theorem below_flat (known : childFields (visitedKind loose es) = some fields)
    (clean : ∀ e ∈ es, (flatEntry f (visitedKind loose es) fields e.1 e.2).fault = none)
    (reached : Below loose (flatFields f loose fields es) l w) :
    ∃ v, Below loose es l v ∧ (flatItem f l v).fault = none ∧ w ∈ (flatItem f l v).value.parts := by
  have kind := visitedKind_flat (f := f) known
  cases reached with
  | single held child node =>
    rw [kind] at child
    have contained := child
    rw [known] at contained
    obtain ⟨⟨key, v⟩, member, same⟩ := mem_map.mp held
    cases same
    obtain ⟨flat, -, apart⟩ := flatEntry_finished (clean _ member)
    rcases flatField_cases flat with ⟨same, leaf⟩ | ⟨-, ⟨own, fine, same⟩ | ⟨items, -, -, same⟩⟩ <;> rw [same] at node ⊢
    · simp [(leaf contained).1] at node
    · have whole : flatItem f false v = (flattenNode f.keepComments false v).map fun v => { parts := [v] } := by
        rw [flatItem, if_pos (isVisited_node own), asElement, if_neg]
        simpa [fine] using fun scope => apart scope contained own
      exact ⟨v, .single member child own, by rw [whole]; exact fine, by rw [whole]; exact mem_singleton_self _⟩
    · cases node
  | listed held child element visited =>
    rw [kind] at child visited ⊢
    have contained := child
    rw [known] at contained
    obtain ⟨⟨key, v⟩, member, same⟩ := mem_map.mp held
    obtain ⟨rfl, whole⟩ := Prod.mk.inj same
    rcases flatField_cases (flatEntry_finished (clean _ member)).1 with ⟨same, leaf⟩ | ⟨-, ⟨own, fine, same⟩ | ⟨items, rfl, fine, same⟩⟩
    · exact ((leaf contained).2 _ (same.symm.trans whole)).elim
    · obtain ⟨es', rfl⟩ := isNode_dict own
      obtain ⟨es'', table⟩ := flattenNode_dict fine
      cases whole.symm.trans (same.trans table)
    · cases whole.symm.trans same
      obtain ⟨elements, parts⟩ := flattenItems_finished fine
      rw [parts] at element
      obtain ⟨v, position, element⟩ := mem_flatMap.mp element
      refine ⟨v, .listed member child position ?_, elements v position, element⟩
      rcases flatItem_cases (elements v position) with ⟨-, same⟩ | ⟨reached, -⟩
      · rw [same, mem_singleton] at element
        exact element ▸ visited
      · exact reached

theorem Flat.statement (flat : Flat P false v) (block : hasKind v "BlockStatement")
    (stated : statementsOf v = .ok items) (element : w ∈ items) (node : isNode w) :
    Flat P false w ∧ hasKind w "BlockStatement" = false := by
  have known : kind? v = some "BlockStatement" := by simpa [hasKind] using block
  obtain ⟨es, rfl⟩ := dict_of_kind? known
  have kind : visitedKind false es = "BlockStatement" := visitedKind_of_kind? known (by decide)
  cases flat with
  | leaf leaf => exact (leaf es rfl).elim
  | node _ _ below apart =>
    unfold statementsOf at stated
    split at stated
    · rename_i read
      cases stated
      have inside : Below false es (isPropertyList (visitedKind false es) "body") w :=
        .listed (mem_of_get? read) (by rw [kind]; decide) element (isVisited_node node)
      exact ⟨below _ w inside, apart (by rw [kind]; decide) _ w inside⟩
    · cases stated
      obtain ⟨x, -, rfl⟩ := mem_map.mp element
      cases node
    · cases stated

theorem flatItem_flat (blind : ∀ v w, bare v = bare w → P v → P w) (plain : f.scope → loose = false)
    (inside : isVisited loose v → (flattenNode f.keepComments loose v).fault = none →
      Flat P loose (flattenNode f.keepComments loose v).value)
    (finished : (flatItem f loose v).fault = none) (member : w ∈ (flatItem f loose v).value.parts)
    (visited : isVisited loose w) :
    Flat P loose w ∧ (f.scope → hasKind w "BlockStatement" = false) := by
  rcases flatItem_cases finished with ⟨hidden, same⟩ | ⟨reached, clean, ⟨apart, same⟩ | ⟨scope, block, items, stated, alike⟩⟩
  · rw [same, mem_singleton] at member
    subst member
    simp [hidden] at visited
  · rw [same, mem_singleton] at member
    subst member
    exact ⟨inside reached clean, apart⟩
  · -- the statements of a block that gives way stood directly in that block
    obtain rfl := plain scope
    obtain ⟨x, element, same⟩ := mem_map.mp (alike ▸ mem_map_of_mem member)
    have node : isVisited false x := by rw [isVisited_of_bare same, visited]
    obtain ⟨flat, apart⟩ := (inside reached clean).statement block stated element (by simpa [isVisited] using node)
    exact ⟨flat.of_bare same (blind x w same), fun _ => by rw [← hasKind_of_bare same, apart]⟩

theorem flattenNode_flat (blind : ∀ v w, bare v = bare w → P v → P w)
    (kept : ∀ loose es, P (.dict es) → (flattenNode keepComments loose (.dict es)).fault = none →
      P (flattenNode keepComments loose (.dict es)).value)
    (everywhere : Everywhere P loose v) (finished : (flattenNode keepComments loose v).fault = none) :
    Flat P loose (flattenNode keepComments loose v).value := by
  induction loose, v using below_induction with
  | leaf loose v leaf => cases v <;> first | exact .leaf leaf | exact (leaf _ rfl).elim
  | node loose es ih =>
    obtain ⟨here, below⟩ := everywhere_below.mp everywhere
    have after := kept loose es here finished
    obtain ⟨fields, f, rfl, flat⟩ := flattenNode_finished finished
    have kind := visitedKind_flat (f := f) flat.known
    have inside (l : Bool) (x : Value) (reached : Below loose (flatFields f loose fields es) l x) :
        Flat P l x ∧ (f.scope → hasKind x "BlockStatement" = false) := by
      obtain ⟨v, inside, fine, member⟩ := below_flat flat.known flat.entries reached
      exact flatItem_flat blind (fun inScope => inside.plain (flat.scope ▸ inScope)) (fun _ => ih l v inside (below l v inside)) fine member reached.visited
    refine Flat.of_bare flat.alike.symm (fun _ => after)
      (.node (by rw [kind, flat.known]; rfl) (blind _ _ flat.alike after) (fun l x reached => (inside l x reached).1) ?_)
    rw [kind, ← flat.scope]
    exact fun inScope l x reached => (inside l x reached).2 inScope

end Flat

end Rulewright.Flag
