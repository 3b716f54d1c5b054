import Rulewright.Proofs.Flag.Measure
import Rulewright.Proofs.Flag.Passage
import Rulewright.Proofs.Flag.Returns
import Rulewright.Proofs.Toml.Numbers

/-!
Analyses that answer. An analysis answers if every visit does (`analyse_answers`); the visits of a standing script whose declared
functions have names do, as long as the script is not so large that the last statement of a body has no index.
-/

open List

namespace Rulewright.Flag

section Weight

variable {p : Pass} {loose : Bool} {v : Value}

theorem Edits.run_weight (edits : Edits p) {tree : Value} (keeps : Keeps anything tree)
    (finished : (p.run tree).fault = none) : weight (p.run tree).value ≤ weight tree := by
  obtain ⟨remains, -⟩ := edits.run_remains frames_complete keeps.complete keeps.root finished
  simpa using remains.lighter fun _ _ _ => Remnant.lighter

theorem everywhere_weight (complete : Everywhere (Complete anything) loose v) : Everywhere (fun x => weight x ≤ weight v) loose v := by
  induction v using node_induction generalizing loose with
  | leaf v leaf => exact everywhere_leaf leaf
  | node es single listed =>
    have self := everywhere_self complete
    have other {key : String} (child : isChild (childFields (visitedKind loose es)) key) : key ≠ "comments" := by
      rw [self.visitedKind] at child
      exact isChild_comments self.known child
    refine everywhere_below.mpr ⟨Nat.le_refl _, fun l x inside => ?_⟩
    have below := (everywhere_below.mp complete).2 l x inside
    cases inside with
    | single held child =>
      have lighter := weight_field held (other child)
      exact (single _ x held below).imp fun _ light => by omega
    | listed held child element =>
      have lighter := weight_field held (other child)
      have part := single_le_sum (by simp) _ (mem_map_of_mem (f := weight) element)
      rw [weight_list] at lighter
      exact (listed _ _ held x element below).imp fun _ light => by omega

theorem length_le_weight {items : List Value} (nodes : ∀ x ∈ items, isNode x) : items.length ≤ weight (.list items) := by
  rw [weight_list]
  induction items with
  | nil => exact Nat.le_refl _
  | cons x rest ih =>
    obtain ⟨es, rfl⟩ := isNode_dict (nodes x mem_cons_self)
    have own := cost_pos (.dict es)
    have others := ih fun y member => nodes y (mem_cons_of_mem _ member)
    rw [length_cons, map_cons, sum_cons, weight_dict]
    omega

end Weight

section Last

variable {items : List Value} {n : Nat}

theorem indexKey?_toString (short : n < 4294967295) : indexKey? (toString (n : Int)) = some n := by
  have spelled : (toString (n : Int)).toList = Nat.toDigits 10 n := by
    rw [Toml.toList_toString_int]
    rfl
  rw [indexKey?, spelled]
  rcases Toml.digits_cases n with ⟨zero, whole⟩ | ⟨first, rest, whole, other⟩
  · obtain rfl : n = 0 := by omega
    rfl
  · have digits : Nat.toDigits 10 n = first :: rest := whole
    have value := @Nat.ofDigitChars_ten_toDigits n
    have length := Nat.toDigits_length 10 n 10 (by decide) (by omega)
    have all : (first :: rest).all (fun c => '0' ≤ c && c ≤ '9') := by
      refine all_eq_true.mpr fun c inside => ?_
      obtain ⟨low, high, -⟩ := Toml.digit_bounds (Toml.isDigit_digits (n := n) (by rw [whole]; exact inside))
      simp [low, high]
    simp only [Nat.ofDigitChars_eq_foldl, Nat.mul_comm 10] at value
    rw [digits] at value length ⊢
    split
    · rename_i zero
      cases zero
      exact (other rfl).elim
    · rename_i c rest' _ same
      cases same
      have plain : (first != '0' && (first :: rest).all (fun c => '0' ≤ c && c ≤ '9') && decide ((first :: rest).length ≤ 10)) := by
        rw [all, decide_eq_true length, Bool.and_true, Bool.and_true, bne_iff_ne]
        exact other
      rw [if_pos plain]
      rw [value, if_pos short]
    · rename_i none
      cases none

theorem lastStatement_getLast? (short : items.length < 4294967296) : lastStatement (.list items) = items.getLast?.map some := by
  have counted : member? (.list items) "length" = some (.int items.length) := rfl
  have whole : numeric (.int items.length) = .int items.length := by
    have small : (items.length : Int).natAbs ≤ Nat.pow 2 53 := by
      have bound : Nat.pow 2 53 = 9007199254740992 := rfl
      omega
    rw [numeric, canonical, if_pos small]
  rw [lastStatement, counted, Option.map_some, whole]
  dsimp only
  by_cases empty : items = []
  · rw [empty]
    rfl
  · have positive := length_pos_iff.mpr empty
    have before : (items.length : Int) - 1 = (items.length - 1 : Nat) := by omega
    have index := @indexKey?_toString (items.length - 1) (by omega)
    have other : (toString ((items.length - 1 : Nat) : Int) == "length") = false := by
      rw [beq_eq_false_iff_ne]
      intro same
      rw [same] at index
      cases index
    rw [if_neg (by omega), before, member?, ownMember?, other, index, getLast?_eq_getElem?,
      getElem?_eq_getElem (by omega)]
    simp

end Last

section Analyses

variable {σ : Type} {visit : Visit σ} {stop : Value → Bool} {loose : Bool} {parent : Option Value} {v tree : Value} {n : Place} {s : σ}
  {kind : String} {fields : Option (List String)} {above : Value} {es : Entries} {items : List Value}

theorem analyse_answers (root : isNode tree) (each : ∀ n ∈ nodesIn never false none tree, ∀ s, Succeeds (visit s n.1 n.2)) :
    Succeeds (analyse visit s tree) := by
  obtain ⟨es, rfl⟩ := isNode_dict root
  obtain ⟨visited, sub, -, folded⟩ := analyse_visits visit s (.dict es)
  rw [← folded]
  replace each (n : Place) (member : n ∈ visited) := each n (sub.subset member)
  clear sub folded
  induction visited generalizing s with
  | nil => exact succeeds_pure s
  | cons n visited ih =>
    refine .bind (.bind (each n mem_cons_self s) fun _ _ => succeeds_pure _) fun s _ => ?_
    exact ih fun m member => each m (mem_cons_of_mem _ member)

theorem nodesIn_parent (reached : n ∈ nodesIn stop loose parent v) :
    n = (parent, v) ∨ ∃ p q, n.1 = some p ∧ (q, p) ∈ nodesIn stop loose parent v := by
  induction loose, v using below_induction generalizing parent with
  | leaf loose v leaf => cases v <;> first | exact (leaf _ rfl).elim | cases reached
  | node loose es ih =>
    rcases mem_nodesIn.mp reached with rfl | ⟨goes, l, v, below, inside⟩
    · exact Or.inl rfl
    · refine Or.inr ?_
      rcases ih l v below inside with rfl | ⟨p, q, up, above⟩
      · exact ⟨.dict es, parent, rfl, mem_nodesIn.mpr (Or.inl rfl)⟩
      · exact ⟨p, q, up, mem_nodesIn.mpr (Or.inr ⟨goes, l, v, below, above⟩)⟩

end Analyses

section Visits

variable {parent : Option Value} {v p : Value} {name kind : String} {es : Entries} {items : List Value} {t single : Table}

theorem markedTruth?_answers (v : Option Value) : Succeeds (markedTruth? v) := by
  unfold markedTruth?
  split
  · exact ⟨none, rfl⟩
  · rename_i w
    refine .ite (fun true => ?_) fun _ => ⟨none, rfl⟩
    have present : w ≠ .null := by rintro rfl; cases true
    exact .bind ⟨_, isMarked_present present⟩ fun _ _ => succeeds_pure _

theorem collectDeclarators_answers (nodes : ∀ d ∈ items, isNode d ∧ isNode (part d "id")) :
    Succeeds (collectDeclarators t (items.map some)) := by
  induction items generalizing t with
  | nil => exact ⟨t, rfl⟩
  | cons d rest ih =>
    obtain ⟨node, name⟩ := nodes d mem_cons_self
    have others (t : Table) := @ih t fun e member => nodes e (mem_cons_of_mem _ member)
    refine .bind ⟨_, read_present (isNode_ne_null node)⟩ fun init _ => .bind (markedTruth?_answers init) fun truth _ => ?_
    split
    · exact .bind ⟨_, read_node name⟩ fun _ _ => others _
    · exact others t

theorem noteWrites_answers (complete : Everywhere (Complete anything) false (.dict es)) (sturdy : Everywhere Sturdy false (.dict es)) :
    Succeeds (noteWrites t parent (.dict es)) := by
  have self := everywhere_self sturdy
  refine .ite (fun declaration => ?_) fun _ => .ite (fun assignment => ?_) fun _ => succeeds_pure _
  · have known := known_of declaration
    obtain ⟨items, held, all⟩ := list?_any.mp (self.declarators known)
    have listed : declarators (.dict es) = .ok (items.map some) := by
      rw [declarators, field?_of_list held]
      rfl
    refine .bind ⟨_, listed⟩ fun ds same => .bind ?_ fun _ _ => succeeds_pure _
    rw [listed, Except.ok.injEq] at same
    subst same
    refine collectDeclarators_answers fun d inside => ?_
    have kind := known_of (all_eq_true.mp all d inside)
    have node := isNode_of_kind? kind
    have below := everywhere_element complete sturdy (by rw [kindName_of_kind? known]; decide) (by rw [kindName_of_kind? known]; decide)
      held inside node
    obtain ⟨fields, rfl⟩ := isNode_dict node
    exact ⟨node, (everywhere_self below).node kind (by decide)⟩
  · refine .bind (markedTruth?_answers _) fun truth _ => ?_
    split
    · refine .bind ⟨_, read_node (self.node (known_of assignment) (by decide))⟩ fun name _ => ?_
      split <;> exact succeeds_pure _
    · exact succeeds_pure _

theorem inDeclarator_node (above : parent = some p) (node : isNode p) : Succeeds (inDeclarator parent) := by
  rw [above]
  exact .bind ⟨_, read_present (isNode_ne_null node)⟩ fun _ _ => succeeds_pure _

theorem parentName_answers (above : parent = some p) (sturdy : Sturdy p) (inside : inDeclarator parent = .ok true) :
    Succeeds (parentName parent) := by
  obtain ⟨_, same, declarator⟩ := inDeclarator_ok inside
  rw [above] at same ⊢
  cases same
  exact nameOf_answers (sturdy.node (known_of declarator.symm) (by decide))

structure Visited (parent : Option Value) (es : Entries) : Prop where
  complete : Everywhere (Complete populated) false (.dict es)
  sturdy : Everywhere Sturdy false (.dict es)
  named : Named (.dict es)
  light : weight (.dict es) < 4294967296
  above : kind? (.dict es) ≠ some "Program" → ∃ p, parent = some p ∧ isNode p = true ∧ Sturdy p

theorem Visited.inner (visited : Visited parent es) (known : kind? (.dict es) = some kind) (other : kind ≠ "Program") :
    ∃ p, parent = some p ∧ isNode p ∧ Sturdy p :=
  visited.above (by rw [known]; simpa using other)

theorem countReturns_answers {r : Returns} (visited : Visited parent es) : Succeeds (countReturns r parent (.dict es)) := by
  have self := everywhere_self visited.sturdy
  refine .ite (fun function => ?_) fun _ => .ite (fun expression => ?_) fun _ => .ite (fun arrow => ?_) fun _ => .ite ?_ ?_
  · exact .bind (nameOf_answers (visited.named.node (known_of function))) fun _ _ => succeeds_pure _
  · obtain ⟨p, above, node, sturdy⟩ := visited.inner (known_of expression) (by decide)
    refine .bind (inDeclarator_node above node) fun b found => .ite (fun inside => ?_) fun _ => succeeds_pure _
    exact .bind (parentName_answers above sturdy (inside ▸ found)) fun _ _ => succeeds_pure _
  · obtain ⟨p, above, node, sturdy⟩ := visited.inner (known_of arrow) (by decide)
    refine .bind (inDeclarator_node above node) fun b found => .ite (fun inside => ?_) fun _ => succeeds_pure _
    refine .bind (parentName_answers above sturdy (inside ▸ found)) fun _ _ => ?_
    exact .bind ⟨_, read_node (self.node (known_of arrow) (by decide))⟩ fun _ _ => succeeds_pure _
  · exact fun _ => succeeds_pure _
  · exact fun _ => succeeds_pure _

theorem noteFunction_answers (visited : Visited parent es) (child : isChild (childFields (kindName (.dict es))) "body")
    (block : hasKind (part (.dict es) "body") "BlockStatement") : Succeeds (noteFunction (.dict es) name t) := by
  have node := isNode_of_kind? (known_of block)
  have held := mem_of_isNode_part node
  have lighter := weight_field held (by decide)
  have complete : Everywhere (Complete populated) false (part (.dict es) "body") :=
    ((everywhere_complete.mp visited.complete).2 _ held child).1
  have sturdy := everywhere_part (everywhere_self (everywhere_anything visited.complete)) visited.sturdy child node
  obtain ⟨items, stated, nodes⟩ := everywhere_nodes complete sturdy block
  have short : items.length < 4294967296 := by
    have few := length_le_weight fun x inside => (nodes x inside).1
    have total := (statements_lighter (P := fun _ => True) (by rw [statementsOf, stated])).1
    have light := visited.light
    rw [weight_list] at few
    omega
  rw [noteFunction, field?_of_node node]
  obtain ⟨fields, whole⟩ := isNode_dict node
  rw [whole] at stated ⊢
  refine .bind ⟨_, read_present (by rintro ⟨⟩)⟩ fun body same => ?_
  rw [read_present (by rintro ⟨⟩), Except.ok.injEq, stated] at same
  subst same
  dsimp only
  rw [lastStatement_getLast? short]
  cases ends : items.getLast? with
  | none => exact succeeds_pure _
  | some last =>
    obtain ⟨lastNode, -, lastSturdy⟩ := nodes last (mem_of_getLast? ends)
    refine .bind ⟨_, read_present (isNode_ne_null lastNode)⟩ fun type typed => .ite (fun returns => ?_) fun _ => succeeds_pure _
    obtain ⟨isReturn, given⟩ := Bool.and_eq_true_iff.mp returns
    obtain ⟨_, same, kind⟩ := kindOf_ok typed "ReturnStatement"
    cases same
    rw [isReturn] at kind
    obtain ⟨es', rfl⟩ := isNode_dict lastNode
    obtain ⟨argument, held⟩ := Option.isSome_iff_exists.mp ((everywhere_self lastSturdy).answer (known_of kind.symm))
    have present : argument ≠ .null := by
      rintro rfl
      simp [held] at given
    simp only [Option.bind_some, held]
    refine .bind ⟨_, isMarked_present present⟩ fun _ _ => .ite (fun _ => ?_) fun _ => succeeds_pure _
    split <;> exact succeeds_pure _

theorem noteFunctions_answers (visited : Visited parent es) : Succeeds (noteFunctions single t parent (.dict es)) := by
  have self := everywhere_self visited.sturdy
  have noted {name : String} {t : Table} (child : isChild (childFields (kindName (.dict es))) "body")
      (block : hasKind (part (.dict es) "body") "BlockStatement") :
      Succeeds (noteFunction (.dict es) name t >>= fun answer => pure (answer.1, !answer.2)) :=
    .bind (noteFunction_answers visited child block) fun _ _ => succeeds_pure _
  refine .ite (fun function => ?_) fun _ => .ite (fun expression => ?_) fun _ => .ite (fun arrow => ?_) fun _ => succeeds_pure _
  · have known := known_of function
    refine .bind (nameOf_answers (visited.named.node known)) fun name _ => .ite (fun _ => ?_) fun _ => succeeds_pure _
    exact noted (by rw [kindName_of_kind? known]; decide) (by simp [hasKind, self.block (Or.inl known)])
  · have known := known_of expression
    obtain ⟨p, above, node, sturdy⟩ := visited.inner known (by decide)
    refine .bind (inDeclarator_node above node) fun b found => .ite (fun inside => ?_) fun _ => succeeds_pure _
    refine .bind (parentName_answers above sturdy (inside ▸ found)) fun name _ => .ite (fun _ => ?_) fun _ => succeeds_pure _
    exact noted (by rw [kindName_of_kind? known]; decide) (by simp [hasKind, self.block (Or.inr known)])
  · have known := known_of arrow
    obtain ⟨p, above, node, sturdy⟩ := visited.inner known (by decide)
    have body : isNode (part (.dict es) "body") := self.node known (by decide)
    refine .bind (inDeclarator_node above node) fun b found => .ite (fun inside => ?_) fun _ => succeeds_pure _
    refine .bind (parentName_answers above sturdy (inside ▸ found)) fun name _ => .ite (fun _ => ?_) fun _ => succeeds_pure _
    refine .bind ⟨_, read_node body⟩ fun type typed => .ite (fun block => ?_) fun _ => ?_
    · refine noted (by rw [kindName_of_kind? known]; decide) ?_
      obtain ⟨x, same, kind⟩ := kindOf_ok typed "BlockStatement"
      rw [part, same, Option.getD_some, ← kind]
      exact block
    · refine .bind ⟨_, isMarked_node body⟩ fun _ _ => .ite (fun _ => ?_) fun _ => succeeds_pure _
      split <;> exact succeeds_pure _

end Visits

section Standing

variable {tree : Value} {n : Place}

theorem Standing.visited (standing : Standing tree) (named : Everywhere Named false tree) (light : weight tree < 4294967296)
    (reached : n ∈ nodesIn never false none tree) : ∃ es, n.2 = .dict es ∧ Visited n.1 es := by
  obtain ⟨complete, below, sturdy⟩ := standing.node reached
  obtain ⟨es, whole⟩ := isNode_dict complete.isNode
  have names := named none n reached
  have lighter := everywhere_weight (everywhere_anything standing.keeps.complete) none n reached
  refine ⟨es, whole, ?_⟩
  rw [whole] at below sturdy names lighter
  refine ⟨below, sturdy, names, by omega, fun inner => ?_⟩
  rcases nodesIn_parent reached with root | ⟨p, q, above, inside⟩
  · rw [root] at whole
    exact (inner (by rw [← whole]; exact standing.keeps.root)).elim
  · obtain ⟨completeP, -, sturdyP⟩ := standing.node inside
    have node := completeP.isNode
    obtain ⟨es', rfl⟩ := isNode_dict node
    exact ⟨_, above, node, everywhere_self sturdyP⟩

theorem Standing.redundantVariables (standing : Standing tree) : Succeeds (Flag.redundantVariables tree) := by
  refine analyse_answers (isNode_of_kind? standing.keeps.root) fun n reached t => ?_
  obtain ⟨complete, below, sturdy⟩ := standing.node reached
  obtain ⟨es, whole⟩ := isNode_dict complete.isNode
  rw [whole] at below sturdy ⊢
  exact noteWrites_answers (everywhere_anything below) sturdy

theorem Standing.singleReturns (standing : Standing tree) (named : Everywhere Named false tree) (light : weight tree < 4294967296) :
    Succeeds (Flag.singleReturns tree) := by
  refine .bind (analyse_answers (isNode_of_kind? standing.keeps.root) fun n reached r => ?_) fun _ _ => succeeds_pure _
  obtain ⟨es, whole, visited⟩ := standing.visited named light reached
  rw [whole]
  exact countReturns_answers visited

theorem Standing.redundantFunctions (standing : Standing tree) (named : Everywhere Named false tree) (light : weight tree < 4294967296)
    (single : Table) : Succeeds (Flag.redundantFunctions single tree) := by
  refine analyse_answers (isNode_of_kind? standing.keeps.root) fun n reached t => ?_
  obtain ⟨es, whole, visited⟩ := standing.visited named light reached
  rw [whole]
  exact noteFunctions_answers visited

end Standing

end Rulewright.Flag
