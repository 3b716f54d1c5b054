import Rulewright.Proofs.Inference.Templates
import Rulewright.Proofs.Source.Narrowing
import Rulewright.Source.Render
import Mathlib

/-!
The outermost nodes of a list, in order. They are nodes of the list, each starts after all before it have ended, they are chosen
by their ranges alone, and choosing again changes nothing (`nonoverlapping_canonical`). Among nodes of one tree they cover the list
exactly if no two nodes of it touch without a node of it around both (`nonoverlapping_covers_iff`).
-/

open List

namespace Rulewright.Source

open Inference (preorder preorders)

namespace Point

def key (p : Point) : Nat ×ₗ Nat := toLex (p.row, p.column)

theorem key_injective : Function.Injective key := by
  rintro ⟨row, column⟩ ⟨row', column'⟩ same
  cases same
  rfl

instance : LinearOrder Point := LinearOrder.lift' key key_injective

variable {p q : Point}

theorem le_iff : p.le q ↔ p ≤ q := by
  rw [show p ≤ q ↔ p.key ≤ q.key from Iff.rfl, Prod.Lex.le_iff]
  simp [le, key]

theorem lt_iff : p.lt q ↔ p < q := by
  rw [show p < q ↔ p.key < q.key from Iff.rfl, Prod.Lex.lt_iff]
  simp [lt, key]

end Point

def Node.rank (n : Node) : Point ×ₗ Pointᵒᵈ := toLex (n.start, OrderDual.toDual n.stop)

def Node.range (n : Node) : Point × Point := (n.start, n.stop)

variable {n m k c root : Node} {ns ms nodes : List Node} {o : Option Point}

theorem before_iff : n.before m ↔ n.rank ≤ m.rank := by
  simp [Node.before, Node.rank, Prod.Lex.toLex_le_toLex, Point.le_iff, Point.lt_iff]

theorem contains_iff : n.contains m ↔ n.start ≤ m.start ∧ m.stop ≤ n.stop := by
  simp [Node.contains, Point.le_iff]

theorem pairwise_sorted (nodes : List Node) : (nodes.mergeSort Node.before).Pairwise fun n m => n.rank ≤ m.rank := by
  refine (pairwise_mergeSort ?_ ?_ nodes).imp before_iff.mp
  · intro a b c first second
    exact before_iff.mpr ((before_iff.mp first).trans (before_iff.mp second))
  · intro a b
    simpa only [Bool.or_eq_true, before_iff] using le_total a.rank b.rank

theorem start_le_of_rank_le (ranked : n.rank ≤ m.rank) : n.start ≤ m.start := by
  rcases Prod.Lex.le_iff.mp ranked with earlier | ⟨same, -⟩
  · exact earlier.le
  · exact same.le

theorem keepDisjoint_sublist (o : Option Point) (ns : List Node) : (keepDisjoint o ns).Sublist ns := by
  fun_induction keepDisjoint o ns with
  | case1 => exact .slnil
  | case2 n rest ih => exact ih.cons_cons n
  | case3 stop n rest _ ih => exact ih.cons_cons n
  | case4 stop n rest _ ih => exact ih.cons n

/-- What is kept starts after everything kept before it has ended. -/
theorem keepDisjoint_apart (sorted : ns.Pairwise fun n m => n.rank ≤ m.rank) :
    (keepDisjoint o ns).Pairwise (fun n m => n.stop < m.start) ∧ ∀ stop ∈ o, ∀ m ∈ keepDisjoint o ns, stop < m.start := by
  fun_induction keepDisjoint o ns with
  | case1 => simp
  | case2 n rest ih =>
    obtain ⟨apart, after⟩ := ih sorted.of_cons
    exact ⟨apart.cons (after n.stop rfl), by simp⟩
  | case3 stop n rest free ih =>
    obtain ⟨apart, after⟩ := ih sorted.of_cons
    have first : stop < n.start := Point.lt_iff.mp free
    refine ⟨apart.cons (after n.stop rfl), ?_⟩
    rintro _ ⟨⟩ m inside
    rcases mem_cons.mp inside with rfl | later
    · exact first
    · exact first.trans_le (start_le_of_rank_le (rel_of_pairwise_cons sorted ((keepDisjoint_sublist _ rest).subset later)))
  | case4 stop n rest _ ih => exact ih sorted.of_cons

theorem keepDisjoint_of_apart (apart : ns.Pairwise fun n m => n.stop < m.start) (after : ∀ stop ∈ o, ∀ m ∈ ns, stop < m.start) :
    keepDisjoint o ns = ns := by
  fun_induction keepDisjoint o ns with
  | case1 => rfl
  | case2 n rest ih =>
    rw [ih apart.of_cons fun stop same m inside => Option.mem_some.mp same ▸ rel_of_pairwise_cons apart inside]
  | case3 stop n rest _ ih =>
    rw [ih apart.of_cons fun stop same m inside => Option.mem_some.mp same ▸ rel_of_pairwise_cons apart inside]
  | case4 stop n rest blocked ih => exact absurd (Point.lt_iff.mpr (after stop rfl n mem_cons_self)) blocked

theorem keepDisjoint_ranges (same : ns.map Node.range = ms.map Node.range) :
    (keepDisjoint o ns).map Node.range = (keepDisjoint o ms).map Node.range := by
  induction ns generalizing o ms with
  | nil =>
    cases ms with
    | nil => rfl
    | cons m ms => cases same
  | cons n ns ih =>
    cases ms with
    | nil => cases same
    | cons m ms =>
      rw [map_cons, map_cons, cons_eq_cons] at same
      obtain ⟨here, others⟩ := same
      obtain ⟨start, stop⟩ := Prod.mk.inj here
      cases o with
      | none => simp only [keepDisjoint, map_cons, here, ih others, stop]
      | some end' =>
        simp only [keepDisjoint, start, stop]
        split
        · rw [map_cons, map_cons, here, ih others]
        · exact ih others

theorem blocked_cons {kept rest : List Node} (sorted : (m :: rest).Pairwise fun n m => n.rank ≤ m.rank) (listed : n ∈ m :: rest)
    (later : n ∈ rest → n ∈ kept ∨ (∃ stop ∈ some m.stop, n.start ≤ stop) ∨ ∃ k ∈ kept, k.rank ≤ n.rank ∧ n.start ≤ k.stop) :
    n ∈ m :: kept ∨ ∃ k ∈ m :: kept, k.rank ≤ n.rank ∧ n.start ≤ k.stop := by
  rcases mem_cons.mp listed with rfl | behind
  · exact .inl mem_cons_self
  · rcases later behind with inside | ⟨_, ⟨⟩, blocked⟩ | ⟨k, inside, blocked⟩
    · exact .inl (mem_cons_of_mem _ inside)
    · exact .inr ⟨m, mem_cons_self, rel_of_pairwise_cons sorted behind, blocked⟩
    · exact .inr ⟨k, mem_cons_of_mem _ inside, blocked⟩

/-- A node that is not kept starts before a kept node, sorted before it, has ended. -/
theorem blocked_of_dropped (sorted : ns.Pairwise fun n m => n.rank ≤ m.rank) (listed : n ∈ ns) :
    n ∈ keepDisjoint o ns ∨ (∃ stop ∈ o, n.start ≤ stop) ∨ ∃ k ∈ keepDisjoint o ns, k.rank ≤ n.rank ∧ n.start ≤ k.stop := by
  fun_induction keepDisjoint o ns with
  | case1 => cases listed
  | case2 m rest ih => exact (blocked_cons sorted listed (ih sorted.of_cons)).imp_right .inr
  | case3 stop m rest _ ih => exact (blocked_cons sorted listed (ih sorted.of_cons)).imp_right .inr
  | case4 stop m rest blocked ih =>
    rcases mem_cons.mp listed with rfl | later
    · exact .inr (.inl ⟨stop, rfl, not_lt.mp fun free => blocked (Point.lt_iff.mpr free)⟩)
    · exact ih sorted.of_cons later

theorem nonoverlapping_subperm (nodes : List Node) : nonoverlapping nodes <+~ nodes :=
  (keepDisjoint_sublist ..).subperm.trans (mergeSort_perm ..).subperm

theorem nonoverlapping_apart (nodes : List Node) : (nonoverlapping nodes).Pairwise fun n m => n.stop < m.start :=
  (keepDisjoint_apart (pairwise_sorted nodes)).1

theorem nonoverlapping_fixed (nodes : List Node) : nonoverlapping (nonoverlapping nodes) = nonoverlapping nodes := by
  have sorted : (nonoverlapping nodes).Pairwise fun n m => n.before m :=
    ((pairwise_sorted nodes).sublist (keepDisjoint_sublist ..)).imp before_iff.mpr
  conv_lhs => rw [nonoverlapping, mergeSort_of_pairwise sorted]
  exact keepDisjoint_of_apart (nonoverlapping_apart nodes) (by simp)

theorem nonoverlapping_ranges (same : ns.Perm ms) : (nonoverlapping ns).map Node.range = (nonoverlapping ms).map Node.range := by
  have perm : (ns.mergeSort Node.before).Perm (ms.mergeSort Node.before) :=
    (mergeSort_perm ..).trans (same.trans (mergeSort_perm ..).symm)
  have ranks :=
    (perm.map Node.rank).eq_of_pairwise (fun _ _ _ _ => le_antisymm)
      (pairwise_map.mpr (pairwise_sorted ns)) (pairwise_map.mpr (pairwise_sorted ms))
  have ranges := congrArg (map fun r => ((ofLex r).1, OrderDual.ofDual (ofLex r).2)) ranks
  rw [map_map, map_map] at ranges
  exact keepDisjoint_ranges ranges

/-- Every list of nodes has one set of outermost ranges, whatever its order. -/
theorem nonoverlapping_canonical (nodes : List Node) :
    nonoverlapping nodes <+~ nodes ∧
      (nonoverlapping nodes).Pairwise (fun n m => n.stop < m.start) ∧
      (nonoverlapping nodes = [] ↔ nodes = []) ∧
      nonoverlapping (nonoverlapping nodes) = nonoverlapping nodes ∧
      ∀ others, nodes.Perm others → (nonoverlapping others).map Node.range = (nonoverlapping nodes).map Node.range := by
  refine ⟨nonoverlapping_subperm nodes, nonoverlapping_apart nodes, ?_, nonoverlapping_fixed nodes, ?_⟩
  · constructor
    · intro none
      by_contra some
      exact Inference.nonoverlapping_ne_nil some none
    · rintro rfl
      simp [nonoverlapping, keepDisjoint]
  · intro others same
    exact nonoverlapping_ranges same.symm

theorem rel_or_rel {R : Node → Node → Prop} (pairwise : ns.Pairwise R) (first : n ∈ ns) (second : m ∈ ns) (different : n ≠ m) :
    R n m ∨ R m n := by
  have symmetric : Std.Symm fun a b => R a b ∨ R b a := ⟨fun _ _ => Or.symm⟩
  exact (pairwise.imp (S := fun a b => R a b ∨ R b a) .inl).forall first second different

structure Arranged (n : Node) : Prop where
  inside : ∀ c ∈ n.children, n.contains c = true
  ordered : n.children.Pairwise fun c d => c.stop ≤ d.start

theorem contains_trans (outer : n.contains m) (inner : m.contains k) : n.contains k := by
  rw [contains_iff] at *
  exact ⟨outer.1.trans inner.1, inner.2.trans outer.2⟩

theorem mem_preorders : n ∈ preorders ns ↔ ∃ c ∈ ns, n ∈ preorder c := by
  induction ns with
  | nil => simp [preorders]
  | cons c rest ih => simp [preorders, ih]

theorem mem_preorder : n ∈ preorder m ↔ n = m ∨ ∃ c ∈ m.children, n ∈ preorder c := by
  obtain ⟨label, children⟩ := m
  rw [preorder, mem_cons, mem_preorders]

theorem mem_preorder_of_child (child : c ∈ m.children) (below : n ∈ preorder c) : n ∈ preorder m :=
  mem_preorder.mpr (.inr ⟨c, child, below⟩)

theorem self_mem_preorder (n : Node) : n ∈ preorder n := mem_preorder.mpr (.inl rfl)

theorem contains_of_mem_preorder (arranged : ∀ k ∈ preorder m, Arranged k) (below : n ∈ preorder m) : m.contains n := by
  induction m using Node.induction with
  | step label children ih =>
    rcases mem_preorder.mp below with rfl | ⟨c, child, deeper⟩
    · exact contains_iff.mpr ⟨le_rfl, le_rfl⟩
    · refine contains_trans ((arranged _ (self_mem_preorder _)).inside c child) ?_
      exact ih c child (fun k inside => arranged k (mem_preorder_of_child child inside)) deeper

/-- Two nodes of a tree are nested or one ends before the other starts. -/
theorem nested_or_apart (arranged : ∀ k ∈ preorder root, Arranged k) (first : n ∈ preorder root)
    (second : m ∈ preorder root) :
    n.contains m ∨ m.contains n ∨ n.stop ≤ m.start ∨ m.stop ≤ n.start := by
  induction root using Node.induction with
  | step label children ih =>
    have below {c : Node} (child : c ∈ children) : ∀ k ∈ preorder c, Arranged k :=
      fun k inside => arranged k (mem_preorder_of_child child inside)
    rcases mem_preorder.mp first with rfl | ⟨c, child, deeper⟩
    · exact .inl (contains_of_mem_preorder arranged second)
    rcases mem_preorder.mp second with rfl | ⟨d, other, lower⟩
    · exact .inr (.inl (contains_of_mem_preorder arranged first))
    have here := contains_iff.mp (contains_of_mem_preorder (below child) deeper)
    have there := contains_iff.mp (contains_of_mem_preorder (below other) lower)
    by_cases same : c = d
    · subst same
      exact ih c child (below child) deeper lower
    · rcases rel_or_rel (arranged _ (self_mem_preorder _)).ordered child other same with left | right
      · exact .inr (.inr (.inl (here.2.trans (left.trans there.1))))
      · exact .inr (.inr (.inr (there.2.trans (right.trans here.1))))

/-- Nothing is lost exactly if touching nodes have a node of the list around both of them. -/
theorem nonoverlapping_covers_iff (root : Node) (nodes : List Node) (arranged : ∀ n ∈ preorder root, Arranged n)
    (listed : ∀ n ∈ nodes, n ∈ preorder root ∧ n.start < n.stop) :
    (∀ n ∈ nodes, ∃ m ∈ nonoverlapping nodes, m.contains n = true) ↔
      ∀ a ∈ nodes, ∀ b ∈ nodes, a.stop = b.start → ∃ m ∈ nodes, m.contains a = true ∧ m.contains b = true := by
  constructor
  · intro covered a first b second touch
    obtain ⟨m, kept, around⟩ := covered a first
    obtain ⟨k, kept', around'⟩ := covered b second
    by_cases same : m = k
    · exact ⟨m, (nonoverlapping_subperm nodes).subset kept, around, same ▸ around'⟩
    · have here := contains_iff.mp around
      have there := contains_iff.mp around'
      have sides := rel_or_rel (nonoverlapping_apart nodes) kept kept' same
      have wide := (listed a first).2
      have wide' := (listed b second).2
      rcases sides with left | right <;> order
  · intro joined n inside
    -- the first node around `n` in the order of the scan
    obtain ⟨m, ⟨member, around⟩, least⟩ := Set.exists_min_image {m | m ∈ nodes ∧ m.contains n = true} Node.rank
      (nodes.finite_toSet.subset fun m found => found.1) ⟨n, inside, contains_iff.mpr ⟨le_rfl, le_rfl⟩⟩
    rcases blocked_of_dropped (o := none) (pairwise_sorted nodes) (mem_mergeSort.mpr member) with kept | ⟨_, ⟨⟩, _⟩ | ⟨k, kept, ranked, late⟩
    · exact ⟨m, kept, around⟩
    have known : k ∈ nodes := (nonoverlapping_subperm nodes).subset kept
    have wide := (listed m member).2
    have early := start_le_of_rank_le ranked
    rcases nested_or_apart arranged (listed k known).1 (listed m member).1 with outer | inner | left | right
    · exact ⟨k, kept, contains_trans outer around⟩
    · refine ⟨k, kept, contains_trans (contains_iff.mpr ⟨early, ?_⟩) around⟩
      rcases Prod.Lex.le_iff.mp ranked with before | ⟨-, wider⟩
      · exact absurd (contains_iff.mp inner).1 before.not_ge
      · exact wider
    · obtain ⟨both, found, first, second⟩ := joined k known m member (le_antisymm left late)
      have start := (contains_iff.mp first).1.trans_lt ((listed k known).2.trans_le left)
      exact absurd (least both ⟨found, contains_trans second around⟩) (not_le.mpr (Prod.Lex.lt_iff.mpr (.inl start)))
    · exact absurd (wide.trans_le right) early.not_gt

instance (n : Node) : Decidable (Arranged n) :=
  decidable_of_iff ((∀ c ∈ n.children, n.contains c = true) ∧ n.children.Pairwise fun c d => c.stop ≤ d.start)
    ⟨fun both => ⟨both.1, both.2⟩, fun arranged => ⟨arranged.inside, arranged.ordered⟩⟩

def Node.stretch (place : Place) (first last : Nat) (children : List Node) : Node where
  label := { (default : Label) with place, start := ⟨0, first⟩, stop := ⟨0, last⟩ }
  children

def callee : Node := .stretch [0, 0] 0 1 []

def arguments : Node := .stretch [0, 1] 1 4 [.stretch [0, 1, 0] 1 2 [], .stretch [0, 1, 1] 2 3 [], .stretch [0, 1, 2] 3 4 []]

def call : Node := .stretch [0] 0 4 [callee, arguments]

theorem mem_call : callee ∈ preorder call ∧ arguments ∈ preorder call ∧ call ∈ preorder call :=
  ⟨mem_preorder_of_child mem_cons_self (self_mem_preorder _),
    mem_preorder_of_child (mem_cons_of_mem _ mem_cons_self) (self_mem_preorder _), self_mem_preorder _⟩

/-- The name and the arguments of `f(x)` touch, and the call is around both. -/
theorem call_covers :
    callee.stop = arguments.start ∧ ∀ n ∈ [call, callee, arguments], ∃ m ∈ nonoverlapping [call, callee, arguments], m.contains n = true := by
  obtain ⟨first, second, whole⟩ := mem_call
  refine ⟨rfl, (nonoverlapping_covers_iff call [call, callee, arguments] (by decide) ?_).mpr (by decide)⟩
  simp only [forall_mem_cons, first, second, whole, true_and, not_mem_nil, IsEmpty.forall_iff, implies_true, and_true]
  decide

/-- Without the call the arguments are lost. -/
theorem arguments_are_lost :
    (∀ n ∈ preorder call, Arranged n) ∧ callee ∈ preorder call ∧ arguments ∈ preorder call ∧ callee.start < callee.stop ∧
      arguments.start < arguments.stop ∧ ¬∃ m ∈ nonoverlapping [callee, arguments], m.contains arguments = true := by
  refine ⟨by decide, mem_call.1, mem_call.2.1, by decide, by decide, ?_⟩
  rw [nonoverlapping, mergeSort_of_pairwise (by decide)]
  decide

end Rulewright.Source
