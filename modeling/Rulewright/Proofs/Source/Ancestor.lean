import Rulewright.Source.Ancestor
import Rulewright.Proofs.Source.Cover

/-!
The lowest common ancestor. The common ancestors of nodes lie on one way down from the root, and where children start inside their parents
none starts before the ones above it; so one that starts last is as deep as those that start with it (`lowestCommonAncestor_lowest`).
-/

open List

namespace Rulewright.Source

open Inference (preorder)

/-- The place of a node of the forest that is above all nodes of the list, or among them. -/
def IsCommon (forest : Forest) (nodes : List Node) (a : Place) (m : Node) : Prop := forest.at? a = some m ∧ ∀ n ∈ nodes, a <+: n.place

/-- No common ancestor starts later. -/
structure IsLatest (forest : Forest) (nodes : List Node) (a : Place) (m : Node) : Prop where
  common : IsCommon forest nodes a m
  latest : ∀ b k, IsCommon forest nodes b k → k.label.startByte ≤ m.label.startByte

def InOneTree (nodes : List Node) : Prop := ∃ tree, ∀ n ∈ nodes, n.place.head? = some tree

section Ancestors

variable {forest : Forest} {nodes ns : List Node} {a b p : Place} {n m k : Node}

theorem mem_ancestors : a ∈ ancestors p ↔ a ≠ [] ∧ a <+: p := by
  simp only [ancestors, mem_map, mem_range]
  constructor
  · rintro ⟨i, inside, rfl⟩
    refine ⟨ne_nil_of_length_pos ?_, take_prefix _ _⟩
    rw [length_take]
    omega
  · rintro ⟨filled, begins⟩
    have positive := length_pos_iff.mpr filled
    have shorter := begins.length_le
    refine ⟨a.length - 1, by omega, ?_⟩
    rw [Nat.sub_add_cancel positive, ← prefix_iff_eq_take.mp begins]

theorem mem_commonAncestors (filled : nodes ≠ []) : a ∈ commonAncestors (nodes.map Node.place) ↔ a ≠ [] ∧ ∀ n ∈ nodes, a <+: n.place := by
  obtain ⟨n, rest, rfl⟩ := exists_cons_of_ne_nil filled
  simp [commonAncestors, mem_ancestors, and_assoc]

theorem foldl_later (a : Node) (ns : List Node) :
    ns.foldl later a ∈ a :: ns ∧ ∀ n ∈ a :: ns, n.label.startByte ≤ (ns.foldl later a).label.startByte := by
  induction ns generalizing a with
  | nil => simp
  | cons b ns ih =>
    obtain ⟨inside, latest⟩ := ih (later a b)
    rw [foldl_cons]
    rw [forall_mem_cons] at latest
    unfold later at *
    grind

theorem mem_common (filled : nodes ≠ []) : m ∈ (commonAncestors (nodes.map Node.place)).filterMap forest.at? ↔ ∃ a, IsCommon forest nodes a m := by
  simp only [mem_filterMap, mem_commonAncestors filled, IsCommon]
  constructor
  · rintro ⟨a, ⟨-, above⟩, found⟩
    exact ⟨a, found, above⟩
  · rintro ⟨a, found, above⟩
    refine ⟨a, ⟨?_, above⟩, found⟩
    rintro rfl
    cases found

theorem at?_append (found : forest.at? a = some m) (p : Place) : forest.at? (a ++ p) = Forest.below p m := by
  have deeper (q : Place) (n : Node) : Forest.below (q ++ p) n = (Forest.below q n).bind (Forest.below p) := by
    induction q generalizing n with
    | nil => rfl
    | cons i q ih =>
      rw [cons_append, Forest.below, Forest.below, Option.bind_assoc]
      exact Option.bind_congr fun c _ => ih c
  cases a with
  | nil => cases found
  | cons i a =>
    obtain ⟨tree, held, found⟩ := Option.bind_eq_some_iff.mp found
    rw [cons_append, Forest.at?, held, Option.bind_some, deeper, found, Option.bind_some]

theorem mem_preorder_of_below (found : Forest.below p n = some k) : k ∈ preorder n := by
  induction p generalizing n with
  | nil =>
    cases found
    exact self_mem_preorder _
  | cons i p ih =>
    obtain ⟨c, child, found⟩ := Option.bind_eq_some_iff.mp found
    exact mem_preorder_of_child (mem_of_getElem? child) (ih found)

theorem startByte_le_below (inside : ∀ tree ∈ forest, ∀ n ∈ preorder tree, ∀ c ∈ n.children, n.label.startByte ≤ c.label.startByte)
    (above : a <+: b) (first : forest.at? a = some m) (second : forest.at? b = some k) : m.label.startByte ≤ k.label.startByte := by
  obtain ⟨p, rfl⟩ := above
  induction p generalizing a m with
  | nil =>
    rw [append_nil, first] at second
    cases second
    exact le_rfl
  | cons i p ih =>
    obtain ⟨c, child, -⟩ := Option.bind_eq_some_iff.mp (at?_append first (i :: p) ▸ second)
    have next : forest.at? (a ++ [i]) = some c := by rw [at?_append first, Forest.below, child]; rfl
    cases a with
    | nil => cases first
    | cons j a =>
      obtain ⟨tree, held, found⟩ := Option.bind_eq_some_iff.mp first
      exact (inside tree (mem_of_getElem? held) m (mem_preorder_of_below found) c (mem_of_getElem? child)).trans
        (ih next (by rwa [append_assoc]))

theorem IsCommon.oneTree (common : IsCommon forest nodes a m) : InOneTree nodes := by
  obtain ⟨found, above⟩ := common
  cases a with
  | nil => cases found
  | cons tree a =>
    refine ⟨tree, fun n listed => ?_⟩
    obtain ⟨rest, same⟩ := above n listed
    rw [← same]
    rfl

theorem InOneTree.common (one : InOneTree nodes) (filled : nodes ≠ []) (known : ∀ n ∈ nodes, forest.at? n.place = some n) :
    ∃ a m, IsCommon forest nodes a m := by
  obtain ⟨tree, one⟩ := one
  have above {n : Node} (listed : n ∈ nodes) : ∃ rest, n.place = tree :: rest := head?_eq_some_iff.mp (one n listed)
  obtain ⟨n, listed⟩ := exists_mem_of_ne_nil _ filled
  obtain ⟨rest, place⟩ := above listed
  obtain ⟨root, held, -⟩ := Option.bind_eq_some_iff.mp (place ▸ known n listed)
  refine ⟨[tree], root, by rw [Forest.at?, held]; rfl, fun n listed => ?_⟩
  obtain ⟨rest, place⟩ := above listed
  exact ⟨rest, place.symm⟩

theorem lowestCommonAncestor_cases (filled : nodes ≠ []) (known : ∀ n ∈ nodes, forest.at? n.place = some n) :
    lowestCommonAncestor forest nodes = .error .noCommonAncestor ∧ ¬InOneTree nodes ∨
      InOneTree nodes ∧ ∃ a m, lowestCommonAncestor forest nodes = .ok m ∧ IsLatest forest nodes a m := by
  rw [lowestCommonAncestor, if_neg (by simpa using filled)]
  have members (m : Node) : m ∈ (commonAncestors (nodes.map Node.place)).filterMap forest.at? ↔ ∃ a, IsCommon forest nodes a m :=
    mem_common filled
  cases listed : (commonAncestors (nodes.map Node.place)).filterMap forest.at? with
  | nil =>
    refine .inl ⟨rfl, fun one => ?_⟩
    obtain ⟨a, m, common⟩ := one.common filled known
    exact absurd (listed ▸ (members m).mpr ⟨a, common⟩) not_mem_nil
  | cons first rest =>
    rw [listed] at members
    obtain ⟨found, latest⟩ := foldl_later first rest
    obtain ⟨a, common⟩ := (members _).mp found
    exact .inr ⟨common.oneTree, a, _, rfl, common, fun b k other => latest k ((members k).mpr ⟨b, other⟩)⟩

end Ancestors

/-- There is no answer for no nodes, and none for nodes of several trees. Otherwise the answer is a common ancestor that starts last; any such
ancestor has below it only common ancestors that start with it, and if it is the only one, it is the deepest. -/
theorem lowestCommonAncestor_lowest (forest : Forest) (nodes : List Node) (known : ∀ n ∈ nodes, forest.at? n.place = some n)
    (inside : ∀ tree ∈ forest, ∀ n ∈ preorder tree, ∀ c ∈ n.children, n.label.startByte ≤ c.label.startByte) :
    (lowestCommonAncestor forest nodes = .error .noNodes ↔ nodes = []) ∧
      (lowestCommonAncestor forest nodes = .error .noCommonAncestor ↔ ¬InOneTree nodes) ∧
      (nodes ≠ [] → InOneTree nodes → ∃ a m, lowestCommonAncestor forest nodes = .ok m ∧ IsLatest forest nodes a m) ∧
      ∀ a m, nodes ≠ [] → IsLatest forest nodes a m →
        (∀ b k, IsCommon forest nodes b k → a <+: b → k.label.startByte = m.label.startByte) ∧
        ((∀ b k, IsCommon forest nodes b k → k.label.startByte = m.label.startByte → b = a) →
          ∀ b k, IsCommon forest nodes b k → b <+: a) := by
  by_cases filled : nodes = []
  · subst filled
    exact ⟨iff_of_true rfl rfl, iff_of_false (by rintro ⟨⟩) fun several => several ⟨0, by simp⟩, fun some => absurd rfl some,
      fun _ _ some => absurd rfl some⟩
  have answer := lowestCommonAncestor_cases filled known
  refine ⟨?_, ?_, fun _ one => (answer.resolve_left fun none => none.2 one).2, fun a m _ lowest => ?_⟩
  · refine iff_of_false (fun error => ?_) filled
    rcases answer with ⟨same, -⟩ | ⟨-, a, m, same, -⟩ <;> rw [same] at error <;> cases error
  · rcases answer with ⟨same, several⟩ | ⟨one, a, m, same, -⟩
    · exact iff_of_true same several
    · exact iff_of_false (by rw [same]; rintro ⟨⟩) fun several => several one
  · have chain (b : Place) (k : Node) (common : IsCommon forest nodes b k) (below : a <+: b) : k.label.startByte = m.label.startByte :=
      le_antisymm (lowest.latest b k common) (startByte_le_below inside below lowest.common.1 common.1)
    refine ⟨chain, fun only b k common => ?_⟩
    obtain ⟨n, listed⟩ := exists_mem_of_ne_nil _ filled
    obtain above | below := prefix_or_prefix_of_prefix (common.2 n listed) (lowest.common.2 n listed)
    · exact above
    · rw [only b k common (chain b k common below)]

def Node.since (place : Place) (startByte : Nat) (children : List Node) : Node where
  label := { (default : Label) with place, startByte }
  children

def operands : List Node := [.since [0, 1, 0] 2 [], .since [0, 1, 1] 5 []]

/-- The tree of `f(x, y)`. -/
def callTree : Node := .since [0] 0 [.since [0, 0] 0 [], .since [0, 1] 1 operands]

theorem operands_common :
    ∃ a m, lowestCommonAncestor [callTree] operands = .ok m ∧ IsLatest [callTree] operands a m ∧
      ((∀ b k, IsCommon [callTree] operands b k → k.label.startByte = m.label.startByte → b = a) →
        ∀ b k, IsCommon [callTree] operands b k → b <+: a) := by
  have lowest := lowestCommonAncestor_lowest [callTree] operands (by simp [operands, callTree, Node.since, Node.place, Forest.at?, Forest.below])
    (by decide)
  obtain ⟨a, m, answer, latest⟩ := lowest.2.2.1 (by simp [operands]) ⟨0, by simp [operands, Node.since, Node.place]⟩
  exact ⟨a, m, answer, latest, (lowest.2.2.2 a m (by simp [operands]) latest).2⟩

end Rulewright.Source
