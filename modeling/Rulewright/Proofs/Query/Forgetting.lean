import Rulewright.Query.Narrow
import Rulewright.Proofs.Query.Patterns
import Rulewright.Proofs.Runs

/-!
What is forgotten when a query is made more general. A call forgets the captured node it names and all that is reached from it, the last one
first, and gives up at a node that is not captured any more. So it succeeds exactly if all of them still are, and then forgets just these
(`generalize_forgets`).
-/

open List

namespace Rulewright.Query

open Source (Node)

def Captured (captures : List (String × Node)) (n : Node) : Prop := ∃ c ∈ captures, c.2.place = n.place

/-- The captures of other nodes. -/
def without (ns : List Node) (captures : List (String × Node)) : List (String × Node) :=
  captures.filter fun c => ns.all fun n => c.2.place != n.place

/-- Names and places tell the same captures apart. -/
def Distinct (captures : List (String × Node)) : Prop := ∀ c ∈ captures, ∀ d ∈ captures, c.1 = d.1 ↔ c.2.place = d.2.place

section Forgetting

variable {s s' : Narrowing} {n m : Node} {ns ms : List Node}
  {captures less : List (String × Node)} {name : String} {c : String × Node}

theorem forgetTree_eq (n : Node) : forgetTree n = n.reached.reverse.forM forget := by
  induction n using Node.induction with
  | step label children ih =>
    have all : forgetTrees children = (Source.reachedAll children).reverse.forM forget := by
      induction children with
      | nil => rfl
      | cons n rest below =>
        rw [forgetTrees, Source.reachedAll, below fun c inside => ih c (mem_cons_of_mem n inside)]
        split
        · rw [ih n mem_cons_self, reverse_append]
          exact forM_append.symm
        · exact bind_pure_unit
    rw [forgetTree, Node.reached, reverse_append, all]
    rfl

theorem mem_without : c ∈ without ns captures ↔ c ∈ captures ∧ ∀ n ∈ ns, c.2.place ≠ n.place := by simp [without]

theorem without_without : without ms (without ns captures) = without (ns ++ ms) captures := by
  simp [without, filter_filter, Bool.and_comm]

theorem Distinct.subset (distinct : Distinct captures) (subset : less ⊆ captures) : Distinct less :=
  fun c held d inside => distinct c (subset held) d (subset inside)

theorem captured_without (other : ∀ m ∈ ms, n.place ≠ m.place) : Captured (without ms captures) n ↔ Captured captures n := by
  constructor
  · rintro ⟨c, held, same⟩
    exact ⟨c, (mem_without.mp held).1, same⟩
  · rintro ⟨c, held, same⟩
    exact ⟨c, mem_without.mpr ⟨held, fun m inside => same ▸ other m inside⟩, same⟩

theorem forget_missing (missing : ¬Captured s.writer.captures n) : (forget n).run s = (.error .exhausted, s) := by
  have none : captureOf n s.writer = none := by
    rw [captureOf, Option.map_eq_none_iff, find?_eq_none]
    intro c held same
    exact missing ⟨c, held, beq_iff_eq.mp same⟩
  rw [forget, run_bind_ok run_get, none]
  rfl

theorem forget_captured (distinct : Distinct s.writer.captures) (held : Captured s.writer.captures n) :
    ∃ s', (forget n).run s = (.ok (), s') ∧ s'.writer.captures = without [n] s.writer.captures := by
  obtain ⟨c, found⟩ : ∃ c, s.writer.captures.find? (fun c => c.2.place == n.place) = some c := by
    rw [← Option.isSome_iff_exists, find?_isSome]
    obtain ⟨c, inside, same⟩ := held
    exact ⟨c, inside, beq_iff_eq.mpr same⟩
  have place : c.2.place = n.place := by simpa using find?_some found
  have name : captureOf n s.writer = some c.1 := by rw [captureOf, found]; rfl
  have erased : s.writer.captures.filter (·.1 != c.1) = without [n] s.writer.captures := filter_congr fun d inside => by
    simp [bne, Bool.beq_eq_decide_eq, ← place, distinct d inside c (mem_of_find?_eq_some found)]
  rw [forget, run_bind_ok run_get, name, ← erased]
  exact ⟨_, rfl, rfl⟩

/-- Nodes are forgotten one after another, up to the first that is not captured any more. -/
theorem forM_forget (distinct : Distinct s.writer.captures) (places : (ns.map Node.place).Nodup) :
    ∃ r s' done, (ns.forM forget).run s = (r, s') ∧ done <+: ns ∧ s'.writer.captures = without done s.writer.captures ∧
      (r = .ok () ∧ done = ns ∧ (∀ n ∈ ns, Captured s.writer.captures n) ∨ r = .error .exhausted ∧ ∃ n ∈ ns, ¬Captured s.writer.captures n) := by
  induction ns generalizing s with
  | nil => exact ⟨_, s, [], rfl, nil_prefix, by simp [without], .inl ⟨rfl, rfl, by simp⟩⟩
  | cons n ns ih =>
    obtain ⟨fresh, places⟩ := nodup_cons.mp places
    by_cases held : Captured s.writer.captures n
    · obtain ⟨s', ran, left⟩ := forget_captured distinct held
      obtain ⟨r, s'', done, rest, begins, after, outcome⟩ := @ih s' (left ▸ distinct.subset (filter_subset_self _)) places
      have later (m : Node) (inside : m ∈ ns) : Captured s'.writer.captures m ↔ Captured s.writer.captures m := by
        rw [left]
        refine captured_without fun k same => ?_
        rw [mem_singleton.mp same]
        exact fun same => fresh (same ▸ mem_map_of_mem inside)
      refine ⟨r, s'', n :: done, (run_bind_ok ran).trans rest, (prefix_cons_inj n).mpr begins, by rw [after, left, without_without]; rfl, ?_⟩
      rcases outcome with ⟨fine, rfl, all⟩ | ⟨failed, m, inside, missing⟩
      · exact .inl ⟨fine, rfl, forall_mem_cons.mpr ⟨held, fun m inside => (later m inside).mp (all m inside)⟩⟩
      · exact .inr ⟨failed, m, mem_cons_of_mem n inside, fun still => missing ((later m inside).mpr still)⟩
    · exact ⟨_, s, [], run_bind_error (forget_missing held), nil_prefix, by simp [without], .inr ⟨rfl, n, mem_cons_self, held⟩⟩

theorem reached_eq (n : Node) : n.reached = n.namedChildren.flatMap Node.reached ++ [n] := by
  have all (children : List Node) : Source.reachedAll children = (children.filter Node.named).flatMap Node.reached := by
    induction children with
    | nil => rfl
    | cons n rest ih =>
      rw [Source.reachedAll, ih, filter_cons]
      split <;> rfl
  obtain ⟨label, children⟩ := n
  rw [Node.reached, all]
  rfl

theorem mem_reached : m ∈ n.reached ↔ m = n ∨ ∃ c ∈ n.namedChildren, m ∈ c.reached := by
  rw [reached_eq, mem_append, mem_flatMap, mem_singleton, or_comm]

theorem child_reached (child : m ∈ n.namedChildren) : m.reached <+ n.reached := by
  rw [reached_eq n]
  refine Sublist.trans ?_ (sublist_append_left ..)
  simpa using (singleton_sublist.mpr child).flatMap Node.reached

theorem reached_sublist (inside : m ∈ n.reached) : m.reached <+ n.reached := by
  induction n using Node.induction with
  | step label children ih =>
    rcases mem_reached.mp inside with rfl | ⟨c, child, below⟩
    · exact Sublist.refl _
    · exact (ih c (mem_of_mem_filter child) below).trans (child_reached child)

/-- Of two nodes that reach the same place one reaches the other. -/
theorem reached_nested (places : (n.reached.map Node.place).Nodup) {x y k : Node} (first : m ∈ n.reached) (second : k ∈ n.reached)
    (below : x ∈ m.reached) (other : y ∈ k.reached) (same : x.place = y.place) : m ∈ k.reached ∨ k ∈ m.reached := by
  induction n using Node.induction with
  | step label children ih =>
    rcases mem_reached.mp first with rfl | ⟨c, child, first⟩
    · exact .inr second
    rcases mem_reached.mp second with rfl | ⟨d, sibling, second⟩
    · exact .inl (mem_reached.mpr (.inr ⟨c, child, first⟩))
    have alone : c = d := by
      have apart := places
      rw [reached_eq, map_append, map_flatMap] at apart
      have symmetric : Std.Symm (Function.onFun List.Disjoint fun c : Node => c.reached.map Node.place) := ⟨fun _ _ apart => List.Disjoint.symm apart⟩
      by_contra different
      have disjoint := (nodup_flatMap.mp apart.of_append_left).2.forall child sibling different
      refine @disjoint x.place ?_ ?_
      · exact mem_map_of_mem ((reached_sublist first).subset below)
      · exact same ▸ mem_map_of_mem ((reached_sublist second).subset other)
    subst alone
    exact ih c (mem_of_mem_filter child) (places.sublist ((child_reached child).map _)) first second

theorem generalize_run (present : (name, m) ∈ s.writer.captures) (only : ∀ k, (name, k) ∈ s.writer.captures → k = m) :
    ∃ s', s'.writer.captures = s.writer.captures ∧ (generalize name).run s = (forgetTree m).run s' := by
  have found : s.writer.captures.find? (·.1 == name) = some (name, m) := by
    cases found : s.writer.captures.find? (·.1 == name) with
    | none => simpa using find?_eq_none.mp found (name, m) present
    | some c =>
      obtain rfl : c.1 = name := by simpa using find?_some found
      rw [← only c.2 (mem_of_find?_eq_some found)]
  obtain ⟨s', asked, same⟩ : ∃ s', (ask ("(:[[node_name]] :[_]) " ++ name) ("(:[[node_name]]) " ++ name)).run s = (.ok (), s') ∧
    s'.writer.captures = s.writer.captures := ⟨_, rfl, rfl⟩
  refine ⟨s', same, (run_bind_ok asked).trans ((run_bind_ok run_get).trans ?_)⟩
  rw [same, found]

end Forgetting

/-- Queries that were made more general by calls on captured nodes, one after another. -/
inductive Generalized (start : Narrowing) : List Node → Narrowing → Prop where
  | start : Generalized start [] start
  | call {ms : List Node} {s s' : Narrowing} {name : String} {m : Node} : Generalized start ms s → (name, m) ∈ s.writer.captures →
    (generalize name).run s = (.ok (), s') → Generalized start (ms ++ [m]) s'

section Generalized

variable {start s s' : Narrowing} {n m : Node} {ms : List Node} {name : String}

theorem mem_snd_number : m ∈ n.reached ↔ ∃ c ∈ number 1 n.reached, c.2 = m := by
  rw [← mem_map, map_snd_number]

theorem distinct_number (places : (n.reached.map Node.place).Nodup) : Distinct (number 1 n.reached) := by
  intro c held d inside
  obtain ⟨i, first, called⟩ := mem_number.mp held
  obtain ⟨j, second, named⟩ := mem_number.mp inside
  constructor
  · intro same
    obtain rfl : i = j := Nat.add_left_cancel (captureName_injective (called.symm.trans (same.trans named)))
    rw [Option.some.inj (first.symm.trans second)]
  · intro same
    have place : (n.reached.map Node.place)[i]? = (n.reached.map Node.place)[j]? := by simp [first, second, same]
    have bound : i < (n.reached.map Node.place).length := by
      rw [length_map]
      exact (List.getElem?_eq_some_iff.mp first).1
    rw [called, named, (getElem?_inj bound places).mp place]

theorem call_cases (places : (n.reached.map Node.place).Nodup) (thinned : s.writer.captures = without (ms.flatMap Node.reached) (number 1 n.reached))
    (chosen : ms ⊆ n.reached) (present : (name, m) ∈ s.writer.captures) :
    (∃ s', (generalize name).run s = (.ok (), s') ∧ s'.writer.captures = without m.reached s.writer.captures) ∧ (∀ k ∈ ms, k ∉ m.reached) ∨
      (∃ s' done, (generalize name).run s = (.error .exhausted, s') ∧ done <+: m.reached.reverse ∧
        s'.writer.captures = without done s.writer.captures) ∧ ∃ k ∈ ms, k ∈ m.reached := by
  have numbered : s.writer.captures ⊆ number 1 n.reached := by
    rw [thinned]
    exact filter_subset_self _
  have member {c : String × Node} (held : c ∈ s.writer.captures) : c.2 ∈ n.reached := mem_snd_number.mpr ⟨c, numbered held, rfl⟩
  have distinct := distinct_number places
  have only (k : Node) (other : (name, k) ∈ s.writer.captures) : k = m :=
    inj_on_of_nodup_map places (member other) (member present) ((distinct _ (numbered other) _ (numbered present)).mp rfl)
  obtain ⟨s', same, ran⟩ := generalize_run present only
  have sublist := reached_sublist (member present)
  obtain ⟨r, s'', done, forgot, begins, left, outcome⟩ := @forM_forget s' m.reached.reverse (same ▸ distinct.subset numbered)
    (by rw [map_reverse]; exact nodup_reverse.mpr (places.sublist (sublist.map _)))
  rw [← forgetTree_eq, ← ran] at forgot
  rw [same] at left outcome
  rcases outcome with ⟨rfl, rfl, all⟩ | ⟨rfl, x, inside, missing⟩
  · refine .inl ⟨⟨s'', forgot, by rw [left]; simp [without]⟩, fun k member inside => ?_⟩
    obtain ⟨c, held, place⟩ := all k (mem_reverse.mpr inside)
    rw [thinned] at held
    exact (mem_without.mp held).2 k (mem_flatMap.mpr ⟨k, member, mem_reached.mpr (.inl rfl)⟩) place
  · refine .inr ⟨⟨s'', done, forgot, begins, left⟩, ?_⟩
    have below := mem_reverse.mp inside
    obtain ⟨y, gone, place⟩ : ∃ y ∈ ms.flatMap Node.reached, x.place = y.place := by
      by_contra none
      rw [thinned, captured_without fun y gone place => none ⟨y, gone, place⟩] at missing
      obtain ⟨c, held, rfl⟩ := mem_snd_number.mp (sublist.subset below)
      exact missing ⟨c, held, rfl⟩
    obtain ⟨k, member', reached⟩ := mem_flatMap.mp gone
    refine ⟨k, member', (reached_nested places (member present) (chosen member') below reached place).resolve_left fun above => ?_⟩
    rw [thinned] at present
    exact (mem_without.mp present).2 m (mem_flatMap.mpr ⟨k, member', above⟩) rfl

theorem Generalized.thinned (places : (n.reached.map Node.place).Nodup) (written : start.writer.captures = number 1 n.reached)
    (run : Generalized start ms s) : s.writer.captures = without (ms.flatMap Node.reached) (number 1 n.reached) ∧ ms ⊆ n.reached := by
  induction run with
  | start => exact ⟨by simp [written, without], nil_subset _⟩
  | call _ present ran ih =>
    obtain ⟨thinned, chosen⟩ := ih
    rcases call_cases places thinned chosen present with ⟨⟨s'', done, left⟩, -⟩ | ⟨⟨s'', _, failed, -⟩, -⟩
    · cases ran.symm.trans done
      refine ⟨by rw [left, thinned, without_without, flatMap_append]; simp, append_subset.mpr ⟨chosen, ?_⟩⟩
      simpa using mem_snd_number.mpr ⟨_, (mem_without.mp (thinned ▸ present)).1, rfl⟩
    · cases ran.symm.trans failed

end Generalized

/-- After calls that all succeeded, a call on a captured node succeeds exactly if it reaches no node that was chosen before, and then
forgets the captures of all the nodes that it reaches and no others. A call that fails has forgotten some of them, from the last on. -/
theorem generalize_forgets (n m : Node) (w : Writer) (answers : List (Option String)) (ms : List Node) (s : Narrowing) (name : String)
    (places : (n.reached.map Node.place).Nodup) (written : Writer.write false [n] = .ok w)
    (run : Generalized { writer := w, answers } ms s) (present : (name, m) ∈ s.writer.captures) :
    (∃ s', (generalize name).run s = (.ok (), s') ∧ s'.writer.captures = without m.reached s.writer.captures) ∧ (∀ k ∈ ms, k ∉ m.reached) ∨
      (∃ s' done, (generalize name).run s = (.error .exhausted, s') ∧ done <+: m.reached.reverse ∧
        s'.writer.captures = without done s.writer.captures) ∧ ∃ k ∈ ms, k ∈ m.reached := by
  obtain ⟨ps, tells⟩ := Writer.write_tells written
  have numbered : w.captures = number 1 n.reached := by simpa using tells.numbered
  obtain ⟨thinned, chosen⟩ := run.thinned places numbered
  exact call_cases places thinned chosen present

def placed (place : Source.Place) (n : Node) : Node := { n with label := { n.label with place } }

def sum : Node where
  label := (placed [0] (Source.operation "a" "+" "b")).label
  children := [placed [0, 0] (Source.word "identifier" "a" true), placed [0, 1] (Source.word "identifier" "b" true)]

def sumWriter : Writer := ((Writer.write false [sum]).toOption).getD {}

theorem operands_are_forgotten : ∃ s', (generalize "@tag2n").run ((generalize "@tag1n").run { writer := sumWriter }).2 = (.ok (), s') ∧
    s'.writer.captures = [("@tag3n", sum)] := by
  have called : ("@tag1n", placed [0, 0] (Source.word "identifier" "a" true)) ∈ sumWriter.captures := mem_cons_self
  have present : ("@tag2n", placed [0, 1] (Source.word "identifier" "b" true)) ∈
    ((generalize "@tag1n").run { writer := sumWriter }).2.writer.captures := mem_cons_self
  rcases generalize_forgets sum _ sumWriter [] _ _ _ (by decide) rfl (.call .start called rfl) present with ⟨⟨s', done, left⟩, -⟩ | ⟨⟨s', _, failed, -⟩, -⟩
  · exact ⟨s', done, left⟩
  · cases failed

/-- An operand was forgotten before, so the sum cannot be any more. -/
theorem sum_after_operand_fails : ((generalize "@tag1n").run { writer := sumWriter }).2.writer.captures.map Prod.fst = ["@tag2n", "@tag3n"] ∧
    ((generalize "@tag3n").run ((generalize "@tag1n").run { writer := sumWriter }).2).1 = .error .exhausted := ⟨rfl, rfl⟩

end Rulewright.Query
