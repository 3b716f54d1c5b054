import Rulewright.Proofs.Flag.Descent
import Rulewright.Proofs.Flag.Meaning

/-!
Passes that keep what a script does. A pass that answers each node by something with the same meaning
(`Faithful`) keeps the meaning of every test and statement it walks, and of the whole script
(`Faithful.run`).
-/

open List

namespace Rulewright.Flag

variable {v : Value} {s : Settings} {fresh : Bool}

def Free (s : Settings) (v : Value) : Prop := (kind? v = some "CallExpression" → checked? s v = none) ∧ isMark v = false

instance (s : Settings) (v : Value) : Decidable (Free s v) :=
  inferInstanceAs (Decidable ((kind? v = some "CallExpression" → checked? s v = none) ∧ isMark v = false))

structure Sealed (s : Settings) (v : Value) : Prop where
  node : isNode v = true
  free : Everywhere (Free s) false v

inductive IsTest (s : Settings) (fresh : Bool) : Value → Prop where
  | check {v : Value} {b : Bool} (allowed : fresh = true) (made : shape s v = .check b) : IsTest s fresh v
  | atom {v : Value} (made : shape s v = .atom) (inside : Sealed s v) : IsTest s fresh v
  | made {v : Value} (settled : ∀ b, shape s v ≠ .check b) (compound : shape s v ≠ .atom)
      (parts : ∀ w ∈ (shape s v).parts, IsTest s fresh w) : IsTest s fresh v

inductive IsStatement (s : Settings) (fresh : Bool) : Value → Prop where
  | nothing : IsStatement s fresh .null
  | scope {v : Value} {kind : String} {items : List Value} (known : kind? v = some kind) (scope : isScope kind = true)
      (body : part v "body" = .list items) (inside : ∀ w ∈ items, IsStatement s fresh w) : IsStatement s fresh v
  | branch {v : Value} (known : kind? v = some "IfStatement") (test : IsTest s fresh (part v "test"))
      (consequent : IsStatement s fresh (part v "consequent")) (alternate : IsStatement s fresh (part v "alternate")) :
      IsStatement s fresh v
  | plain {v : Value} {kind : String} (known : kind? v = some kind) (single : isScope kind = false)
      (other : kind ≠ "IfStatement") (inside : Sealed s v) : IsStatement s fresh v

inductive IsScript (s : Settings) (fresh : Bool) (tree : Value) : Prop where
  | mk {kind : String} {items : List Value} (known : kind? tree = some kind) (scope : isScope kind = true)
      (body : part tree "body" = .list items) (inside : ∀ w ∈ items, IsStatement s fresh w) : IsScript s fresh tree

theorem shape_kind? (made : shape s v ≠ .atom) : ∃ kind, kind? v = some kind := by
  cases known : kind? v with
  | none => exact (made (by rw [shape, known])).elim
  | some kind => exact ⟨kind, rfl⟩

theorem IsTest.isNode (test : IsTest s fresh v) : isNode v := by
  cases test with
  | check _ made =>
    obtain ⟨kind, known⟩ := shape_kind? (v := v) (by rw [made]; rintro ⟨⟩)
    exact isNode_of_kind? known
  | atom _ inside => exact inside.node
  | made _ compound _ =>
    obtain ⟨kind, known⟩ := shape_kind? compound
    exact isNode_of_kind? known

theorem IsStatement.single (statement : IsStatement s fresh v) (items : List Value) : v ≠ .list items := by
  rintro rfl
  cases statement with
  | scope known => cases known
  | branch known => cases known
  | plain known => cases known

theorem IsStatement.script {kind : String} (statement : IsStatement s fresh v) (known : kind? v = some kind)
    (scope : isScope kind) : IsScript s fresh v := by
  cases statement with
  | nothing => cases known
  | scope known scope body inside => exact ⟨known, scope, body, inside⟩
  | branch branch =>
    obtain rfl : kind = "IfStatement" := by simpa [known] using branch
    cases scope
  | plain plain single =>
    rw [known] at plain
    cases plain
    simp [scope] at single

def Reply.slot (r : Reply) : Value :=
  match r.action with
  | .keep => r.node
  | .put v => v
  | .drop _ => .null

@[simp] theorem Reply.slot_keep (v : Value) : (Reply.keep v).slot = v := rfl

theorem slot_ofAction (r : Reply) : r.outcome.slot = r.slot := by
  cases action : r.action <;> simp [Walked.slot, Walked.left?, Fate.ofAction, Reply.slot, action]

structure Faithful (s : Settings) (fresh : Bool) (p : Pass) : Prop where
  nothing : p.CarriesNothing
  quiet {v : Value} : Everywhere (Free s) false v → Everywhere (Quiet p) false v
  check {v : Value} {b : Bool} : fresh = true → shape s v = .check b → (p.enter v).fault = none →
    (p.enter v).action = .put (literal b)
  enter {v : Value} : (∀ b, shape s v ≠ .check b) → (p.enter v).fault = none → p.enter v = .keep v
  test {v : Value} : (∀ b, shape s v ≠ .check b) → shape s v ≠ .atom → (p.leave v).fault = none →
    (∀ valuation, holds s valuation (p.leave v).slot = holds s valuation v) ∧
      (p.Retains → IsTest s false v → IsTest s false (p.leave v).slot)
  scope {v : Value} {kind : String} : kind? v = some kind → isScope kind = true → (p.leave v).fault = none →
    p.leave v = .keep v
  branch {v : Value} : kind? v = some "IfStatement" → (p.leave v).fault = none →
    (∀ valuation, trace s valuation (p.leave v).slot = trace s valuation v) ∧ (p.Retains → p.leave v = .keep v)

section Walk

variable {s : Settings} {fresh loose : Bool} {p : Pass} {g : Value → Value} {es es' : Entries} {key kind : String} {items : List Value}

theorem After.frame (after : After p g loose es es') (known : Flag.kind? (.dict es) = some kind) :
    SameFrame (.dict es) (.dict es') := by
  refine ⟨by rw [after.kind? known, known], fun kind key known other different _ => ?_⟩
  exact after.leaves.field? (isChild_visitedKind known other loose) different

theorem Faithful.walk_sealed (faithful : Faithful s fresh p) (inside : Sealed s v) (finished : (walkItem p false v).fault = none) : (walkItem p false v).value.slot = v := by
  rw [walkItem_node inside.node] at finished ⊢
  rw [walkNode_quiet (faithful.quiet inside.free) finished]
  rfl

theorem shape_literal (s : Settings) (b : Bool) : shape s (literal b) = .known b := by
  cases b <;> rfl

theorem isTest_literal (s : Settings) (b : Bool) : IsTest s false (literal b) :=
  .made (by simp [shape_literal]) (by simp [shape_literal]) (by simp [shape_literal, Shape.parts])

theorem holds_literal (s : Settings) (valuation : Value → Bool) (b : Bool) : holds s valuation (literal b) = b := by
  rw [holds_eq]
  rfl

theorem Faithful.walk_node (faithful : Faithful s fresh p) (settled : ∀ b, shape s (.dict es) ≠ .check b)
    (finished : (walkNode p false (.dict es)).fault = none) (view : p.Retains ∨ Coarse g) :
    ∃ es', After p g false es es' ∧ (p.leave (.dict es')).fault = none ∧ (walkNode p false (.dict es)).value = (p.leave (.dict es')).outcome := by
  obtain ⟨fault, decided | ⟨-, -, es', walked⟩⟩ :=
    walkNode_cases (view.imp_right fun coarse => ⟨coarse, Or.inl faithful.nothing⟩) finished
  · exact (decided.1 (by rw [faithful.enter settled fault]; rfl)).elim
  · exact ⟨es', walked⟩

theorem Faithful.walk_test (faithful : Faithful s fresh p) (test : IsTest s fresh v) (finished : (walkItem p false v).fault = none) :
    (∀ valuation, holds s valuation (walkItem p false v).value.slot = holds s valuation v) ∧
      (p.Retains → IsTest s false (walkItem p false v).value.slot) := by
  induction test with
  | @check v b allowed made =>
    have node := (IsTest.check allowed made).isNode
    obtain ⟨es, rfl⟩ := isNode_dict node
    rw [walkItem_node node] at finished ⊢
    obtain ⟨fault, walked⟩ := walkNode_cases (Or.inr ⟨coarse_bare, Or.inl faithful.nothing⟩) finished
    have action := faithful.check allowed made fault
    rcases walked with ⟨-, value⟩ | ⟨keep, -⟩
    · rw [value, slot_ofAction, Reply.slot, action]
      exact ⟨fun valuation => by rw [holds_literal, holds_eq, made]; rfl, fun _ => isTest_literal s b⟩
    · simp [action] at keep
  | atom made inside =>
    rw [faithful.walk_sealed inside finished]
    exact ⟨fun _ => rfl, fun _ => .atom made inside⟩
  | @made v settled compound parts ih =>
    obtain ⟨kind, known⟩ := shape_kind? compound
    obtain ⟨es, rfl⟩ := dict_of_kind? known
    rw [walkItem_node (isNode_of_kind? known)] at finished ⊢
    obtain ⟨es', after, left, value⟩ := faithful.walk_node settled finished (Or.inr coarse_bare)
    -- what is walked is made up alike, from parts that mean the same
    have related : (shape s (.dict es)).Rel (fun v w =>
        (∀ valuation, holds s valuation w = holds s valuation v) ∧ (p.Retains → IsTest s false w)) (shape s (.dict es')) := by
      refine (after.frame known).shape (fun call => ?_) fun kind known named key _ child inside => ?_
      · unfold shape at settled compound
        rw [call] at settled compound
        cases checked : checked? s (.dict es) <;> simp_all
      · have single : ∀ items, part (.dict es) key ≠ .list items := by
          intro items listed
          have := (parts _ inside).isNode
          simp [listed, isNode, Value.field?] at this
        obtain ⟨clean, slot⟩ := after.part (by rwa [visitedKind_of_kind? known named]) single
        rw [slot]
        exact ih _ inside clean
    have settled' : ∀ b, shape s (.dict es') ≠ .check b := fun b made => by
      rw [made] at related
      cases before : shape s (.dict es) <;> rw [before] at related <;> first | exact related | exact settled _ before
    have compound' : shape s (.dict es') ≠ .atom := fun made => by
      rw [made] at related
      cases before : shape s (.dict es) <;> rw [before] at related <;> first | exact related | exact compound before
    have same (valuation : Value → Bool) : holds s valuation (.dict es') = holds s valuation (.dict es) := by
      rw [holds_eq, holds_eq s valuation (.dict es), related.eval fun v w same => same.1 valuation]
      exact Shape.eval_compound compound _ _ _
    obtain ⟨means, tests⟩ := faithful.test settled' compound' left
    rw [value, slot_ofAction]
    refine ⟨fun valuation => (means valuation).trans (same valuation), fun retains => tests retains ?_⟩
    refine .made settled' compound' fun w inside => ?_
    obtain ⟨v, -, -, test⟩ := related.parts inside
    exact test retains

theorem shape_scope (known : kind? v = some kind) (scope : isScope kind) (b : Bool) : shape s v ≠ .check b := by
  simp only [isScope, Bool.or_eq_true, beq_iff_eq] at scope
  rcases scope with rfl | rfl <;> rw [shape, known] <;> rintro ⟨⟩

theorem shape_branch (known : kind? v = some "IfStatement") (b : Bool) : shape s v ≠ .check b := by
  rw [shape, known]
  rintro ⟨⟩

theorem scope_child (scope : isScope kind) : kind ≠ "" ∧ isChild (childFields kind) "body" := by
  simp only [isScope, Bool.or_eq_true, beq_iff_eq] at scope
  rcases scope with rfl | rfl <;> decide

theorem Faithful.walk_scope (faithful : Faithful s fresh p) (known : kind? (.dict es) = some kind)
    (scope : isScope kind) (body : part (.dict es) "body" = .list items)
    (finished : (walkNode p false (.dict es)).fault = none) :
    ∃ es' left, (walkNode p false (.dict es)).value = .untouched (.dict es') ∧ kind? (.dict es') = some kind ∧
      part (.dict es') "body" = .list left ∧ (∀ w ∈ items, (walkItem p false w).fault = none) ∧
      left.map bare = (leftOf p false items).map bare ∧ (p.Retains → left = leftOf p false items) := by
  obtain ⟨named, child⟩ := scope_child scope
  have visited : visitedKind false es = kind := visitedKind_of_kind? known named
  have read : Entries.get? "body" es = some (.list items) := by
    simp only [part, Value.field?] at body
    cases read : Entries.get? "body" es <;> simp_all
  obtain ⟨g, view, shows⟩ : ∃ g : Value → Value, (p.Retains ∨ Coarse g) ∧ ∀ xs ys : List Value, xs.map g = ys.map g →
      xs.map bare = ys.map bare ∧ (p.Retains → xs = ys) := by
    by_cases retains : p.Retains
    · exact ⟨id, Or.inl retains, fun xs ys same => by simp_all⟩
    · exact ⟨bare, Or.inr coarse_bare, fun xs ys same => ⟨same, fun h => (retains h).elim⟩⟩
  obtain ⟨es', after, left, value⟩ := faithful.walk_node (shape_scope known scope) finished view
  obtain ⟨clean, kept, found, same⟩ := after.get?_list (by rwa [visited]) read
  obtain ⟨alike, exactly⟩ := shows _ _ same
  have known' := after.kind? known
  refine ⟨es', kept, ?_, known', by simp [part, Value.field?, found], clean, alike, exactly⟩
  rw [value, faithful.scope known' scope left]
  rfl

theorem leftOf_trace {valuation : Value → Bool}
    (same : ∀ w ∈ items, trace s valuation (walkItem p false w).value.slot = trace s valuation w) :
    (leftOf p false items).flatMap (trace s valuation) = items.flatMap (trace s valuation) := by
  induction items with
  | nil => rfl
  | cons w rest ih =>
    have head := same w mem_cons_self
    have tail := ih fun w inside => same w (mem_cons_of_mem _ inside)
    simp only [leftOf, filterMap_cons, flatMap_cons] at tail ⊢
    unfold Walked.slot at head
    cases left : (walkItem p false w).value.left? with
    | none =>
      rw [left, trace_leaf rfl] at head
      rw [← head]
      exact tail
    | some v =>
      rw [left, Option.getD_some] at head
      rw [flatMap_cons, head, tail]

theorem Faithful.walk_statement (faithful : Faithful s fresh p) (statement : IsStatement s fresh v) (finished : (walkItem p false v).fault = none) :
    (∀ valuation, trace s valuation (walkItem p false v).value.slot = trace s valuation v) ∧
      (p.Retains → IsStatement s false (walkItem p false v).value.slot) := by
  induction statement with
  | nothing => exact ⟨fun _ => rfl, fun _ => .nothing⟩
  | @scope v kind items known scope body inside ih =>
    have node := isNode_of_kind? known
    obtain ⟨es, rfl⟩ := isNode_dict node
    rw [walkItem_node node] at finished ⊢
    obtain ⟨es', left, value, known', body', clean, alike, exactly⟩ := faithful.walk_scope known scope body finished
    rw [value]
    refine ⟨fun valuation => ?_, fun retains => .scope known' scope body' fun w member => ?_⟩
    · have stays : (Walked.untouched (.dict es')).slot = .dict es' := rfl
      rw [stays, trace_scope known' scope, trace_scope known scope, body, body']
      simp only [Value.list?, Option.getD_some]
      rw [flatMap_of_bare (fun _ _ same => trace_of_bare same _ _) alike]
      exact leftOf_trace fun w member => (ih w member (clean w member)).1 valuation
    · rw [exactly retains, leftOf, mem_filterMap] at member
      obtain ⟨item, element, left⟩ := member
      have kept := (ih item element (clean item element)).2 retains
      rwa [Walked.slot, left] at kept
  | @branch v known test consequent alternate consequentIh alternateIh =>
    have node := isNode_of_kind? known
    obtain ⟨es, rfl⟩ := isNode_dict node
    rw [walkItem_node node] at finished ⊢
    obtain ⟨es', after, left, value⟩ := faithful.walk_node (shape_branch known) finished (Or.inr coarse_bare)
    have visited : visitedKind false es = "IfStatement" := visitedKind_of_kind? known (by decide)
    have testSingle : ∀ items, part (.dict es) "test" ≠ .list items := by
      intro items listed
      have := test.isNode
      simp [listed, isNode, Value.field?] at this
    obtain ⟨testClean, testSlot⟩ := after.part (by rw [visited]; decide) testSingle
    obtain ⟨consequentClean, consequentSlot⟩ := after.part (by rw [visited]; decide) consequent.single
    obtain ⟨alternateClean, alternateSlot⟩ := after.part (by rw [visited]; decide) alternate.single
    have known' := after.kind? known
    obtain ⟨means, keeps⟩ := faithful.branch known' left
    rw [value, slot_ofAction]
    refine ⟨fun valuation => ?_, fun retains => ?_⟩
    · rw [means, trace_branch known', trace_branch known, testSlot, consequentSlot, alternateSlot,
        (faithful.walk_test test testClean).1, (consequentIh consequentClean).1, (alternateIh alternateClean).1]
    · rw [keeps retains, Reply.slot_keep]
      refine .branch known' ?_ ?_ ?_
      · rw [testSlot]
        exact (faithful.walk_test test testClean).2 retains
      · rw [consequentSlot]
        exact (consequentIh consequentClean).2 retains
      · rw [alternateSlot]
        exact (alternateIh alternateClean).2 retains
  | plain known single other inside =>
    rw [faithful.walk_sealed inside finished]
    exact ⟨fun _ => rfl, fun _ => .plain known single other inside⟩

theorem Faithful.run (faithful : Faithful s fresh p) {tree : Value} (script : IsScript s fresh tree)
    (finished : (p.run tree).fault = none) :
    (∀ valuation, trace s valuation (p.run tree).value = trace s valuation tree) ∧
      (p.Retains → IsScript s false (p.run tree).value) := by
  obtain ⟨known, scope, body, inside⟩ := script
  have node := isNode_of_kind? known
  obtain ⟨es, rfl⟩ := isNode_dict node
  have walked := settleRoot_finished finished
  obtain ⟨es', left, stays, known', body', -⟩ := faithful.walk_scope known scope body walked
  have statement := IsStatement.scope known scope body inside
  obtain ⟨same, kept⟩ := faithful.walk_statement statement (by rwa [walkItem_node node])
  rw [walkItem_node node, stays] at same kept
  rw [Pass.run, settleRoot_stays (by rw [stays]; rfl), stays]
  exact ⟨same, fun retains => (kept retains).script known' scope⟩

end Walk

end Rulewright.Flag
