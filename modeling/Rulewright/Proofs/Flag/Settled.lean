import Rulewright.Proofs.Flag.Flatness
import Rulewright.Proofs.Flag.Meaning
import Rulewright.Proofs.Flag.Silence
import Rulewright.Proofs.Flag.WellFormed

/-!
A round that reports no change has reached a tree that further rounds leave alone: nothing but the
flattening has changed it, a flat tree is not flattened further, and flattening makes no operator and no
conditional reducible. Main statement: `settled_rounds_stay_settled`.
-/

namespace Rulewright.Flag

variable {o : Outcome Value}

section Marks

variable {loose : Bool} {es : Entries} {v w : Value} {keepComments : Bool} {f : Flattening} {kind key : String}
  {fields : List String}

theorem ofExcept_keep {result : Except Fault Reply} : Reply.ofExcept v result = .keep v ↔ result = .ok (.keep v) := by
  cases result with
  | ok r => simp [Reply.ofExcept]
  | error fault => simp [Reply.ofExcept, Reply.stop, Reply.keep]

def Stuck (x : Option Value) : Prop := isMarked x = .ok false ∨ isMarked x = .ok true ∧ truth? x = none

theorem silent_operators_iff :
    Silent operators v ↔
      (kind? v = some "LogicalExpression" →
        isMarked (v.field? "left") = .ok false ∧ isMarked (v.field? "right") = .ok false) ∧
      (kind? v = some "UnaryExpression" → v.field? "operator" = some (.str "!") → Stuck (v.field? "argument")) := by
  have unfolded : Silent operators v ↔ reduceOperator v = .ok (.keep v) := by
    simp [Silent, operators, ofExcept_keep]
  rw [unfolded]
  unfold reduceOperator
  simp only [hasKind, Bool.and_eq_true, beq_iff_eq, pure, Except.pure, bind, Except.bind]
  split
  · rename_i logical
    simp only [logical, Option.some.injEq, String.reduceEq, false_implies, and_true, forall_const]
    cases left : isMarked (v.field? "left") with
    | error fault => simp
    | ok marked =>
      cases marked with
      | true =>
        cases reduceLogical (v.field? "left") (v.field? "right") (v.field? "operator") <;> simp [Reply.put, Reply.keep]
      | false =>
        cases right : isMarked (v.field? "right") with
        | error fault => simp
        | ok marked =>
          cases marked with
          | true =>
            cases reduceLogical (v.field? "right") (v.field? "left") (v.field? "operator") <;> simp [Reply.put, Reply.keep]
          | false => simp
  · rename_i other
    simp only [other, false_implies, true_and]
    split
    · rename_i negation
      simp only [negation.1, negation.2, forall_const, Stuck]
      cases isMarked (v.field? "argument") with
      | error fault => simp
      | ok marked =>
        cases marked with
        | false => simp
        | true => cases truth? (v.field? "argument") <;> simp [Reply.put, Reply.keep]
    · rename_i other
      simp only [true_iff]
      exact fun unary operator => (other ⟨unary, operator⟩).elim

theorem silent_conditionals_iff :
    Silent conditionals v ↔
      (kind? v = some "IfStatement" ∨ kind? v = some "ConditionalExpression" → Stuck (v.field? "test")) := by
  have unfolded : Silent conditionals v ↔ reduceConditional v = .ok (.keep v) := by
    simp [Silent, conditionals, ofExcept_keep]
  have taken (branch : String) : takeBranch branch v ≠ .keep v := by
    unfold takeBranch
    split
    · simp [Reply.keep]
    · dsimp only
      split <;> simp [Reply.put, Reply.keep]
  rw [unfolded]
  unfold reduceConditional
  simp only [hasKind, Bool.or_eq_true, beq_iff_eq, pure, Except.pure, bind, Except.bind]
  split
  · rename_i conditional
    simp only [conditional, forall_const, Stuck]
    cases isMarked (v.field? "test") with
    | error fault => simp
    | ok marked =>
      cases marked with
      | false => simp
      | true =>
        cases truth? (v.field? "test") with
        | none => simp
        | some b =>
          cases b with
          | true => simpa using taken "consequent"
          | false => 
            have drops : Reply.drop v .nothing ≠ .keep v := by simp [Reply.drop, Reply.keep]
            simp only [if_true]
            split <;> simp [drops, taken]
  · rename_i other
    simp [other]

def SameMark (x y : Option Value) : Prop :=
  isMarked y = isMarked x ∧ (isMarked x = .ok true → truth? y = truth? x)

structure SameMarks (v w : Value) : Prop where
  kind : kind? w = kind? v
  operator : w.field? "operator" = v.field? "operator"
  marks : ∀ key ∈ ["left", "right", "argument", "test"], SameMark (v.field? key) (w.field? key)

theorem SameMarks.stuck (same : SameMarks v w) (listed : key ∈ ["left", "right", "argument", "test"])
    (stuck : Stuck (v.field? key)) : Stuck (w.field? key) := by
  obtain ⟨alike, truth⟩ := same.marks key listed
  rw [Stuck, alike]
  refine stuck.imp id fun ⟨marked, nothing⟩ => ⟨marked, ?_⟩
  rw [truth marked, nothing]

theorem SameMarks.operators (same : SameMarks v w) (silent : Silent operators v) : Silent operators w := by
  rw [silent_operators_iff, same.kind, same.operator, (same.marks "left" (by decide)).1, (same.marks "right" (by decide)).1]
  obtain ⟨logical, unary⟩ := silent_operators_iff.mp silent
  exact ⟨logical, fun known negation => same.stuck (by decide) (unary known negation)⟩

theorem SameMarks.conditionals (same : SameMarks v w) (silent : Silent conditionals v) : Silent conditionals w := by
  rw [silent_conditionals_iff, same.kind]
  exact fun conditional => same.stuck (by decide) (silent_conditionals_iff.mp silent conditional)

theorem sameMarks_of_bare (same : bare v = bare w) : SameMarks v w := by
  refine ⟨(kind?_of_bare same).symm, (field?_of_bare same (by decide)).symm, fun key listed => ?_⟩
  have other : key ≠ "comments" := by
    rintro rfl
    simp at listed
  rw [field?_of_bare same other]
  exact ⟨rfl, fun _ => rfl⟩

theorem kind?_of_isNode (node : isNode v) : ∃ kind, kind? v = some kind := by
  unfold isNode at node
  split at node
  · rename_i kind read
    exact ⟨kind, by rw [kind?, read]; rfl⟩
  · cases node

theorem SameFrame.sameMark (frame : SameFrame v w) (present : isNode v) : SameMark (some v) (some w) := by
  have node : isNode w := by
    obtain ⟨kind, known⟩ := kind?_of_isNode present
    exact isNode_of_kind? (frame.kind.trans known)
  obtain ⟨es, rfl⟩ := isNode_dict present
  obtain ⟨es', rfl⟩ := isNode_dict node
  exact ⟨congrArg Except.ok frame.isMark, fun marked => frame.truth? (isMark_kind? (Except.ok.inj marked))⟩

theorem flattenNode_sameMarks (finished : (flattenNode keepComments loose (.dict es)).fault = none) :
    SameMarks (.dict es) (flattenNode keepComments loose (.dict es)).value := by
  obtain ⟨fields, f, -, flat⟩ := flattenNode_finished finished
  refine ⟨flattenNode_kind? finished, flat.field? (childFields_contains flat.known (by decide) (by decide)) (by decide), fun key listed => ?_⟩
  have other : key ≠ "comments" := by
    rintro rfl
    simp at listed
  rw [flat.reads other]
  cases held : (Value.dict es).field? key with
  | none => exact ⟨rfl, fun _ => rfl⟩
  | some v =>
    exact flatField_induction (P := fun v w => SameMark (some v) (some w)) (flat.clean _ (Entries.mem_of_get? held)) ⟨rfl, fun _ => rfl⟩
      (fun node finished => (flattenNode_frame finished).sameMark node) (by rintro items rfl _; exact ⟨rfl, fun _ => rfl⟩)

def Reduced (v : Value) : Prop := Silent operators v ∧ Silent conditionals v

theorem SameMarks.reduced (same : SameMarks v w) (reduced : Reduced v) : Reduced w :=
  ⟨same.operators reduced.1, same.conditionals reduced.2⟩

end Marks

inductive RoundRun (keepComments : Bool) (tree : Value) : Outcome Value → Prop where
  | intro {simple reduced flat pruned final : Value} {vs fs : Table} {first second third fourth : Bool}
      (simplified : simplifyOperators tree = { value := simple, changed := first })
      (taken : conditionals.run simple = { value := reduced, changed := second })
      (flattened : flattenBlocks keepComments reduced = .done flat)
      (written : redundantVariables flat = .ok vs)
      (cleared : pruneVariables keepComments vs flat = { value := pruned, changed := third })
      (returned : (do redundantFunctions (← singleReturns pruned) pruned) = .ok fs)
      (called : pruneFunctions keepComments fs pruned = { value := final, changed := fourth }) :
      RoundRun keepComments tree { value := final, changed := first || second || third || fourth }

structure Settled (keepComments : Bool) (tree : Value) : Prop where
  flat : Flat Reduced false tree
  root : hasKind tree "BlockStatement" = false
  cleared : eliminateVariables keepComments tree = .done tree
  called : eliminateFunctions keepComments tree = .done tree

section Rounds

variable {keepComments changed : Bool} {tree v flat w : Value} {es : Entries} {p : Pass} {r : Rounds} {P : Value → Prop} {limit : Nat}

theorem andThen_cases {r : Outcome Value} {next : Value → Outcome Value} (same : o.andThen next = r) (finished : r.fault = none) :
    ∃ middle first second, o = { value := middle, changed := first } ∧
      next middle = { value := r.value, changed := second } ∧ r.changed = (first || second) := by
  subst same
  obtain ⟨clean, after, value⟩ := andThen_finished finished
  obtain ⟨middle, first, fault⟩ := o
  cases clean
  refine ⟨middle, first, (next middle).changed, rfl, ?_, rfl⟩
  rw [value]
  generalize next middle = n at after ⊢
  obtain ⟨final, second, fault⟩ := n
  cases after
  rfl

@[simp] theorem done_andThen (v : Value) (next : Value → Outcome Value) : (Outcome.done v).andThen next = next v := rfl

theorem withTable_cases {analysis : Value → Except Fault Table} {pass : Table → Value → Outcome Value} {r : Outcome Value}
    (same : withTable analysis pass tree = r) (finished : r.fault = none) :
    ∃ t, analysis tree = .ok t ∧ pass t tree = r := by
  subst same
  unfold withTable at finished ⊢
  cases answer : analysis tree with
  | error fault => simp [answer, Outcome.stop] at finished
  | ok t => exact ⟨t, rfl, rfl⟩

theorem flattenNode_changed (keepComments loose : Bool) (v : Value) : (flattenNode keepComments loose v).changed = false := by
  cases v with
  | dict es =>
    rw [flattenNode]
    split
    · rfl
    · unfold finishNode
      dsimp only
      split <;> rfl
  | _ => rfl

theorem flattenBlocks_changed (keepComments : Bool) (tree : Value) : (flattenBlocks keepComments tree).changed = false := by
  unfold flattenBlocks
  split
  · dsimp only
    split
    · rfl
    · exact flattenNode_changed keepComments false _
  · split <;> rfl

theorem round_run (finished : (round keepComments tree).fault = none) :
    RoundRun keepComments tree (round keepComments tree) := by
  generalize made : round keepComments tree = r at finished ⊢
  obtain ⟨final, changed, fault⟩ := r
  cases finished
  obtain ⟨pruned, three, fourth, untilPruned, functions, rfl⟩ := andThen_cases made rfl
  obtain ⟨flat, two, third, untilFlat, cleared, rfl⟩ := andThen_cases untilPruned rfl
  obtain ⟨simple, first, branches, simplified, fromSimple, rfl⟩ := andThen_cases untilFlat rfl
  obtain ⟨reduced, second, flattening, taken, flattened, rfl⟩ := andThen_cases fromSimple rfl
  obtain ⟨vs, written, cleared⟩ := withTable_cases cleared rfl
  obtain ⟨fs, returned, called⟩ := withTable_cases functions rfl
  have unreported : flattening = false := by
    have silent := flattenBlocks_changed keepComments reduced
    rwa [flattened] at silent
  subst unreported
  rw [Bool.or_false]
  exact .intro simplified taken flattened written cleared returned called

theorem Settled.round (settled : Settled keepComments (.dict es)) :
    Flag.round keepComments (.dict es) = .done (.dict es) := by
  have reduced := settled.flat.everywhere
  have operators : simplifyOperators (.dict es) = .done (.dict es) :=
    run_silent rfl (reduced.imp fun _ here => here.1)
  have conditionals :=
    run_silent rfl (reduced.imp fun _ here => here.2)
  have flatten : flattenBlocks keepComments (.dict es) = .done (.dict es) := by
    rw [flattenBlocks, settled.flat.flattenNode]
    simp [Outcome.done, settled.root]
  rw [Flag.round, operators, done_andThen, reduceConditionals, conditionals, done_andThen, flatten, done_andThen,
    settled.cleared, done_andThen, settled.called]

theorem flattenBlocks_done (flattened : flattenBlocks keepComments (.dict es) = .done flat) :
    flattenNode keepComments false (.dict es) = .done flat ∧ hasKind flat "BlockStatement" = false := by
  unfold flattenBlocks at flattened
  dsimp only at flattened
  split at flattened
  · cases flattened
  · rename_i root
    rw [flattened] at root
    exact ⟨flattened, by simpa [Outcome.done] using root⟩

theorem flattenBlocks_flat (blind : ∀ v w, bare v = bare w → P v → P w)
    (kept : ∀ loose es, P (.dict es) → (flattenNode keepComments loose (.dict es)).fault = none →
      P (flattenNode keepComments loose (.dict es)).value)
    (everywhere : Everywhere P false (.dict es)) (flattened : flattenBlocks keepComments (.dict es) = .done flat) :
    Flat P false flat ∧ (∃ es', flat = .dict es') ∧ kind? flat = kind? (.dict es) ∧
      hasKind flat "BlockStatement" = false := by
  obtain ⟨done, root⟩ := flattenBlocks_done flattened
  have finished : (flattenNode keepComments false (.dict es)).fault = none := by rw [done]; rfl
  have value : (flattenNode keepComments false (.dict es)).value = flat := by rw [done]; rfl
  rw [← value] at root ⊢
  exact ⟨flattenNode_flat blind kept everywhere finished, flattenNode_dict finished, flattenNode_kind? finished, root⟩

theorem Edits.run_same (edits : Edits p) (run : p.run (.dict es) = { value := w, changed := false }) :
    w = .dict es ∧ Everywhere (Silent p) false (.dict es) := by
  have silent := edits.run_unchanged (by rw [run]) (by rw [run])
  rw [run_silent edits.lenient silent] at run
  exact ⟨congrArg Outcome.value run.symm, silent⟩

theorem RoundRun.settled (run : RoundRun keepComments (.dict es) o) (unchanged : o.changed = false) :
    (∃ es', o.value = .dict es') ∧ Settled keepComments o.value := by
  obtain ⟨simplified, taken, flattened, written, cleared, returned, called⟩ := run
  simp only [Bool.or_eq_false_iff] at unchanged
  obtain ⟨⟨⟨rfl, rfl⟩, rfl⟩, rfl⟩ := unchanged
  -- every pass but the flattening left the tree as it was
  obtain ⟨rfl, operators⟩ := operators_edits.run_same simplified
  obtain ⟨rfl, conditionals⟩ := conditionals_edits.run_same taken
  obtain ⟨flat, ⟨es', rfl⟩, -, root⟩ := flattenBlocks_flat (fun _ _ same => (sameMarks_of_bare same).reduced)
    (fun _ _ reduced finished => (flattenNode_sameMarks finished).reduced reduced)
    (everywhere_and operators conditionals) flattened
  obtain ⟨rfl, -⟩ := (variablePass_edits _ _).run_same cleared
  obtain ⟨rfl, -⟩ := (functions_edits _ _).run_same called
  refine ⟨⟨es', rfl⟩, flat, root, ?_, ?_⟩
  · rw [eliminateVariables, withTable, written]
    exact cleared
  · rw [eliminateFunctions, withTable, returned]
    exact called

theorem run_scalar (lenient : p.strict = false) (leaf : ∀ es, v ≠ .dict es) (single : ∀ items, v ≠ .list items)
    (run : p.run v = { value := w, changed }) : v = w ∧ changed = false := by
  have same : p.run v = .done v := by
    cases fault : (p.enter v).fault with
    | some stopped => cases v <;> simp_all [Pass.run, Outcome.stop]
    | none => cases v <;> simp_all [Pass.run]
  rw [same] at run
  cases run
  exact ⟨rfl, rfl⟩

theorem run_list (lenient : p.strict = false) (items : List Value) : ∃ items', (p.run (.list items)).value = .list items' := by
  simp only [Pass.run, lenient, Bool.false_eq_true, if_false]
  split
  · exact ⟨items, rfl⟩
  · exact ⟨_, rfl⟩
  · rename_i single
    exact (single items rfl).elim

theorem RoundRun.scalar (run : RoundRun keepComments v o) (leaf : ∀ es, v ≠ .dict es) : o = .done v := by
  obtain ⟨simplified, taken, flattened, written, cleared, returned, called⟩ := run
  by_cases listed : ∃ items, v = .list items
  · obtain ⟨items, rfl⟩ := listed
    obtain ⟨simple, first⟩ := run_list (p := operators) rfl items
    obtain ⟨reduced, second⟩ := run_list (p := conditionals) rfl simple
    rw [show operators.run _ = simplifyOperators _ from rfl, simplified] at first
    subst first
    rw [taken] at second
    subst second
    cases flattened
  · have single (items : List Value) (whole : v = .list items) : False := listed ⟨items, whole⟩
    obtain ⟨rfl, rfl⟩ := run_scalar rfl leaf single simplified
    obtain ⟨rfl, rfl⟩ := run_scalar rfl leaf single taken
    have kept : flattenBlocks keepComments v = if truthy v then .stop v (.unknownKind "null") else .done v := by
      cases v <;> first | rfl | exact (leaf _ rfl).elim
    rw [kept] at flattened
    split at flattened
    · cases flattened
    · cases flattened
      obtain ⟨rfl, rfl⟩ := run_scalar (variablePass_edits _ _).lenient leaf single cleared
      obtain ⟨rfl, rfl⟩ := run_scalar (functions_edits _ _).lenient leaf single called
      rfl

theorem round_again (finished : (round keepComments tree).fault = none) (unchanged : (round keepComments tree).changed = false) :
    round keepComments (round keepComments tree).value = .done (round keepComments tree).value := by
  have run := round_run finished
  cases tree with
  | dict es =>
    obtain ⟨⟨es', whole⟩, settled⟩ := run.settled unchanged
    rw [whole] at settled ⊢
    exact settled.round
  | _ =>
    have same := run.scalar (by rintro _ ⟨⟩)
    rw [same]
    exact same

theorem rounds_stop (settled : r.changed = false) (limit : Nat) : rounds keepComments limit r = r := by
  cases limit with
  | zero => rfl
  | succ limit => rw [rounds_succ, if_neg (by simp [settled])]

theorem rounds_invariant
    (step : ∀ tree o, P tree → RoundRun keepComments tree o → P o.value) (start : P r.tree)
    (finished : (rounds keepComments limit r).fault = none) : P (rounds keepComments limit r).tree := by
  induction limit generalizing r with
  | zero => exact start
  | succ limit ih =>
    rw [rounds_succ] at finished ⊢
    split at finished
    · rename_i goes
      rw [if_pos goes]
      have fine := rounds_finished finished
      exact ih (step _ _ start (round_run fine)) finished
    · rename_i stops
      rw [if_neg stops]
      exact start

theorem rounds_settled (started : r.changed)
    (finished : (rounds keepComments limit r).fault = none) (settled : (rounds keepComments limit r).changed = false) :
    ∃ tree, (round keepComments tree).fault = none ∧ (round keepComments tree).changed = false ∧
      (rounds keepComments limit r).tree = (round keepComments tree).value := by
  induction limit generalizing r with
  | zero =>
    rw [rounds, started] at settled
    cases settled
  | succ limit ih =>
    have clean : r.fault = none := rounds_finished finished
    have goes : (r.changed && r.fault.isNone) := by simp [started, clean]
    rw [rounds_succ, if_pos goes] at finished settled ⊢
    cases again : (round keepComments r.tree).changed with
    | true => exact ih again finished settled
    | false =>
      have stops := again
      rw [rounds_stop stops] at finished ⊢
      exact ⟨r.tree, finished, again, rfl⟩

end Rounds

/-- Once the rounds have ended without a change, one more round leaves the tree and its comments as they are
and reports nothing. -/
theorem settled_rounds_stay_settled (s : Settings) (tree : Value) (finished : (cleanupRounds s tree).fault = none)
    (settled : (cleanupRounds s tree).changed = false) :
    round s.keepComments (cleanupRounds s tree).tree = .done (cleanupRounds s tree).tree := by
  obtain ⟨last, lastFinished, lastUnchanged, reached⟩ := rounds_settled rfl finished settled
  unfold cleanupRounds
  rw [reached]
  exact round_again lastFinished lastUnchanged

theorem chainedScript_stays_settled :
    (cleanupRounds (settingsFor false (some (.int 4))) chainedScript).fault = none ∧
      (cleanupRounds (settingsFor false (some (.int 4))) chainedScript).changed = false ∧
      round false (cleanupRounds (settingsFor false (some (.int 4))) chainedScript).tree =
        .done (cleanupRounds (settingsFor false (some (.int 4))) chainedScript).tree :=
  ⟨by decide +kernel, by decide +kernel,
    settled_rounds_stay_settled _ chainedScript (by decide +kernel) (by decide +kernel)⟩
end Rulewright.Flag
