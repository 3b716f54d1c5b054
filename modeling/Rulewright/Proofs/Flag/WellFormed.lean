import Rulewright.Proofs.Flag.Remains

/-!
Well-formed scripts: no statement of a list is null, and neither is a child that a node must have. The
clean-up keeps a script well-formed as long as its passes leave no hole, and it keeps every firm script
well-formed.
-/

namespace Rulewright.Flag

def needed : Standard where
  fields :=
    [("IfStatement", ["consequent"]), ("ForStatement", ["body"]), ("WhileStatement", ["body"]),
      ("DoWhileStatement", ["body"]), ("LabeledStatement", ["body"]), ("ForInStatement", ["left", "body"]),
      ("ForOfStatement", ["left", "body"])]
  child _ o := !o.isNull
  statement o := !o.isNull
  children := by decide
  literals := by decide
  lists _ := by decide

abbrev WellFormed (tree : Value) : Prop := Keeps needed tree

theorem wellFormed_of_firm {tree : Value} (keeps : Keeps firm tree) : WellFormed tree := by
  refine ⟨keeps.root, keeps.complete.imp fun v complete => ⟨?_, complete.typed⟩⟩
  refine ⟨complete.known, complete.once, complete.single, fun key watched => ?_, fun key listed => ?_⟩
  · have strict :=
      fieldsIn_all (Q := fun kind key => key ∈ (firm.fields.lookup kind).getD [] ∧ key ≠ "alternate") (by decide) watched
    have fits := firm_child_iff.mp (complete.fields key strict.1)
    rw [if_neg strict.2] at fits
    simpa [needed, outline] using fits.1
  · obtain ⟨items, held, statements⟩ := list?_any.mp (complete.statements key listed)
    refine list?_any.mpr ⟨items, held, List.all_eq_true.mpr fun w inside => ?_⟩
    simpa [needed, outline] using (firm_statement_iff.mp (List.all_eq_true.mp statements w inside)).1

inductive Chain : Value → List (Pass × Value) → Value → Prop where
  | stop (tree : Value) : Chain tree [] tree
  | pass {p : Pass} {tree final : Value} {steps : List (Pass × Value)} (tame : ∀ std, Tame std p)
      (finished : (p.run tree).fault = none) (rest : Chain (p.run tree).value steps final) :
      Chain tree ((p, tree) :: steps) final
  | flatten {keepComments : Bool} {tree final : Value} {steps : List (Pass × Value)}
      (finished : (flattenBlocks keepComments tree).fault = none)
      (rest : Chain (flattenBlocks keepComments tree).value steps final) : Chain tree steps final

section Chain

variable {std : Standard} {tree middle final : Value} {first second steps : List (Pass × Value)}

theorem Chain.append (before : Chain tree first middle) (after : Chain middle second final) :
    Chain tree (first ++ second) final := by
  induction before with
  | stop => exact after
  | pass tame finished _ ih => exact .pass tame finished (ih after)
  | flatten finished _ ih => exact .flatten finished (ih after)

theorem Chain.keeps_iff (chain : Chain tree steps final) (keeps : Keeps std tree) :
    ((∀ step ∈ steps, Keeps std (step.1.run step.2).value) ↔ ∀ step ∈ steps, ¬Hole std step.1 false step.2) ∧
      ((∀ step ∈ steps, ¬Hole std step.1 false step.2) → Keeps std final) := by
  induction chain with
  | stop => exact ⟨by simp, fun _ => keeps⟩
  | pass tame finished _ ih =>
    have step := (tame std).run_iff keeps finished
    simp only [List.forall_mem_cons, step]
    refine ⟨and_congr_right fun filled => (ih (step.mpr filled)).1, ?_⟩
    rintro ⟨filled, others⟩
    exact (ih (step.mpr filled)).2 others
  | flatten finished _ ih => exact ih (flattenBlocks_keeps keeps finished)

theorem Chain.firm (chain : Chain tree steps final) (keeps : Keeps Flag.firm tree) : Keeps Flag.firm final := by
  induction chain with
  | stop => exact keeps
  | pass tame finished _ ih => exact ih ((tame _).run_firm keeps finished)
  | flatten finished _ ih => exact ih (flattenBlocks_keeps keeps finished)

end Chain

def passOn {α : Type} (analysis : Except Fault α) (p : α → Pass) (tree : Value) : List (Pass × Value) :=
  match analysis with
  | .ok a => [(p a, tree)]
  | .error _ => []

def roundSteps (keepComments : Bool) (tree : Value) : List (Pass × Value) :=
  let simple := (simplifyOperators tree).value
  let reduced := (reduceConditionals keepComments simple).value
  let pruned := (eliminateVariables keepComments reduced).value
  (operators, tree) :: (conditionals, simple) ::
    (passOn (redundantVariables reduced) (variablePass (.ofOption keepComments)) reduced ++
      passOn (do redundantFunctions (← singleReturns pruned) pruned) (functions keepComments) pruned)

def Rounds.next (keepComments : Bool) (r : Rounds) : Rounds :=
  let o := round keepComments r.tree
  { tree := o.value
    count := if o.fault.isNone then r.count + 1 else r.count
    changed := o.changed
    fault := o.fault }

def roundsSteps (keepComments : Bool) : Nat → Rounds → List (Pass × Value)
  | 0, _ => []
  | limit + 1, r =>
    if r.changed && r.fault.isNone then roundSteps keepComments r.tree ++ roundsSteps keepComments limit (r.next keepComments)
    else []

def cleanupSteps (s : Settings) (tree : Value) : List (Pass × Value) :=
  let o := replaceChecks s tree
  passOn (methods s.properties) (checks s) tree ++
    (roundsSteps s.keepComments (roundLimit s.maxSteps) { tree := o.value, count := 0, changed := true, fault := o.fault } ++
      [(unmark, (cleanupRounds s tree).tree)])

section Cleanup

variable {keepComments : Bool} {s : Settings} {tree : Value}

theorem Chain.single {p : Pass} (tame : ∀ std, Tame std p) (finished : (p.run tree).fault = none) :
    Chain tree [(p, tree)] (p.run tree).value :=
  .pass tame finished (.stop _)

theorem withTable_chain {analysis : Value → Except Fault Table} {p : Table → Pass} (tame : ∀ t std, Tame std (p t))
    (finished : (withTable analysis (fun t => (p t).run) tree).fault = none) :
    Chain tree (passOn (analysis tree) p tree) (withTable analysis (fun t => (p t).run) tree).value := by
  unfold withTable at finished ⊢
  cases answer : analysis tree with
  | error fault => simp [answer, Outcome.stop] at finished
  | ok t =>
    simp only [answer] at finished ⊢
    exact .single (tame t) finished

theorem round_chain (finished : (round keepComments tree).fault = none) :
    Chain tree (roundSteps keepComments tree) (round keepComments tree).value := by
  unfold round at finished ⊢
  obtain ⟨first, functions, value⟩ := andThen_finished finished
  obtain ⟨second, cleared, pruned⟩ := andThen_finished first
  obtain ⟨simplified, reduced, flat⟩ := andThen_finished second
  obtain ⟨taken, flattened, whole⟩ := andThen_finished reduced
  rw [value, pruned, flat]
  rw [pruned, flat] at functions
  rw [flat] at cleared
  refine .pass (fun _ => operators_edits.tame) simplified (.pass (fun _ => conditionals_edits.tame) taken ?_)
  refine .flatten flattened ?_
  have joined : (flattenBlocks keepComments (conditionals.run (operators.run tree).value).value).value =
      (reduceConditionals keepComments (simplifyOperators tree).value).value := whole.symm
  rw [joined]
  exact (withTable_chain (fun t _ => (variablePass_edits _ t).tame) cleared).append
    (withTable_chain (fun t _ => (functions_edits keepComments t).tame) functions)

theorem rounds_succ (limit : Nat) (r : Rounds) :
    rounds keepComments (limit + 1) r =
      if r.changed && r.fault.isNone then rounds keepComments limit (r.next keepComments) else r := rfl

theorem rounds_finished {limit : Nat} {r : Rounds} (finished : (rounds keepComments limit r).fault = none) :
    r.fault = none := by
  cases limit with
  | zero => exact finished
  | succ limit =>
    rw [rounds_succ] at finished
    split at finished
    · rename_i goes
      simpa using (Bool.and_eq_true_iff.mp goes).2
    · exact finished

theorem rounds_chain (limit : Nat) (r : Rounds) (finished : (rounds keepComments limit r).fault = none) :
    Chain r.tree (roundsSteps keepComments limit r) (rounds keepComments limit r).tree := by
  induction limit generalizing r with
  | zero => exact .stop _
  | succ limit ih =>
    rw [rounds_succ] at finished ⊢
    rw [roundsSteps]
    split at finished
    · rename_i goes
      rw [if_pos goes, if_pos goes]
      have next := rounds_finished finished
      exact (round_chain next).append (ih (r.next keepComments) finished)
    · rename_i ends
      rw [if_neg ends, if_neg ends]
      exact .stop _

theorem cleanup_finished (finished : (cleanup s tree).fault = none) :
    (replaceChecks s tree).fault = none ∧ (cleanupRounds s tree).fault = none ∧
      (unmark.run (cleanupRounds s tree).tree).fault = none ∧
      (cleanup s tree).tree = (unmark.run (cleanupRounds s tree).tree).value := by
  unfold cleanup at finished ⊢
  dsimp only at finished ⊢
  split at finished
  · cases finished
  · rename_i clean
    split at finished
    · cases finished
    · rename_i unmarked
      simp only [clean, unmarked]
      exact ⟨rounds_finished clean, trivial, trivial, trivial⟩

theorem cleanup_chain (finished : (cleanup s tree).fault = none) :
    Chain tree (cleanupSteps s tree) (cleanup s tree).tree := by
  obtain ⟨checked, clean, unmarked, value⟩ := cleanup_finished finished
  obtain ⟨ms, listed, run⟩ := replaceChecks_finished checked
  rw [value]
  refine Chain.append ?_ ((rounds_chain _ _ clean).append (.single (fun _ => unmark_tame) unmarked))
  rw [run] at checked ⊢
  rw [listed]
  exact .single (fun _ => (checks_edits listed).tame) checked

end Cleanup

/-- The passes of a clean-up keep a script well-formed exactly as long as none leaves a hole, and then the
clean-up does. It keeps every firm script well-formed. -/
theorem cleanup_keeps_wellFormed (s : Settings) (tree : Value) (wellFormed : WellFormed tree)
    (finished : (cleanup s tree).fault = none) :
    ((∀ step ∈ cleanupSteps s tree, WellFormed (step.1.run step.2).value) ↔
        ∀ step ∈ cleanupSteps s tree, ¬Hole needed step.1 false step.2) ∧
      ((∀ step ∈ cleanupSteps s tree, ¬Hole needed step.1 false step.2) → WellFormed (cleanup s tree).tree) ∧
      (Keeps firm tree → WellFormed (cleanup s tree).tree) := by
  have chain := cleanup_chain finished
  obtain ⟨stepwise, whole⟩ := chain.keeps_iff wellFormed
  exact ⟨stepwise, whole, fun keeps => wellFormed_of_firm (chain.firm keeps)⟩

def chainedScript : Value :=
  script [conditional (identifier "c") (statement (identifier "f"))
    (conditional flagCheck (statement (identifier "g")) .null)]

theorem chainedScript_stays_wellFormed :
    WellFormed chainedScript ∧ (cleanup (settingsFor false (some (.int 2))) chainedScript).fault = none ∧
      WellFormed (cleanup (settingsFor false (some (.int 2))) chainedScript).tree :=
  ⟨by decide, by decide +kernel,
    (cleanup_keeps_wellFormed (settingsFor false (some (.int 2))) chainedScript (by decide) (by decide +kernel)).2.2
      (by decide)⟩

def nestedScript : Value :=
  script [conditional (identifier "c") (conditional flagCheck (statement (identifier "f")) .null) .null]

/-- The inner conditional goes, and the outer one is left without its branch. -/
theorem nestedScript_loses_branch :
    WellFormed nestedScript ∧ (cleanup (settingsFor false (some (.int 2))) nestedScript).fault = none ∧
      ¬WellFormed (cleanup (settingsFor false (some (.int 2))) nestedScript).tree := by
  decide +kernel

end Rulewright.Flag
