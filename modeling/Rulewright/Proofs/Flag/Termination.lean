import Rulewright.Proofs.Flag.Measure
import Rulewright.Proofs.Flag.Settled

/-!
The rounds come to an end. From the second one on, a round that changes something takes weight from the flat tree
in its middle, so twice as many rounds as the script has nodes are enough (`cleanup_reaches_fixed_point`).
-/

open List

namespace Rulewright.Flag

@[mk_iff]
structure Parsed (tree : Value) : Prop where
  root : kind? tree = some "Program"
  regular : Thoroughly Regular tree

instance (tree : Value) : Decidable (Parsed tree) := decidable_of_iff _ (parsed_iff ..).symm

section Script

variable {P : Value → Prop} {p : Pass} {keepComments changed : Bool} {tree w flat : Value}

theorem Parsed.heavy (parsed : Parsed tree) : 2 ≤ weight tree := by
  obtain ⟨es, rfl⟩ := dict_of_kind? parsed.root
  have heavy : cost (.dict es) = 2 := by
    rw [cost, hasKind, parsed.root]
    rfl
  rw [weight_dict]
  omega

theorem Edits.run_parsed (edits : Edits p) (parsed : Parsed tree) (run : p.run tree = { value := w, changed }) :
    Parsed w ∧ weight w ≤ weight tree ∧
      (Flat P false tree → weight tree ≤ weight w → Everywhere (Silent p) false tree ∧ w = tree ∧ changed = false) := by
  obtain ⟨remains, root, fine, left⟩ := edits.run_remains frames_regular parsed.regular parsed.root (by rw [run])
  rw [run] at remains root left
  have lighter := remains.lighter fun _ _ _ => Remnant.lighter
  refine ⟨⟨root, remains.regular parsed.regular w mem_cons_self⟩, by simpa using lighter, fun flat still => ?_⟩
  rw [walkAt_visited (isVisited_node (isNode_of_kind? parsed.root))] at fine left
  have silent := edits.walk_silent parsed.regular flat fine (by rw [show (walkNode p false tree).value.left?.toList = _ from left]; simpa using still)
  obtain ⟨es, rfl⟩ := dict_of_kind? parsed.root
  rw [run_silent edits.lenient silent] at run
  cases run
  exact ⟨silent, rfl, rfl⟩

theorem flattenBlocks_remains (root : kind? tree = some "Program") (flattened : flattenBlocks keepComments tree = .done flat) :
    Remains Remnant .only tree [flat] ∧ kind? flat = some "Program" := by
  obtain ⟨es, rfl⟩ := dict_of_kind? root
  obtain ⟨done, -⟩ := flattenBlocks_done flattened
  have fine : (flattenNode keepComments false (.dict es)).fault = none := by rw [done]; rfl
  have kind := flattenNode_kind? fine
  rw [done] at kind
  exact ⟨flattenNode_remains (isVisited_node (isNode_of_kind? root)) fine (by rw [Spot.loose, done]; exact .stays), kind.trans root⟩

theorem flattenBlocks_parsed (parsed : Parsed tree) (flattened : flattenBlocks keepComments tree = .done flat) :
    Parsed flat ∧ weight flat ≤ weight tree ∧ Flat (fun _ => True) false flat := by
  obtain ⟨remains, root⟩ := flattenBlocks_remains parsed.root flattened
  obtain ⟨es, rfl⟩ := dict_of_kind? parsed.root
  obtain ⟨isFlat, -⟩ := flattenBlocks_flat (P := fun _ => True) (fun _ _ _ _ => trivial) (fun _ _ _ _ => trivial)
    (fun _ _ _ => trivial) flattened
  exact ⟨⟨root, remains.regular parsed.regular _ mem_cons_self⟩, by simpa using remains.lighter fun _ _ _ => Remnant.lighter, isFlat⟩

theorem replaceChecks_parsed {s : Settings} (parsed : Parsed tree) (clean : (replaceChecks s tree).fault = none) :
    Parsed (replaceChecks s tree).value ∧ weight (replaceChecks s tree).value ≤ weight tree := by
  obtain ⟨ms, listed, run⟩ := replaceChecks_finished clean
  rw [run] at clean ⊢
  generalize made : (checks s ms).run tree = o at clean ⊢
  obtain ⟨w, changed, fault⟩ := o
  cases clean
  obtain ⟨parsed, lighter, -⟩ := (checks_edits listed).run_parsed (P := fun _ => True) parsed made
  exact ⟨parsed, lighter⟩

theorem Flat.flattenBlocks (isFlat : Flat P false tree) (root : kind? tree = some "Program") (keepComments : Bool) :
    Flag.flattenBlocks keepComments tree = .done tree := by
  obtain ⟨es, rfl⟩ := dict_of_kind? root
  rw [Flag.flattenBlocks, isFlat.flattenNode]
  simp [Outcome.done, hasKind, root]

end Script

def middle (keepComments : Bool) (tree : Value) : Value :=
  (reduceConditionals keepComments (simplifyOperators tree).value).value

section Rounds

variable {keepComments : Bool} {tree : Value} {o o' : Outcome Value} {r : Rounds} {limit : Nat}

theorem middle_eq {simple reduced flat : Value} {first second : Bool}
    (simplified : simplifyOperators tree = { value := simple, changed := first })
    (taken : conditionals.run simple = { value := reduced, changed := second })
    (flattened : flattenBlocks keepComments reduced = .done flat) : middle keepComments tree = flat := by
  rw [middle, simplified, reduceConditionals, taken]
  simp only [Outcome.andThen]
  rw [flattened]
  rfl

theorem RoundRun.lighter (run : RoundRun keepComments tree o) (parsed : Parsed tree) :
    Parsed o.value ∧ Parsed (middle keepComments tree) ∧ weight o.value ≤ weight (middle keepComments tree) ∧
      weight (middle keepComments tree) ≤ weight tree := by
  obtain ⟨simplified, taken, flattened, written, cleared, returned, called⟩ := run
  rw [middle_eq simplified taken flattened]
  obtain ⟨parsed, simple, -⟩ := operators_edits.run_parsed (P := fun _ => True) parsed simplified
  obtain ⟨parsed, reduced, -⟩ := conditionals_edits.run_parsed (P := fun _ => True) parsed taken
  obtain ⟨parsedFlat, flat, -⟩ := flattenBlocks_parsed parsed flattened
  obtain ⟨parsed, pruned, -⟩ := (variablePass_edits _ _).run_parsed (P := fun _ => True) parsedFlat cleared
  obtain ⟨parsed, final, -⟩ := (functions_edits _ _).run_parsed (P := fun _ => True) parsed called
  exact ⟨parsed, parsedFlat, Nat.le_trans final pruned, by omega⟩

theorem RoundRun.descends (first : RoundRun keepComments tree o) (second : RoundRun keepComments o.value o')
    (parsed : Parsed tree) (changed : o'.changed) :
    weight (middle keepComments o.value) < weight (middle keepComments tree) := by
  by_contra heavy
  obtain ⟨parsedNext, parsedFlat, -, -⟩ := first.lighter parsed
  obtain ⟨simplified, taken, flattened, written, cleared, returned, called⟩ := first
  obtain ⟨simplified', taken', flattened', written', cleared', returned', called'⟩ := second
  rw [middle_eq simplified taken flattened] at heavy parsedFlat
  rw [middle_eq simplified' taken' flattened'] at heavy
  obtain ⟨parsed, -, -⟩ := operators_edits.run_parsed (P := fun _ => True) parsed simplified
  obtain ⟨parsed, -, -⟩ := conditionals_edits.run_parsed (P := fun _ => True) parsed taken
  obtain ⟨-, -, flat⟩ := flattenBlocks_parsed parsed flattened
  -- no pass between the two middles takes weight, so each leaves the tree as it is
  obtain ⟨parsedPruned, pruned, keepsPruned⟩ := (variablePass_edits _ _).run_parsed parsedFlat cleared
  obtain ⟨-, final, keepsFinal⟩ := (functions_edits _ _).run_parsed parsedPruned called
  obtain ⟨parsedSimple, simple, keepsSimple⟩ := operators_edits.run_parsed parsedNext simplified'
  obtain ⟨parsedReduced, reduced, keepsReduced⟩ := conditionals_edits.run_parsed parsedSimple taken'
  obtain ⟨-, flatter, -⟩ := flattenBlocks_parsed parsedReduced flattened'
  dsimp only at simple keepsSimple
  obtain ⟨-, rfl, rfl⟩ := keepsPruned flat (by omega)
  obtain ⟨-, rfl, rfl⟩ := keepsFinal flat (by omega)
  obtain ⟨-, rfl, rfl⟩ := keepsSimple flat (by omega)
  obtain ⟨-, rfl, rfl⟩ := keepsReduced flat (by omega)
  rw [flat.flattenBlocks parsedFlat.root] at flattened'
  cases flattened'
  -- the analyses see the same tree again, so they find what they found before
  rw [written] at written'
  cases written'
  rw [cleared] at cleared'
  cases cleared'
  rw [returned] at returned'
  cases returned'
  rw [called] at called'
  cases called'
  cases changed

theorem rounds_end (run : RoundRun keepComments tree o) (parsed : Parsed tree) (reached : r.tree = o.value)
    (reported : r.changed = o.changed) (enough : weight (middle keepComments tree) ≤ limit + 1)
    (finished : (rounds keepComments limit r).fault = none) :
    (rounds keepComments limit r).changed = false ∧
      (rounds keepComments limit r).count + 1 ≤ r.count + weight (middle keepComments tree) := by
  induction limit generalizing r tree o with
  | zero =>
    obtain ⟨-, parsedMiddle, -, -⟩ := run.lighter parsed
    have heavy := parsedMiddle.heavy
    omega
  | succ limit ih =>
    obtain ⟨parsedNext, parsedMiddle, -, -⟩ := run.lighter parsed
    have heavy := parsedMiddle.heavy
    cases goes : r.changed with
    | false =>
      rw [rounds_stop goes]
      exact ⟨goes, by omega⟩
    | true =>
      have clean := rounds_finished finished
      have counted : (r.changed && r.fault.isNone) := by simp [goes, clean]
      rw [rounds_succ, if_pos counted] at finished ⊢
      have fine : (round keepComments r.tree).fault = none := rounds_finished finished
      have next := round_run fine
      have count : (r.next keepComments).count = r.count + 1 := by simp [Rounds.next, fine]
      cases again : (round keepComments r.tree).changed with
      | false =>
        have stops := again
        rw [rounds_stop stops]
        exact ⟨stops, by omega⟩
      | true =>
        rw [reached] at next again
        have less := run.descends next parsed again
        obtain ⟨settled, bounded⟩ := ih next parsedNext (by rw [Rounds.next, reached]) (by rw [Rounds.next, reached])
          (by omega) finished
        exact ⟨settled, by omega⟩

end Rounds

/-- The rounds end without a change after at most twice as many rounds as the script has nodes, whatever the flag, the
methods and the behaviour, if the limit allows that many and no pass stops. -/
theorem cleanup_reaches_fixed_point (s : Settings) (tree : Value) (parsed : Parsed tree)
    (enough : 2 * size tree ≤ roundLimit s.maxSteps) (finished : (cleanupRounds s tree).fault = none) :
    (cleanupRounds s tree).changed = false ∧ (cleanupRounds s tree).count ≤ 2 * size tree := by
  have bound := weight_le_size tree
  have heavy := parsed.heavy
  unfold cleanupRounds at finished ⊢
  dsimp only at finished ⊢
  have clean : (replaceChecks s tree).fault = none := rounds_finished finished
  obtain ⟨parsedStart, lighter⟩ := replaceChecks_parsed parsed clean
  obtain ⟨limit, allowed⟩ : ∃ limit, roundLimit s.maxSteps = limit + 1 := ⟨roundLimit s.maxSteps - 1, by omega⟩
  rw [allowed, rounds_succ, if_pos (by simp [clean])] at finished ⊢
  have fine : (round s.keepComments (replaceChecks s tree).value).fault = none := rounds_finished finished
  have run := round_run fine
  obtain ⟨-, -, -, middleLighter⟩ := run.lighter parsedStart
  obtain ⟨settled, bounded⟩ := rounds_end run parsedStart rfl rfl (by omega) finished
  simp only [Rounds.next, fine, Option.isNone_none, if_true] at settled bounded ⊢
  exact ⟨settled, by omega⟩

theorem chainedScript_reaches_fixed_point :
    Parsed chainedScript ∧ (cleanupRounds (settingsFor false (some (.int 40))) chainedScript).fault = none ∧
      (cleanupRounds (settingsFor false (some (.int 40))) chainedScript).changed = false ∧
      (cleanupRounds (settingsFor false (some (.int 40))) chainedScript).count ≤ 2 * size chainedScript :=
  ⟨by decide +kernel, by decide +kernel,
    cleanup_reaches_fixed_point (settingsFor false (some (.int 40))) chainedScript (by decide +kernel) (by decide +kernel)
      (by decide +kernel)⟩

end Rulewright.Flag
