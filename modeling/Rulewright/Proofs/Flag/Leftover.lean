import Rulewright.Proofs.Flag.Endings
import Rulewright.Proofs.Flag.Inheritance
import Rulewright.Proofs.Flag.Settled

/-!
Checks of the flag that a clean-up leaves behind. Checks are replaced once, before the rounds; a call that only becomes a
check when a conditional or an operator in it gives way is never replaced. Where every call that may become a check is one
from the start, none is left (`no_check_left`).
-/

open List

namespace Rulewright.Flag

def method? (s : Settings) (callee : Value) : Option Value :=
  if hasKind callee "Identifier" then (methods s.properties).toOption.bind (·.get? (callee.field? "name")) else none

def designates (s : Settings) (v : Value) : Bool :=
  match kind? v with
  | some "Identifier" => sameName (v.field? "name") s.flag
  | some "Literal" => ((v.field? "value").bind Value.str?).isSome && sameName (v.field? "value") s.flag
  | _ => false

def argumentOf? (call method : Value) : Option Value :=
  member? (part call "arguments") (displayOr (method.field? "argumentIndex"))

def isCheck (s : Settings) (v : Value) : Bool :=
  hasKind v "CallExpression" && (method? s (part v "callee")).any fun m => (argumentOf? v m).any (designates s)

def mayCall (s : Settings) (v : Value) : List Value := (endings (part v "callee")).filterMap (method? s)

def mayCheck (s : Settings) (v : Value) : Bool :=
  hasKind v "CallExpression" && (mayCall s v).any fun m => (argumentOf? v m).any fun a => (endings a).any (designates s)

def argumentsLast (v : Value) : Bool := (part v "arguments").list?.any (·.all fun a => (endings a).all isLasting)

@[mk_iff]
structure Overt (s : Settings) (v : Value) : Prop where
  lasting : kind? v = some "CallExpression" → mayCall s v ≠ [] → argumentsLast v = true
  overt : mayCheck s v = true → isCheck s v = true

instance (s : Settings) (v : Value) : Decidable (Overt s v) := decidable_of_iff _ (overt_iff ..).symm

structure Clear (s : Settings) (v : Value) : Prop extends Overt s v where
  clear : isCheck s v = false

section Calls

variable {s : Settings} {v w m : Value} {xs ys : List Value} {key : String}

theorem Fades.method? (fades : Fades v w) (found : method? s w = some m) : Flag.method? s v = some m := by
  unfold Flag.method? at found ⊢
  split at found
  · rename_i known
    obtain ⟨before, name⟩ := fades.name (by simpa [hasKind] using known)
    rw [if_pos (by simp [hasKind, before]), ← name]
    exact found
  · cases found

theorem Fades.designates (fades : Fades v w) (found : designates s w) : Flag.designates s v := by
  unfold Flag.designates at found
  split at found
  · rename_i known
    obtain ⟨before, name⟩ := fades.name known
    rw [name] at found
    simpa [Flag.designates, before] using found
  · rename_i known
    obtain ⟨text, found⟩ := Bool.and_eq_true_iff.mp found
    obtain ⟨before, value⟩ := fades.text known text
    rw [value] at text found
    simp [Flag.designates, before, text, found]
  · cases found

theorem designates_kind (found : designates s v) : endings v = [v] ∧ isFlag s.flag v := by
  unfold designates at found
  split at found
  · rename_i known
    exact ⟨(endings_of_kind known (by decide)).2, by simpa [isFlag, known] using found⟩
  · rename_i known
    exact ⟨(endings_of_kind known (by decide)).2, by simpa [isFlag, known] using (Bool.and_eq_true_iff.mp found).2⟩
  · cases found

theorem method?_kind (found : method? s v = some m) :
    endings v = [v] ∧ ∃ ms, methods s.properties = .ok ms ∧ ms.get? (v.field? "name") = some m := by
  unfold method? at found
  split at found
  · rename_i known
    obtain ⟨ms, listed, named⟩ := Option.bind_eq_some_iff.mp found
    cases configured : methods s.properties with
    | error => rw [configured] at listed; cases listed
    | ok ms' =>
      rw [configured] at listed
      cases listed
      exact ⟨(endings_of_kind (by simpa [hasKind] using known) (by decide)).2, ms, rfl, named⟩
  · cases found

theorem isCheck_cases (checks : isCheck s v) :
    kind? v = some "CallExpression" ∧ ∃ m a, method? s (part v "callee") = some m ∧ argumentOf? v m = some a ∧
      designates s a := by
  obtain ⟨call, calls⟩ := Bool.and_eq_true_iff.mp checks
  obtain ⟨m, method, reads⟩ := (Option.any_eq_true _ _).mp calls
  obtain ⟨a, argument, found⟩ := (Option.any_eq_true _ _).mp reads
  exact ⟨by simpa [hasKind] using call, m, a, method, argument, found⟩

theorem isCheck_mayCheck (checks : isCheck s v) : mayCheck s v := by
  obtain ⟨call, m, a, method, argument, found⟩ := isCheck_cases checks
  have calls : m ∈ mayCall s v := by
    rw [mayCall, (method?_kind method).1]
    exact mem_filterMap.mpr ⟨_, mem_cons_self, method⟩
  refine Bool.and_eq_true_iff.mpr ⟨by simp [hasKind, call], any_eq_true.mpr ⟨m, calls, ?_⟩⟩
  rw [argument, Option.any_some, (designates_kind found).1]
  simp [found]

theorem isCheck_checked? (checks : isCheck s v) :
    kind? v = some "CallExpression" ∧ (checked? s v).isSome := by
  obtain ⟨call, m, a, method, argument, found⟩ := isCheck_cases checks
  obtain ⟨-, ms, listed, named⟩ := method?_kind method
  refine ⟨call, ?_⟩
  rw [argumentOf?] at argument
  simp [checked?, listed, Except.toOption, named, argument, (designates_kind found).2]

theorem member?_forall₂ {R : Value → Value → Prop} (refl : ∀ v, R v v) (related : List.Forall₂ R xs ys)
    (read : member? (.list ys) key = some w) : ∃ v, member? (.list xs) key = some v ∧ R v w := by
  have length := related.length_eq
  unfold member? ownMember? at read ⊢
  dsimp only at read ⊢
  split at read
  · rename_i counts
    rw [if_pos counts, length]
    exact ⟨w, read, refl w⟩
  · rename_i other
    rw [if_neg other]
    cases index : indexKey? key with
    | none =>
      rw [index] at read
      exact ⟨w, read, refl w⟩
    | some i =>
      rw [index, Option.bind_some] at read
      rw [Option.bind_some]
      cases found : ys[i]? with
      | none =>
        have beyond : xs[i]? = none := getElem?_eq_none (by rw [length]; exact getElem?_eq_none_iff.mp found)
        rw [found] at read
        rw [beyond]
        exact ⟨w, read, refl w⟩
      | some y =>
        rw [found] at read
        cases read
        obtain ⟨bound, rfl⟩ := List.getElem?_eq_some_iff.mp found
        have held := related.get (by rw [length]; exact bound) bound
        exact ⟨_, by rw [getElem?_eq_getElem (by rw [length]; exact bound)]; rfl, held⟩

structure Passed (v w : Value) : Prop where
  callee : Yields Fades (part v "callee") (part w "callee")
  arguments : argumentsLast v = true → ∃ xs ys, part v "arguments" = .list xs ∧ part w "arguments" = .list ys ∧
    List.Forall₂ (Yields Fades) xs ys

theorem Passed.mayCall (passed : Passed v w) (found : m ∈ mayCall s w) : m ∈ Flag.mayCall s v := by
  obtain ⟨x, ends, method⟩ := mem_filterMap.mp found
  obtain ⟨y, before, fades⟩ := passed.callee x ends
  exact mem_filterMap.mpr ⟨y, before, fades.method? method⟩

theorem argumentsLast_iff : argumentsLast v ↔
    ∃ xs, part v "arguments" = .list xs ∧ ∀ a ∈ xs, ∀ x ∈ endings a, isLasting x := by
  rw [argumentsLast, list?_any]
  simp only [all_eq_true]

theorem Clear.passed (clear : Clear s v) (kind : kind? w = kind? v) (passed : kind? v = some "CallExpression" → Passed v w) :
    Clear s w := by
  have quiet : mayCheck s v = false := by
    cases may : mayCheck s v with
    | false => rfl
    | true => rw [← clear.clear, clear.overt may]
  have related (call : kind? w = some "CallExpression") {m : Value} (calls : m ∈ mayCall s w) :
      m ∈ mayCall s v ∧ argumentsLast v ∧ ∃ xs ys, part v "arguments" = .list xs ∧ part w "arguments" = .list ys ∧
        List.Forall₂ (Yields Fades) xs ys := by
    rw [kind] at call
    have before := (passed call).mayCall calls
    have lasting := clear.lasting call (ne_nil_of_mem before)
    exact ⟨before, lasting, (passed call).arguments lasting⟩
  have none : mayCheck s w = false := by
    cases may : mayCheck s w with
    | false => rfl
    | true =>
      obtain ⟨call, calls⟩ := Bool.and_eq_true_iff.mp may
      obtain ⟨m, found, reads⟩ := any_eq_true.mp calls
      obtain ⟨a, argument, designated⟩ := (Option.any_eq_true _ _).mp reads
      obtain ⟨x, ends, names⟩ := any_eq_true.mp designated
      obtain ⟨before, -, xs, ys, held, left, arguments⟩ := related (by simpa [hasKind] using call) found
      rw [argumentOf?, left] at argument
      obtain ⟨b, argumentBefore, yields⟩ := member?_forall₂ turns_fades.yields_refl arguments argument
      obtain ⟨y, endsBefore, fades⟩ := yields x ends
      rw [← quiet, mayCheck, Bool.and_eq_true_iff.mpr]
      refine ⟨by rw [hasKind, ← kind]; exact call, any_eq_true.mpr ⟨m, before, ?_⟩⟩
      rw [argumentOf?, held, argumentBefore]
      exact any_eq_true.mpr ⟨y, endsBefore, fades.designates names⟩
  refine ⟨⟨fun call calls => ?_, fun may => ?_⟩, ?_⟩
  · obtain ⟨m, found⟩ := exists_mem_of_ne_nil _ calls
    obtain ⟨-, lasting, xs, ys, held, left, arguments⟩ := related call found
    obtain ⟨zs, whole, last⟩ := argumentsLast_iff.mp lasting
    rw [held] at whole
    cases whole
    have lastAfter := forall₂_forall_mem (Q := fun _ => True) (S := fun a => ∀ x ∈ endings a, isLasting x) arguments
      (by
        intro b inside a yields
        refine ⟨fun _ => trivial, fun _ x ends => ?_⟩
        obtain ⟨y, before, fades⟩ := yields x ends
        exact fades.lasts (last b inside y before))
    exact argumentsLast_iff.mpr ⟨ys, left, lastAfter.mpr fun _ _ => trivial⟩
  · rw [none] at may
    cases may
  · cases checks : isCheck s w with
    | false => rfl
    | true => rw [← none, isCheck_mayCheck checks]

theorem clear_other (other : kind? v ≠ some "CallExpression") : Clear s v := by
  have none : hasKind v "CallExpression" = false := by simpa [hasKind] using other
  refine ⟨⟨fun call => (other call).elim, fun may => ?_⟩, by rw [isCheck, none, Bool.false_and]⟩
  rw [mayCheck, none] at may
  cases may

theorem clear_of_bare (same : bare v = bare w) (clear : Clear s v) : Clear s w := by
  refine clear.passed (kind?_of_bare same).symm fun _ => ⟨?_, fun lasting => ?_⟩
  · rw [part_of_bare same (by decide)]
    exact turns_fades.yields_refl _
  · obtain ⟨xs, held, -⟩ := argumentsLast_iff.mp lasting
    exact ⟨xs, xs, held, by rw [← part_of_bare same (by decide), held], forall₂_same.mpr fun a _ => turns_fades.yields_refl a⟩

end Calls

section Passes

variable {s : Settings} {P : Value → Prop} {p : Pass} {loose keepComments : Bool} {v w tree : Value} {es es' : Entries}
  {items left : List Value} {out : Spot → Value → List Value}

theorem forall₂_of_bare {f : Value → Value} (kept : left.map bare = (items.map f).map bare)
    (yields : ∀ a ∈ items, Yields Fades a (f a)) : List.Forall₂ (Yields Fades) items left := by
  induction items generalizing left with
  | nil =>
    cases left with
    | nil => exact .nil
    | cons => cases kept
  | cons a rest ih =>
    cases left with
    | nil => cases kept
    | cons b others =>
      obtain ⟨same, tail⟩ := List.cons.inj kept
      exact .cons (turns_fades.yields_trans (yields a mem_cons_self) (turns_fades.yields_of_bare same.symm))
        (ih tail fun a inside => yields a (mem_cons_of_mem _ inside))

theorem lasting_left {ys : List Value} (few : ys.length ≤ 1) (yields : Yields Fades v (ys.head?.getD .null))
    (lasting : ∀ y ∈ endings v, isLasting y) : ys = [ys.head?.getD .null] := by
  cases ys with
  | nil =>
    obtain ⟨y, before, fades⟩ := yields .null mem_cons_self
    exact absurd (fades.lasts (lasting y before)) (by decide)
  | cons y rest =>
    obtain rfl : rest = [] := by simpa using few
    rfl

theorem Settles.arguments (settles : Settles Fades out loose es) (leaves : Leaves bare out loose es es')
    (plain : isScope (visitedKind loose es) = false) (lasting : argumentsLast (.dict es)) :
    ∃ xs ys, part (.dict es) "arguments" = .list xs ∧ part (.dict es') "arguments" = .list ys ∧ List.Forall₂ (Yields Fades) xs ys := by
  obtain ⟨xs, held, last⟩ := argumentsLast_iff.mp lasting
  rcases leaves.read "arguments" with ⟨missing, -⟩ | ⟨v, w, before, after, field⟩
  · simp [field?_of_list held] at missing
  · cases (field?_of_list held).symm.trans before
    have found : part (.dict es') "arguments" = w := by rw [part, after, Option.getD_some]
    cases field with
    | only _ node => cases node
    | row child kept =>
      have each (a : Value) (inside : a ∈ xs) :=
        settles _ a ⟨_, _, mem_of_part held, by decide, .row child inside⟩ (.inr plain)
      refine ⟨xs, _, held, found, forall₂_of_bare ?_ fun a inside => (each a inside).2⟩
      rw [kept, flatMap_congr fun a inside => lasting_left (each a inside).1 (each a inside).2 (last a inside)]
      exact congrArg (map bare) (flatMap_pure_eq_map _ xs)
    | same => exact ⟨xs, xs, held, found, forall₂_same.mpr fun a _ => turns_fades.yields_refl a⟩
    | aside body => exact absurd body (by decide)

theorem Clear.step (clear : Clear s (.dict es)) (known : (childFields (visitedKind loose es)).isSome)
    (settles : Settles Fades out loose es) (leaves : Leaves bare out loose es es') : Clear s (.dict es') := by
  refine clear.passed (leaves.kind? known) fun call => ⟨?_, settles.arguments leaves ?_⟩
  · exact turns_fades.part leaves (fun x child => (settles .only x child (.inl rfl)).2) (by decide)
  · rw [visitedKind_of_kind? call (by decide)]
    rfl

theorem Turning.hands (turning : Turning Fades p)
    (enters : ∀ v, P v → (p.enter v).fault = none → (p.enter v).action = .keep → Clear s v) : Hands p P (Clear s) where
  blind := fun _ _ => clear_of_bare
  made := fun _ _ known _ => clear_other (by rw [known]; decide)
  stays := by
    intro loose es es' here complete fine kept after _ _ _
    have self := everywhere_self complete
    exact (enters _ here fine kept).step (by rw [self.visitedKind]; exact self.known) (turning.settles turns_fades complete after) after.leaves

theorem flattenNode_clear (clear : Clear s (.dict es)) (finished : (flattenNode keepComments loose (.dict es)).fault = none) :
    Clear s (flattenNode keepComments loose (.dict es)).value := by
  obtain ⟨fields, f, rfl, flat⟩ := flattenNode_finished finished
  exact clear_of_bare flat.alike.symm (clear.step (by rw [flat.known]; rfl) (flat.settles turns_fades) flat.leaves)

end Passes

structure Cleared (s : Settings) (tree : Value) : Prop where
  keeps : Keeps anything tree
  clear : Everywhere (Clear s) false tree

section Cleanup

variable {s : Settings} {p : Pass} {keepComments changed : Bool} {tree w flat : Value} {o : Outcome Value}

theorem Cleared.pass (cleared : Cleared s tree) (turning : Turning Fades p) (tame : Tame anything p)
    (run : p.run tree = { value := w, changed }) : Cleared s w := by
  have finished : (p.run tree).fault = none := by rw [run]
  have keeps := tame.keeps_anything cleared.keeps finished
  have clear := (turning.hands fun _ clear _ _ => clear).run tame cleared.keeps cleared.clear finished
  rw [run] at keeps clear
  exact ⟨keeps, clear⟩

theorem Cleared.flatten (cleared : Cleared s tree) (flattened : flattenBlocks keepComments tree = .done flat) :
    Cleared s flat := by
  have keeps := flattenBlocks_keeps cleared.keeps (by rw [flattened]; rfl)
  rw [flattened] at keeps
  obtain ⟨es, rfl⟩ := dict_of_kind? cleared.keeps.root
  obtain ⟨clear, -⟩ := flattenBlocks_flat (fun _ _ => clear_of_bare) (fun _ _ => flattenNode_clear) cleared.clear flattened
  exact ⟨keeps, clear.everywhere⟩

theorem Cleared.round (cleared : Cleared s tree) (run : RoundRun keepComments tree o) : Cleared s o.value := by
  obtain ⟨simplified, taken, flattened, written, cleared', returned, called⟩ := run
  have simple := cleared.pass (operators_edits.turning turns_fades) operators_edits.tame simplified
  have reduced := simple.pass (conditionals_edits.turning turns_fades) conditionals_edits.tame taken
  have flat := reduced.flatten flattened
  have pruned := flat.pass ((variablePass_edits _ _).turning turns_fades) (variablePass_edits _ _).tame cleared'
  exact pruned.pass ((functions_edits _ _).turning turns_fades) (functions_edits _ _).tame called

theorem replaceChecks_cleared (keeps : Keeps anything tree) (overt : Everywhere (Overt s) false tree)
    (finished : (replaceChecks s tree).fault = none) : Cleared s (replaceChecks s tree).value := by
  obtain ⟨ms, listed, run⟩ := replaceChecks_finished finished
  rw [run] at finished ⊢
  have enters (v : Value) (overt : Overt s v) (fine : ((checks s ms).enter v).fault = none)
      (kept : ((checks s ms).enter v).action = .keep) : Clear s v := by
    refine ⟨overt, ?_⟩
    cases check : isCheck s v with
    | false => rfl
    | true =>
      obtain ⟨call, some⟩ := isCheck_checked? check
      obtain ⟨reply, answered, same⟩ := ofExcept_finished fine
      rcases replaceCheck_cases listed _ answered with ⟨b, -, -, put⟩ | ⟨none, -⟩
      · rw [show (checks s ms).enter v = _ from same, put] at kept
        cases kept
      · rw [none call] at some
        cases some
  exact ⟨(checks_edits listed).tame.keeps_anything keeps finished,
    (((checks_edits listed).turning turns_fades).hands enters).run (checks_edits listed).tame keeps overt finished⟩

end Cleanup

/-- No call of a configured method on the flag is left in a script in which every call that may become one, when the
conditionals and operators in its callee and its arguments give way, is one from the start. -/
theorem no_check_left (s : Settings) (tree : Value) (keeps : Keeps anything tree) (overt : Everywhere (Overt s) false tree)
    (finished : (cleanup s tree).fault = none) : Everywhere (fun v => isCheck s v = false) false (cleanup s tree).tree := by
  obtain ⟨checked, clean, unmarked, value⟩ := cleanup_finished finished
  have start := replaceChecks_cleared keeps overt checked
  have settled : Cleared s (cleanupRounds s tree).tree :=
    rounds_invariant (fun _ _ cleared run => cleared.round run) start clean
  rw [value]
  generalize made : unmark.run (cleanupRounds s tree).tree = o at unmarked ⊢
  obtain ⟨w, changed, fault⟩ := o
  cases unmarked
  exact (settled.pass unmark_turning unmark_tame made).clear.imp fun v clear => clear.clear

def call (callee : Value) (arguments : List Value) : Value :=
  .dict [("type", .str "CallExpression"), ("callee", callee), ("arguments", .list arguments)]

def choice (test consequent alternate : Value) : Value :=
  .dict [("type", .str "ConditionalExpression"), ("test", test), ("consequent", consequent), ("alternate", alternate)]

def openScript : Value :=
  script [conditional flagCheck (statement (call (identifier "h") [choice flagCheck (identifier "flag") (identifier "x")])) .null,
    statement (call (identifier "isTreated") [identifier "other"])]

theorem openScript_no_check_left :
    Keeps anything openScript ∧ (cleanup (settingsFor true (some (.int 4))) openScript).fault = none ∧
      Everywhere (fun v => isCheck (settingsFor true (some (.int 4))) v = false) false
        (cleanup (settingsFor true (some (.int 4))) openScript).tree :=
  ⟨by decide, by decide +kernel,
    no_check_left (settingsFor true (some (.int 4))) openScript (by decide) (everywhere_of_parent none (by decide +kernel))
      (by decide +kernel)⟩

def LeavesCheck (s : Settings) (tree : Value) : Prop :=
  (cleanup s tree).fault = none ∧ (cleanup s tree).changed = false ∧
    (nodesOf (cleanup s tree).tree).any (fun n => isCheck s n.2) = true

instance (s : Settings) (tree : Value) : Decidable (LeavesCheck s tree) :=
  inferInstanceAs (Decidable ((cleanup s tree).fault = none ∧ (cleanup s tree).changed = false ∧
    (nodesOf (cleanup s tree).tree).any (fun n => isCheck s n.2) = true))

/-- A call whose callee, or whose argument, is only settled by the flag becomes a check in the rounds, and stays one. -/
theorem hidden_checks_left :
    LeavesCheck (settingsFor true (some (.int 4)))
        (script [statement (call (choice flagCheck (identifier "isTreated") (identifier "g")) [identifier "flag"])]) ∧
      LeavesCheck (settingsFor true (some (.int 4)))
        (script [statement (call (identifier "isTreated") [choice flagCheck (identifier "flag") (identifier "x")])]) := by
  decide +kernel

end Rulewright.Flag
