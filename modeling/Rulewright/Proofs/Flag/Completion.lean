import Rulewright.Flag.Config
import Rulewright.Proofs.Flag.Naming
import Rulewright.Proofs.Flag.Survey

/-!
Clean-ups that finish. Over a standing script whose declared functions have names every round finishes, so a clean-up fails only at a
call of a configured method without the argument that would name the flag (`cleanup_finishes_iff`).
-/

open List Option

namespace Rulewright.Flag

structure Ready (tree : Value) : Prop where
  standing : Standing tree
  named : Everywhere Named false tree
  light : weight tree < 4294967296

structure Goes (o : Outcome Value) : Prop where
  fine : o.fault = none
  ready : Ready o.value

section Rounds

variable {p : Pass} {keepComments : Bool} {v tree : Value} {o : Outcome Value} {next : Value → Outcome Value}

theorem Edits.hands_named (edits : Edits p) : Hands p Named Named where
  blind _ _ same named := Filled.of_bare (by decide) same named
  made _ _ made _ := by
    intro key listed
    rw [fieldsIn, kindName_of_kind? made] at listed
    cases listed
  stays _ _ _ named complete _ _ after _ _ _ := Filled.step named (edits.steady complete after) after.leaves (by decide)

theorem Ready.run (ready : Ready tree) (edits : Edits p) (ran : (p.run tree).fault = none ∧ Standing (p.run tree).value) :
    Goes (p.run tree) := by
  have keeps := keeps_anything_of ready.standing.keeps
  obtain ⟨finished, standing⟩ := ran
  have lighter := edits.run_weight keeps finished
  have light := ready.light
  exact ⟨finished, standing, edits.hands_named.run edits.tame keeps ready.named finished, by omega⟩

theorem Ready.flatten (ready : Ready tree) : Goes (flattenBlocks keepComments tree) := by
  obtain ⟨finished, standing⟩ := ready.standing.flatten keepComments
  have fine := (@flattenNode_fares keepComments _ _ ready.standing.keeps.complete ready.standing.commented).1
  have whole := flattenBlocks_program ready.standing.keeps.root fine
  have lighter := flattenNode_lighter (isVisited_node (isNode_of_kind? ready.standing.keeps.root)) fine
  have light := ready.light
  refine ⟨finished, standing, ?_, by rw [whole]; omega⟩
  rw [whole]
  exact (flattenNode_flat (fun _ _ alike named => Filled.of_bare (by decide) alike named)
    (fun _ _ named fine => Filled.flatten (by decide) named fine) ready.named fine).everywhere

theorem Goes.andThen (goes : Goes o) (step : ∀ tree, Ready tree → Goes (next tree)) : Goes (o.andThen next) := by
  obtain ⟨fine, ready⟩ := step o.value goes.ready
  rw [Outcome.andThen, goes.fine]
  exact ⟨fine, ready⟩

theorem Ready.eliminateVariables (ready : Ready tree) : Goes (eliminateVariables keepComments tree) := by
  obtain ⟨t, found⟩ := ready.standing.redundantVariables
  rw [Flag.eliminateVariables, withTable, found]
  exact ready.run (variablePass_edits _ t) (ready.standing.variables _ t)

theorem Ready.eliminateFunctions (ready : Ready tree) : Goes (eliminateFunctions keepComments tree) := by
  obtain ⟨single, counted⟩ := ready.standing.singleReturns ready.named ready.light
  obtain ⟨t, found⟩ := ready.standing.redundantFunctions ready.named ready.light single
  have answer : (do redundantFunctions (← singleReturns tree) tree) = Except.ok t := by
    rw [counted]
    exact found
  rw [Flag.eliminateFunctions, withTable, answer]
  exact ready.run (functions_edits keepComments t) (ready.standing.functions ready.named keepComments t)

theorem Ready.round (ready : Ready tree) : Goes (round keepComments tree) := by
  have simplified : Goes (simplifyOperators tree) := ready.run operators_edits ready.standing.operators
  refine ((simplified.andThen fun tree ready => ?_).andThen fun tree ready => ready.eliminateVariables).andThen
    fun tree ready => ready.eliminateFunctions
  have reduced : Goes (conditionals.run tree) := ready.run conditionals_edits ready.standing.conditionals
  exact reduced.andThen fun tree ready => ready.flatten

theorem Ready.rounds (limit : Nat) {r : Rounds} (fine : r.fault = none) (ready : Ready r.tree) :
    (rounds keepComments limit r).fault = none ∧ Ready (rounds keepComments limit r).tree := by
  induction limit generalizing r with
  | zero => exact ⟨fine, ready⟩
  | succ limit ih =>
    rw [rounds_succ]
    split
    · obtain ⟨fine, ready⟩ := @Ready.round keepComments _ ready
      exact ih fine ready
    · exact ⟨fine, ready⟩

end Rounds

def IsConfigured (properties : Value) : Prop :=
  ∃ items, properties.field? "methodProperties" = some (.list items) ∧
    ∀ item ∈ items, ∀ key ∈ requiredKeys, (item.field? key).isSome = true

def called? (s : Settings) (call : Value) : Option Value := do
  let ms ← (methods s.properties).toOption
  ms.get? ((part call "callee").field? "name")

def isAnswerable (s : Settings) (v : Value) : Bool :=
  !hasKind v "CallExpression" || (called? s v).all fun method =>
    (member? (part v "arguments") (displayOr (method.field? "argumentIndex"))).any (· != .null)

def isReplaced (s : Settings) (v : Value) : Bool := hasKind v "CallExpression" && (checked? s v).isSome

section Checks

variable {s : Settings} {ms : Methods} {v : Value} {items : List Value} {properties : Value}

theorem ne_null_of_field {w : Value} {key : String} (held : v.field? key = some w) : v ≠ .null := by
  rintro rfl
  cases held

theorem mapM_methodName (named : ∀ item ∈ items, (item.field? "methodName").isSome) :
    (items.mapM fun item => do return (← read (some item) "methodName", item)) =
      (.ok (items.map fun item => (item.field? "methodName", item)) : Except Fault Methods) := by
  induction items with
  | nil => rfl
  | cons item rest ih =>
    obtain ⟨name, held⟩ := isSome_iff_exists.mp (named item mem_cons_self)
    rw [mapM_cons, ih fun other member => named other (mem_cons_of_mem _ member), read_present (ne_null_of_field held)]
    rfl

theorem IsConfigured.methods (configured : IsConfigured properties) :
    ∃ ms, methods properties = .ok ms ∧ ∀ m ∈ ms, m.1.isSome := by
  obtain ⟨items, held, complete⟩ := configured
  have named (item : Value) (inside : item ∈ items) : (item.field? "methodName").isSome :=
    complete item inside "methodName" (by decide)
  refine ⟨(items.map fun item => (item.field? "methodName", item)).reverse, ?_, fun m inside => ?_⟩
  · have listed : Flag.methods properties = (do
        let named ← items.mapM fun item => do return (← read (some item) "methodName", item)
        return named.reverse) := by
      rw [Flag.methods, read_present (ne_null_of_field held), held]
      rfl
    rw [listed, mapM_methodName named]
    rfl
  · obtain ⟨item, member, rfl⟩ := mem_map.mp (mem_reverse.mp inside)
    exact named item member

theorem get?_nameless (named : ∀ m ∈ ms, m.1.isSome) : ms.get? none = none := by
  rw [Methods.get?, find?_eq_none.mpr, map_none]
  intro m inside
  obtain ⟨name, known⟩ := isSome_iff_exists.mp (named m inside)
  rw [known]
  simp [sameName]

theorem namesFlag_answers_iff {flag argument : Option Value} : Succeeds (namesFlag flag argument) ↔ argument.any (· != .null) := by
  constructor
  · rintro ⟨b, named⟩
    obtain ⟨type, found, -⟩ := bind_cases named
    cases argument with
    | none => cases found
    | some w => cases w <;> first | rfl | cases found
  · intro given
    cases argument with
    | none => cases given
    | some w =>
      refine .bind ⟨_, read_present (by simpa using given)⟩ fun type _ => ?_
      split <;> exact succeeds_pure _

theorem argument_answers_iff (flag : Option Value) {index : Option Value} :
    Succeeds (argumentAt (v.field? "arguments") index >>= namesFlag flag) ↔
      (member? (part v "arguments") (displayOr index)).any (· != .null) := by
  by_cases present : part v "arguments" = .null
  · have missing : argumentAt (v.field? "arguments") index = .error .malformed := by
      unfold part at present
      cases read : v.field? "arguments" with
      | none => rfl
      | some w =>
        rw [read, getD_some] at present
        rw [present]
        rfl
    rw [missing, present]
    exact iff_of_false (by rintro ⟨_, ⟨⟩⟩) (by rintro ⟨⟩)
  · have found : argumentAt (v.field? "arguments") index = .ok (member? (part v "arguments") (displayOr index)) := by
      rw [field?_of_present present]
      generalize part v "arguments" = w at present
      cases w <;> first | rfl | exact (present rfl).elim
    rw [found]
    exact namesFlag_answers_iff

theorem replaceCheck_other (there : present v = .ok ()) (other : hasKind v "CallExpression" = false) :
    replaceCheck s ms v = .ok (.keep v) := by
  simp [replaceCheck, there, other, bind, Except.bind, pure, Except.pure]

theorem replaceCheck_call (listed : methods s.properties = .ok ms) (there : present v = .ok ()) (call : hasKind v "CallExpression")
    (callee : part v "callee" ≠ .null) :
    called? s v = none ∧ replaceCheck s ms v = .ok (.keep v) ∨
      ∃ method, called? s v = some method ∧
        replaceCheck s ms v = (argumentAt (v.field? "arguments") (method.field? "argumentIndex") >>= namesFlag s.flag) >>= fun b =>
          pure (if b then .put v (literal (checkValue s.behaviour (method.field? "flagType"))) else .keep v) := by
  have called : called? s v = ms.get? ((part v "callee").field? "name") := by
    rw [called?, listed]
    rfl
  rw [called]
  cases found : ms.get? ((part v "callee").field? "name") with
  | none => exact Or.inl ⟨rfl, by simp [replaceCheck, there, call, read_part callee, found, bind, Except.bind, pure, Except.pure]⟩
  | some method =>
    refine Or.inr ⟨method, rfl, ?_⟩
    simp only [replaceCheck, there, call, read_part callee, found, bind, Except.bind, if_true]
    cases argumentAt (v.field? "arguments") (method.field? "argumentIndex") with
    | error fault => rfl
    | ok argument =>
      dsimp only
      cases namesFlag s.flag argument with
      | error fault => rfl
      | ok b => cases b <;> rfl

theorem replaceCheck_answers_iff (listed : methods s.properties = .ok ms) (there : present v = .ok ())
    (callee : hasKind v "CallExpression" → part v "callee" ≠ .null) :
    Succeeds (replaceCheck s ms v) ↔ isAnswerable s v := by
  cases call : hasKind v "CallExpression" with
  | false =>
    refine iff_of_true ⟨_, replaceCheck_other there call⟩ ?_
    simp [isAnswerable, call]
  | true =>
    have shown : isAnswerable s v = (called? s v).all fun method =>
        (member? (part v "arguments") (displayOr (method.field? "argumentIndex"))).any (· != .null) := by
      simp [isAnswerable, call]
    rw [shown]
    rcases replaceCheck_call listed there call (callee call) with ⟨none, answered⟩ | ⟨method, called, unfolded⟩
    · rw [none]
      exact iff_of_true ⟨_, answered⟩ rfl
    · rw [called, all_some, ← argument_answers_iff s.flag, unfolded]
      refine ⟨?_, fun answers => answers.bind fun _ _ => succeeds_pure _⟩
      rintro ⟨r, answered⟩
      obtain ⟨b, named, -⟩ := bind_cases answered
      exact ⟨b, named⟩

theorem present_of_call (call : hasKind v "CallExpression") : present v = .ok () := by
  obtain ⟨es, rfl⟩ := dict_of_kind? (known_of call)
  rfl

theorem checked_answerable (listed : methods s.properties = .ok ms) (named : ∀ m ∈ ms, m.1.isSome) {b : Bool}
    (checked : checked? s v = some b) : part v "callee" ≠ .null ∧ isAnswerable s v := by
  have shown : checked? s v = (called? s v).bind fun method =>
      if (member? (part v "arguments") (displayOr (method.field? "argumentIndex"))).any (isFlag s.flag) then
        some (answer s.behaviour method) else none := by
    rw [checked?, called?, listed]
    rfl
  rw [shown] at checked
  obtain ⟨method, called, checked⟩ := bind_eq_some_iff.mp checked
  constructor
  · intro missing
    rw [called?, listed, missing] at called
    cases (get?_nameless named).symm.trans called
  · split at checked
    · rename_i flagged
      rw [isAnswerable, called, all_some]
      cases given : member? (part v "arguments") (displayOr (method.field? "argumentIndex")) with
      | none => rw [given] at flagged; cases flagged
      | some argument =>
        have present : argument ≠ .null := by
          rintro rfl
          rw [given] at flagged
          cases flagged
        simp [present]
    · cases checked

theorem stops_checks (listed : methods s.properties = .ok ms) (named : ∀ m ∈ ms, m.1.isSome) :
    stops (checks s ms) = isReplaced s := by
  funext v
  cases result : replaceCheck s ms v with
  | ok r =>
    have entered : (checks s ms).enter v = r := by simp only [checks, result, Reply.ofExcept]
    rw [stops, entered]
    rcases replaceCheck_cases listed _ result with ⟨b, call, checked, rfl⟩ | ⟨none, rfl⟩
    · simp [isReplaced, hasKind, call, checked, Reply.put]
    · cases call : hasKind v "CallExpression" with
      | false => simp [isReplaced, call, Reply.keep]
      | true => simp [isReplaced, none (known_of call), Reply.keep]
  | error fault =>
    have kept : stops (checks s ms) v = false := stops_iff.mpr (by simp only [checks, result, Reply.ofExcept, Reply.stop])
    rw [kept]
    cases call : hasKind v "CallExpression" with
    | false => simp [isReplaced, call]
    | true =>
      cases checked : checked? s v with
      | none => simp [isReplaced, checked]
      | some b =>
        obtain ⟨callee, answerable⟩ := checked_answerable listed named checked
        obtain ⟨r, answered⟩ := (replaceCheck_answers_iff listed (present_of_call call) fun _ => callee).mpr answerable
        rw [result] at answered
        cases answered

end Checks

instance (tree : Value) : Decidable (Standing tree) :=
  decidable_of_iff (Keeps populated tree ∧ ∀ n ∈ nodesIn never false none tree, Sturdy n.2 ∧ Commented n.2)
    ⟨fun ⟨keeps, both⟩ => ⟨keeps, everywhere_of_parent none fun n reached => (both n reached).1,
        everywhere_of_parent none fun n reached => (both n reached).2⟩,
      fun standing => ⟨standing.keeps, fun n reached => ⟨standing.sturdy none n reached, standing.commented none n reached⟩⟩⟩

section Cleanup

variable {s : Settings} {tree : Value}

theorem checks_enter_iff {ms : Methods} (listed : methods s.properties = .ok ms) (standing : Standing tree) {stop : Value → Bool}
    {n : Place} (reached : n ∈ nodesIn stop false none tree) :
    ((checks s ms).enter n.2).fault = none ↔ isAnswerable s n.2 := by
  obtain ⟨complete, -, sturdy⟩ := standing.node reached
  obtain ⟨es, whole⟩ := isNode_dict complete.isNode
  rw [whole] at sturdy ⊢
  have callee (call : hasKind (.dict es) "CallExpression") : part (.dict es) "callee" ≠ .null :=
    isNode_ne_null ((everywhere_self sturdy).node (known_of call) (by decide))
  rw [← replaceCheck_answers_iff listed rfl callee]
  constructor
  · intro fine
    obtain ⟨r, answered, -⟩ := ofExcept_finished fine
    exact ⟨r, answered⟩
  · rintro ⟨r, answered⟩
    simp only [checks, answered, Reply.ofExcept]
    rcases replaceCheck_cases listed _ answered with ⟨-, -, -, rfl⟩ | ⟨-, rfl⟩ <;> rfl

theorem replaceChecks_finishes_iff (configured : IsConfigured s.properties) (standing : Standing tree) :
    (replaceChecks s tree).fault = none ↔ ∀ n ∈ nodesIn (isReplaced s) false none tree, isAnswerable s n.2 := by
  obtain ⟨ms, listed, named⟩ := configured.methods
  have run : replaceChecks s tree = (checks s ms).run tree := by rw [replaceChecks, listed]
  rw [run, (checks_smooth listed).run_iff standing, stops_checks listed named]
  exact forall₂_congr fun n reached => checks_enter_iff listed standing reached

theorem cleanup_of_rounds (clean : (cleanupRounds s tree).fault = none)
    (unmarked : (unmark.run (cleanupRounds s tree).tree).fault = none) : (cleanup s tree).fault = none := by
  unfold cleanup
  simp only [clean, unmarked]

theorem rounds_nameless {keepComments : Bool} {limit : Nat} {r : Rounds} (keeps : Keeps anything r.tree)
    (exports : HasNamelessExport r.tree) (start : r.changed) (positive : limit ≠ 0) :
    (rounds keepComments limit r).fault ≠ none := by
  intro finished
  obtain ⟨limit, rfl⟩ := Nat.exists_eq_succ_of_ne_zero positive
  have fine := rounds_finished finished
  rw [rounds_succ, if_pos (by simp [start, fine])] at finished
  exact round_nameless keeps exports (rounds_finished finished)

/-- A clean-up of a standing script fails only at a call of a configured method without the argument that would name the flag, or in
its first round at a function without a name. -/
theorem cleanup_finishes_iff (configured : IsConfigured s.properties) (standing : Standing tree) (short : size tree < 2147483648)
    (exported : Everywhere Named false tree ∨ HasNamelessExport tree) :
    (cleanup s tree).fault = none ↔
      (∀ n ∈ nodesIn (isReplaced s) false none tree, isAnswerable s n.2 = true) ∧
        (roundLimit s.maxSteps = 0 ∨ ¬HasNamelessExport tree) := by
  obtain ⟨ms, listed, -⟩ := configured.methods
  have run : replaceChecks s tree = (checks s ms).run tree := by rw [replaceChecks, listed]
  have edits := checks_edits listed
  have keeps := keeps_anything_of standing.keeps
  rw [← replaceChecks_finishes_iff configured standing]
  constructor
  · intro finished
    obtain ⟨checked, clean, -, -⟩ := cleanup_finished finished
    refine ⟨checked, or_iff_not_imp_left.mpr fun positive exports => ?_⟩
    rw [run] at checked
    rw [cleanupRounds, run] at clean
    exact rounds_nameless (edits.tame.keeps_anything keeps checked)
      (exports.run (by simp [exportKinds, checks_idle listed]) keeps checked) rfl positive clean
  · rintro ⟨checked, rest⟩
    have stands : Standing (replaceChecks s tree).value := by
      rw [run] at checked ⊢
      exact standing.run edits (checks_smooth listed) checked
    have rounds : (cleanupRounds s tree).fault = none ∧ Standing (cleanupRounds s tree).tree := by
      rcases rest with zero | none
      · rw [cleanupRounds, zero]
        exact ⟨checked, stands⟩
      · have light := weight_le_size tree
        have ready : Ready tree := ⟨standing, exported.resolve_right none, by omega⟩
        have goes : Goes (replaceChecks s tree) := by
          rw [run] at checked stands ⊢
          exact ready.run edits ⟨checked, stands⟩
        exact (goes.ready.rounds _ goes.fine).imp_right Ready.standing
    exact cleanup_of_rounds rounds.1 rounds.2.unmark

def exporting (declaration : Value) : Value := .dict [("type", .str "ExportDefaultDeclaration"), ("declaration", declaration)]

def commented (v : Value) : Value :=
  v.set "comments" (.list [.dict [("type", .str "Line"), ("value", .str " why"), ("leading", .bool true), ("trailing", .bool false)]])

def exportingScript : Value :=
  script [commented (conditional flagCheck (statement (identifier "f")) .null), exporting (function "g" [returning flagCheck])]

theorem exportingScript_finishes :
    IsConfigured (settingsFor true (some (.int 2))).properties ∧ Standing exportingScript ∧ size exportingScript < 2147483648 ∧
      Everywhere Named false exportingScript ∧ (cleanup (settingsFor true (some (.int 2))) exportingScript).fault = none := by
  have configured : IsConfigured (settingsFor true (some (.int 2))).properties := ⟨_, rfl, by decide⟩
  have standing : Standing exportingScript := by decide +kernel
  have named : Everywhere Named false exportingScript := everywhere_of_parent none (by decide +kernel)
  exact ⟨configured, standing, by decide, named, (cleanup_finishes_iff configured standing (by decide) (Or.inl named)).mpr
    ⟨by decide +kernel, Or.inr (by decide)⟩⟩

def argumentlessScript : Value := script [statement (flagCheck.set "arguments" (.list []))]

def namelessScript : Value := script [exporting ((function "g" []).set "id" .null)]

def vanishingScript : Value :=
  script [commented (conditional flagCheck (conditional (.dict [("type", .str "UnaryExpression"), ("operator", .str "!"),
    ("argument", flagCheck)]) (statement (identifier "f")) .null) .null)]

/-- Well-formed scripts over which the clean-up fails. -/
theorem cleanup_stops :
    WellFormed argumentlessScript ∧ (cleanup (settingsFor true (some (.int 1))) argumentlessScript).fault.isSome = true ∧
      WellFormed namelessScript ∧ (cleanup (settingsFor true (some (.int 1))) namelessScript).fault.isSome = true ∧
      WellFormed vanishingScript ∧ (cleanup (settingsFor true (some (.int 1))) vanishingScript).fault.isSome = true := by
  refine ⟨?_, ?_, ?_, ?_, ?_, ?_⟩ <;> decide +kernel

end Cleanup

end Rulewright.Flag
