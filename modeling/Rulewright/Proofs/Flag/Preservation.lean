import Rulewright.Proofs.Flag.Faithful

/-!
The clean-up keeps what a script does: replacing checks, simplifying operators and reducing conditionals
are faithful passes, and flattening blocks changes no meaning either. Main statement:
`simplified_script_runs_the_same`.
-/

namespace Rulewright.Flag

variable {s : Settings} {v w tree : Value} {b : Bool} {r : Reply}

theorem shape_check (made : shape s v = .check b) : kind? v = some "CallExpression" ∧ checked? s v = some b := by
  unfold shape at made
  split at made
  · rename_i call
    split at made
    · rename_i checked
      cases made
      exact ⟨call, checked⟩
    · cases made
  · split at made <;> cases made
  · split at made <;> cases made
  · split at made <;> cases made
  · cases made
  · cases made

theorem checks_faithful {ms : Methods} (listed : methods s.properties = .ok ms) : (checks s ms).Retains ∧ Faithful s true (checks s ms) := by
  have retains : (checks s ms).Retains := by
    refine fun v carry => ⟨fun dropped => ?_, by rintro ⟨⟩⟩
    simp only [checks] at dropped
    cases answered : replaceCheck s ms v with
    | error fault => simp [answered, Reply.ofExcept, Reply.stop] at dropped
    | ok r =>
      rcases replaceCheck_cases listed _ answered with ⟨b, -, -, rfl⟩ | ⟨-, rfl⟩ <;>
        simp [answered, Reply.ofExcept, Reply.put, Reply.keep] at dropped
  have keeps {v : Value} (free : kind? v = some "CallExpression" → checked? s v = none)
      (finished : ((checks s ms).enter v).fault = none) : (checks s ms).enter v = .keep v := by
    obtain ⟨r, answered, same⟩ := ofExcept_finished finished
    rcases replaceCheck_cases listed _ answered with ⟨b, call, checked, -⟩ | ⟨-, rfl⟩
    · simp [free call] at checked
    · exact same
  refine ⟨retains, {
    nothing := retains.carriesNothing
    quiet := fun free => free.imp fun v free => ⟨keeps free.1, fun _ => rfl⟩
    check := ?_
    enter := ?_
    test := fun _ _ _ => ⟨fun _ => rfl, fun _ test => test⟩
    scope := fun _ _ _ => rfl
    branch := fun _ _ => ⟨fun _ => rfl, fun _ => rfl⟩ }⟩
  · intro v b _ made finished
    obtain ⟨call, checked⟩ := shape_check made
    obtain ⟨r, answered, same⟩ := ofExcept_finished finished
    rcases replaceCheck_cases listed _ answered with ⟨b', -, checked', rfl⟩ | ⟨free, -⟩
    · rw [checked] at checked'
      cases checked'
      exact congrArg Reply.action same
    · simp [free call] at checked
  · intro v settled finished
    refine keeps (fun call => ?_) finished
    cases checked : checked? s v with
    | none => rfl
    | some b => exact (settled b (by rw [shape, call]; simp [checked])).elim

theorem holds_mark (marked : isMark v) (truth : truth? (some v) = some b) (valuation : Value → Bool) : holds s valuation v = b := by
  rw [holds_eq, shape, isMark_kind? marked]
  simp [marked, truth, Shape.eval]

theorem reduceLogical_cases {x : Value} {other operator : Option Value} (marked : isMark x)
    (reduced : reduceLogical (some x) other operator = some w) :
    operator = some (.str "&&") ∧
        (∀ valuation, holds s valuation w = (holds s valuation x && holds s valuation (other.getD .null))) ∨
      operator = some (.str "||") ∧
        ∀ valuation, holds s valuation w = (holds s valuation x || holds s valuation (other.getD .null)) := by
  unfold reduceLogical at reduced
  split at reduced
  · rename_i truth
    exact Or.inl ⟨rfl, fun valuation => by simp [holds_mark marked truth, reduced]⟩
  · rename_i truth
    cases reduced
    exact Or.inl ⟨rfl, fun valuation => by simp [holds_mark marked truth, holds_literal]⟩
  · rename_i truth
    cases reduced
    exact Or.inr ⟨rfl, fun valuation => by simp [holds_mark marked truth, holds_literal]⟩
  · rename_i truth
    exact Or.inr ⟨rfl, fun valuation => by simp [holds_mark marked truth, reduced]⟩
  · cases reduced

theorem IsTest.parts (test : IsTest s false v) (inside : w ∈ (shape s v).parts) : IsTest s false w := by
  cases test with
  | check allowed => cases allowed
  | atom made => simp [made, Shape.parts] at inside
  | made _ _ parts => exact parts w inside

theorem reduceOperator_means (answered : reduceOperator v = .ok r) :
    (∀ valuation, holds s valuation r.slot = holds s valuation v) ∧ (IsTest s false v → IsTest s false r.slot) := by
  rcases reduceOperator_cases _ answered with rfl | ⟨known, key, other, sides, marked, ⟨-, rfl⟩ | ⟨w, reduced, rfl⟩⟩ |
    ⟨known, operator, marked, b, truth, rfl⟩
  · exact ⟨fun _ => rfl, id⟩
  · exact ⟨fun _ => rfl, id⟩
  · have left := reduceLogical_left reduced
    have value := reduceLogical_cases (s := s) marked reduced
    have tests (inside : part v other ∈ (shape s v).parts) (test : IsTest s false v) : IsTest s false w := by
      rcases left with ⟨b, rfl⟩ | held
      · exact isTest_literal s b
      · simpa [part, held] using test.parts inside
    simp only [Reply.slot, Reply.put]
    rcases value with ⟨operator, means⟩ | ⟨operator, means⟩
    · have made : shape s v = .both (part v "left") (part v "right") := by
        rw [shape, known]
        simp [operator]
      refine ⟨fun valuation => ?_, tests ?_⟩
      · rw [means, holds_eq s valuation v, made]
        rcases sides with ⟨rfl, rfl⟩ | ⟨rfl, rfl⟩
        · rfl
        · exact Bool.and_comm _ _
      · rw [made]
        rcases sides with ⟨rfl, rfl⟩ | ⟨rfl, rfl⟩ <;> simp [Shape.parts]
    · have made : shape s v = .either (part v "left") (part v "right") := by
        rw [shape, known]
        simp [operator]
      refine ⟨fun valuation => ?_, tests ?_⟩
      · rw [means, holds_eq s valuation v, made]
        rcases sides with ⟨rfl, rfl⟩ | ⟨rfl, rfl⟩
        · rfl
        · exact Bool.or_comm _ _
      · rw [made]
        rcases sides with ⟨rfl, rfl⟩ | ⟨rfl, rfl⟩ <;> simp [Shape.parts]
  · refine ⟨fun valuation => ?_, fun _ => isTest_literal s _⟩
    simp only [Reply.slot, Reply.put]
    rw [holds_literal, holds_eq s valuation v, shape, known]
    simp [operator, Shape.eval, holds_mark marked truth]

theorem reduceOperator_keeps (answered : reduceOperator v = .ok r)
    (unmarked : ∀ kind key, kind? v = some kind → kind = "LogicalExpression" ∨ kind = "UnaryExpression" →
      isChild (childFields kind) key → isMark (part v key) = false) : r = .keep v := by
  rcases reduceOperator_cases _ answered with kept | ⟨known, key, other, sides, marked, -⟩ | ⟨known, -, marked, -⟩
  · exact kept
  · simp [unmarked _ key known (Or.inl rfl) (by rcases sides with ⟨rfl, -⟩ | ⟨rfl, -⟩ <;> decide)] at marked
  · simp [unmarked _ "argument" known (Or.inr rfl) (by decide)] at marked

theorem unmarked_children {loose : Bool} (free : Everywhere (Free s) loose v) :
    Everywhere (fun n => ∀ kind key, kind? n = some kind → kind ≠ "" → isChild (childFields kind) key →
      isMark (part n key) = false) loose v := by
  induction loose, v using below_induction with
  | leaf loose v leaf => exact everywhere_leaf leaf
  | node loose es ih =>
    obtain ⟨-, below⟩ := everywhere_below.mp free
    refine everywhere_below.mpr ⟨fun kind key known named child => ?_, fun l v inside => ih l v inside (below l v inside)⟩
    cases marked : isMark (part (.dict es) key) with
    | false => rfl
    | true =>
      have node := isNode_of_kind? (isMark_kind? marked)
      have inside := below _ _ (.single (mem_of_isNode_part node) (by rwa [visitedKind_of_kind? known named]) node)
      obtain ⟨es', whole⟩ := isNode_dict node
      rw [whole] at inside marked
      exact marked.symm.trans (everywhere_below.mp inside).1.2

theorem operators_faithful (s : Settings) : operators.Retains ∧ Faithful s false operators := by
  have retains : operators.Retains := by
    refine fun v carry => ⟨by rintro ⟨⟩, fun dropped => ?_⟩
    simp only [operators] at dropped
    cases answered : reduceOperator v with
    | error fault => simp [answered, Reply.ofExcept, Reply.stop] at dropped
    | ok r =>
      rcases reduceOperator_cases _ answered with rfl | ⟨-, -, -, -, -, ⟨-, rfl⟩ | ⟨w, -, rfl⟩⟩ | ⟨-, -, -, b, -, rfl⟩ <;>
        simp [answered, Reply.ofExcept, Reply.put, Reply.keep] at dropped
  have keeps {v : Value} {kind : String} (known : kind? v = some kind)
      (other : kind ≠ "LogicalExpression" ∧ kind ≠ "UnaryExpression")
      (finished : (operators.leave v).fault = none) : operators.leave v = .keep v := by
    obtain ⟨r, answered, same⟩ := ofExcept_finished finished
    refine same.trans (reduceOperator_keeps answered fun kind' _ known' either => ?_)
    rw [known] at known'
    cases known'
    exact absurd either (by simp [other])
  refine ⟨retains, {
    nothing := retains.carriesNothing
    quiet := fun free => (unmarked_children free).imp fun v unmarked => ⟨fun _ => rfl, fun finished => ?_⟩
    check := by rintro _ _ ⟨⟩
    enter := fun _ _ => rfl
    test := fun _ _ finished => ?_
    scope := fun known scope => keeps known ?_
    branch := fun known finished => ?_ }⟩
  · obtain ⟨r, answered, same⟩ := ofExcept_finished finished
    refine same.trans (reduceOperator_keeps answered fun kind key known either => unmarked kind key known ?_)
    rcases either with rfl | rfl <;> decide
  · obtain ⟨r, answered, same⟩ := ofExcept_finished finished
    obtain ⟨means, tests⟩ := reduceOperator_means (s := s) answered
    have slot : (operators.leave _).slot = r.slot := congrArg Reply.slot same
    rw [slot]
    exact ⟨means, fun _ => tests⟩
  · constructor <;> rintro rfl <;> cases scope
  · have kept := keeps known (by decide) finished
    rw [kept]
    exact ⟨fun _ => rfl, fun _ => rfl⟩

theorem conditionals_faithful (s : Settings) : Faithful s false conditionals := by
  have losing : ¬conditionals.Retains := fun retains =>
    (retains (.dict [("type", .str "IfStatement"), ("test", literal false)]) .nothing).2 rfl
  have keeps {v : Value} (unmarked : kind? v = some "IfStatement" ∨ kind? v = some "ConditionalExpression" →
      isMark (part v "test") = false) (finished : (conditionals.leave v).fault = none) :
      conditionals.leave v = .keep v := by
    obtain ⟨r, answered, same⟩ := ofExcept_finished finished
    rcases reduceConditional_cases _ answered with rfl | ⟨conditional, marked, -⟩
    · exact same
    · simp [unmarked conditional] at marked
  -- the branch taken is the one that the test selects
  have takes {α : Type} {f : Value → α} (blind : ∀ v w, bare v = bare w → f v = f w) {v : Value}
      (chooses : kind? v = some "IfStatement" ∨ kind? v = some "ConditionalExpression" → ∀ b,
        isMark (part v "test") → truth? (some (part v "test")) = some b → f v = f (part v (branchField b)))
      (finished : (conditionals.leave v).fault = none) : f (conditionals.leave v).slot = f v := by
    obtain ⟨r, answered, same⟩ := ofExcept_finished finished
    have slot : (conditionals.leave v).slot = r.slot := congrArg Reply.slot same
    have clean : r.fault = none := by rw [← same]; exact finished
    rw [slot]
    rcases reduceConditional_cases _ answered with rfl | ⟨conditional, marked, b, truth, ⟨rfl, -⟩ | ⟨rfl, missing⟩⟩
    · rfl
    · rcases takeBranch_cases clean with ⟨keep, stays⟩ | ⟨w, put, alike⟩
      · simp only [Reply.slot, keep, stays]
      · simp only [Reply.slot, put]
        rw [blind _ _ alike, chooses conditional b marked truth]
    · rw [chooses conditional b marked truth, missing]
      rfl
  refine {
    nothing := fun v carry => ⟨by rintro ⟨⟩, fun dropped => ?_⟩
    quiet := fun free => (unmarked_children free).imp fun v unmarked => ⟨fun _ => rfl, keeps fun conditional => ?_⟩
    check := by rintro _ _ ⟨⟩
    enter := fun _ _ => rfl
    test := fun {v} _ compound finished => ⟨fun valuation => ?_, fun retains => (losing retains).elim⟩
    scope := fun known scope => keeps fun conditional => ?_
    branch := fun {v} known finished => ⟨fun valuation => ?_, fun retains => (losing retains).elim⟩ }
  · simp only [conditionals] at dropped
    cases answered : reduceConditional v with
    | error fault => simp [answered, Reply.ofExcept, Reply.stop] at dropped
    | ok r =>
      rw [answered] at dropped
      rcases reduceConditional_cases _ answered with rfl | ⟨-, -, b, -, ⟨rfl, -⟩ | ⟨rfl, -⟩⟩
      · cases dropped
      · exact (takeBranch_action _ _ _ dropped).elim
      · cases dropped
        rfl
  · rcases conditional with known | known <;> exact unmarked _ "test" known (by decide) (by decide)
  · refine takes (fun v w same => holds_of_bare same s valuation) (fun conditional b marked truth => ?_) finished
    have known : kind? v = some "ConditionalExpression" := by
      rcases conditional with branch | known
      · exact (compound (by simp [shape, branch])).elim
      · exact known
    rw [holds_eq, shape, known]
    simp only [Shape.eval, holds_mark marked truth]
    cases b <;> rfl
  · rw [known] at conditional
    rcases conditional with same | same <;> cases same <;> cases scope
  · refine takes (fun v w same => trace_of_bare same s valuation) (fun _ b marked truth => ?_) finished
    rw [trace_branch known, holds_mark marked truth]
    cases b <;> rfl

theorem flattenBlocks_trace {valuation : Value → Bool} {keepComments : Bool}
    (finished : (flattenBlocks keepComments tree).fault = none) :
    trace s valuation (flattenBlocks keepComments tree).value = trace s valuation tree := by
  unfold flattenBlocks at finished ⊢
  split at finished
  · dsimp only at finished ⊢
    split at finished
    · cases finished
    · rename_i whole
      rw [if_neg whole]
      exact flattenNode_trace finished
  · split <;> rfl

/-- Replacing checks takes every check out of the tests, and together with simplifying operators and
reducing conditionals it keeps the sequence of opaque statements that a script runs, whatever its atoms
are worth. -/
theorem simplified_script_runs_the_same (s : Settings) (tree : Value) (script : IsScript s true tree)
    (finished : (((replaceChecks s tree).andThen simplifyOperators).andThen
      (reduceConditionals s.keepComments)).fault = none) :
    IsScript s false (replaceChecks s tree).value ∧
      ∀ valuation, trace s valuation (((replaceChecks s tree).andThen simplifyOperators).andThen
        (reduceConditionals s.keepComments)).value = trace s valuation tree := by
  obtain ⟨first, third, value⟩ := andThen_finished finished
  obtain ⟨checked, simplified, simple⟩ := andThen_finished first
  obtain ⟨reduced, flat, flattened⟩ := andThen_finished third
  obtain ⟨ms, listed⟩ : ∃ ms, methods s.properties = .ok ms := by
    unfold replaceChecks at checked
    split at checked
    · exact ⟨_, by assumption⟩
    · cases checked
  have run : replaceChecks s tree = (checks s ms).run tree := by
    rw [replaceChecks, listed]
  obtain ⟨retains, faithful⟩ := checks_faithful listed
  rw [run] at checked
  obtain ⟨sameChecked, settled⟩ := faithful.run script checked
  rw [run] at simplified simple reduced flat flattened value ⊢
  obtain ⟨retainsOperators, faithfulOperators⟩ := operators_faithful s
  obtain ⟨sameSimple, settledSimple⟩ := faithfulOperators.run (settled retains) simplified
  rw [simple] at reduced flat flattened value
  obtain ⟨sameReduced, -⟩ := (conditionals_faithful s).run (settledSimple retainsOperators) reduced
  refine ⟨settled retains, fun valuation => ?_⟩
  rw [value, reduceConditionals, flattened, flattenBlocks_trace flat]
  exact (sameReduced valuation).trans ((sameSimple valuation).trans (sameChecked valuation))

def guardedScript : Value :=
  let test : Value :=
    .dict [("type", .str "LogicalExpression"), ("left", flagCheck), ("right", identifier "c"), ("operator", .str "&&")]
  script [conditional test (statement (identifier "a")) (statement (identifier "b"))]

theorem guardedScript_isScript : IsScript (settingsFor true none) true guardedScript := by
  have free (v : Value) (parent : Option Value) (node : isNode v)
      (all : ∀ n ∈ nodesIn never false parent v, Free (settingsFor true none) n.2) : Sealed (settingsFor true none) v :=
    ⟨node, everywhere_of_parent parent all⟩
  refine .mk (show kind? guardedScript = some "Program" by decide) (by decide)
    (show part guardedScript "body" = .list _ from rfl) ?_
  intro w inside
  simp only [List.mem_singleton] at inside
  subst inside
  refine .branch (by decide) ?_ ?_ ?_
  · refine .made (by rintro _ ⟨⟩) (by rintro ⟨⟩) fun w inside => ?_
    rcases List.mem_cons.mp inside with rfl | inside
    · exact .check rfl (b := true) (by decide)
    · obtain rfl := List.mem_singleton.mp inside
      exact .atom rfl (free _ none (by decide) (by decide))
  · exact .plain (show kind? _ = some "ExpressionStatement" by decide) (by decide) (by decide) (free _ none (by decide) (by decide))
  · exact .plain (show kind? _ = some "ExpressionStatement" by decide) (by decide) (by decide) (free _ none (by decide) (by decide))

theorem guardedScript_runs_the_same :
    IsScript (settingsFor true none) true guardedScript ∧
      (((replaceChecks (settingsFor true none) guardedScript).andThen simplifyOperators).andThen
        (reduceConditionals (settingsFor true none).keepComments)).fault = none ∧
      ∀ valuation, trace (settingsFor true none) valuation (((replaceChecks (settingsFor true none) guardedScript).andThen
        simplifyOperators).andThen (reduceConditionals (settingsFor true none).keepComments)).value =
          trace (settingsFor true none) valuation guardedScript :=
  ⟨guardedScript_isScript, by decide,
    (simplified_script_runs_the_same (settingsFor true none) guardedScript guardedScript_isScript (by decide)).2⟩

end Rulewright.Flag
