import Rulewright.Proofs.Flag.Preservation
import Rulewright.Proofs.Flag.Returns
import Rulewright.Proofs.Flag.Termination
import Rulewright.Proofs.Flag.Writes

/-!
Scripts without checks of the flag. The clean-up still takes out blocks that stand directly in a block, declarations
of nothing, and what goes by a name that every table answers to; it leaves all other such scripts alone
(`unflagged_script_stays`).
-/

open List Option

namespace Rulewright.Flag

def Unflagged (s : Settings) (v : Value) : Prop := ∀ w ∈ tables true v, Free s w

instance (s : Settings) (v : Value) : Decidable (Unflagged s v) :=
  inferInstanceAs (Decidable (∀ w ∈ tables true v, Free s w))

section Unflagged

variable {s : Settings} {v w tree : Value} {key text : String} {es : Entries} {items : List Value} {loose : Bool}

theorem tables_field (held : (key, v) ∈ es) : tables true v ⊆ tables true (.dict es) := by
  refine fun x inside => mem_cons_of_mem _ ?_
  induction es with
  | nil => cases held
  | cons e rest ih =>
    rw [fieldTables, Bool.not_true, Bool.and_false]
    rcases mem_cons.mp held with rfl | later
    · exact mem_append_left _ inside
    · exact mem_append_right _ (ih later)

theorem tables_item (member : v ∈ items) : tables true v ⊆ tables true (.list items) := by
  intro x inside
  induction items with
  | nil => cases member
  | cons y rest ih =>
    rcases mem_cons.mp member with rfl | later
    · exact mem_append_left _ inside
    · exact mem_append_right _ (ih later)

theorem Unflagged.held (unflagged : Unflagged s (.dict es)) (held : (key, v) ∈ es) : Unflagged s v :=
  fun w inside => unflagged w (tables_field held inside)

theorem Unflagged.item (unflagged : Unflagged s (.list items)) (member : v ∈ items) : Unflagged s v :=
  fun w inside => unflagged w (tables_item member inside)

theorem Unflagged.field (unflagged : Unflagged s v) (read : v.field? key = some w) : Unflagged s w := by
  cases v with
  | dict es => exact unflagged.held (Entries.mem_of_get? read)
  | _ => cases read

theorem Unflagged.part (unflagged : Unflagged s v) (key : String) : Unflagged s (part v key) := by
  unfold Flag.part
  cases read : v.field? key with
  | none => rintro w ⟨⟩
  | some w => exact unflagged.field read

theorem Unflagged.piece (inside : w ∈ pieces text) : Unflagged s w := by
  obtain ⟨c, -, inside⟩ := mem_flatMap.mp inside
  split at inside <;> simp only [mem_cons, not_mem_nil, or_false] at inside
  · subst inside
    rintro x ⟨⟩
  · rcases inside with rfl | rfl <;> rintro x ⟨⟩

section

variable (unflagged : Unflagged s v)
include unflagged

theorem Unflagged.member (read : member? v key = some w) : Unflagged s w := by
  rcases or_eq_some_iff.mp read with own | ⟨-, inherited⟩
  · unfold ownMember? at own
    split at own
    · exact unflagged.held (Entries.mem_of_get? own)
    · split at own
      · cases own
        rintro w ⟨⟩
      · obtain ⟨i, -, element⟩ := bind_eq_some_iff.mp own
        exact unflagged.item (mem_of_getElem? element)
    · split at own
      · cases own
        rintro w ⟨⟩
      · obtain ⟨i, -, element⟩ := bind_eq_some_iff.mp own
        exact .piece (mem_of_getElem? element)
    · cases own
  · split at inherited
    · cases inherited
      intro w inside
      obtain rfl := mem_singleton.mp inside
      exact ⟨by rintro ⟨⟩, rfl⟩
    · cases inherited

theorem Unflagged.mark? : mark? v = none := by
  unfold Flag.mark?
  split
  · rename_i marked
    cases v with
    | dict es =>
      have free := (unflagged (.dict es) mem_cons_self).2
      rw [free] at marked
      cases marked
    | _ => cases marked
  · rfl

theorem Unflagged.everywhere (loose : Bool) : Everywhere (Unflagged s) loose v := by
  induction loose, v using below_induction with
  | leaf loose v leaf => exact everywhere_leaf leaf
  | node loose es ih =>
    refine everywhere_below.mpr ⟨unflagged, fun l v below => ih l v below ?_⟩
    cases below with
    | single held => exact unflagged.held held
    | listed held _ inside => exact (unflagged.held held).item inside

theorem Unflagged.free : Everywhere (Free s) false v := by
  refine (unflagged.everywhere false).imp fun v unflagged => ?_
  cases v with
  | dict es => exact unflagged _ mem_cons_self
  | _ => exact ⟨by rintro ⟨⟩, rfl⟩

theorem Unflagged.element (member : some w ∈ elements v) : Unflagged s w := by
  unfold elements at member
  split at member
  · simp only [List.mem_map, Option.some.injEq, exists_eq_right] at member
    exact unflagged.item member
  · obtain ⟨i, -, read⟩ := mem_map.mp member
    exact unflagged.member read
  · obtain ⟨x, inside, same⟩ := mem_map.mp member
    cases same
    exact .piece inside
  · cases member

theorem Unflagged.writes : ∀ w ∈ writesOf v, Flag.mark? w.2 = none := by
  intro w inside
  unfold writesOf at inside
  split at inside
  · obtain ⟨d, element, inside⟩ := mem_flatMap.mp inside
    unfold declarators at element
    split at element
    · cases element
    · cases element
    · rename_i declarations read
      unfold declaratorWrites at inside
      split at inside
      · cases inside
      · cases inside
      · rename_i init found
        obtain rfl := mem_singleton.mp inside
        obtain ⟨x, rfl, held⟩ := bind_eq_some_iff.mp found
        exact (((unflagged.field read).element element).field held).mark?
  · split at inside
    · unfold assignmentWrites at inside
      split at inside
      · cases inside
      · obtain rfl := mem_singleton.mp inside
        exact (unflagged.part "right").mark?
    · cases inside

end

theorem Unflagged.variables (unflagged : Unflagged s (.dict es)) {t : Table} (found : redundantVariables (.dict es) = .ok t) :
    t = [] := by
  have nothing : ∀ w ∈ noted (.dict es), Flag.mark? w.2 = none := by
    intro w inside
    obtain ⟨n, reached, inside⟩ := mem_flatMap.mp inside
    exact (unflagged.everywhere false none n reached).writes w inside
  rw [redundantVariables_ok found]
  generalize noted (.dict es) = ws at nothing
  induction ws with
  | nil => rfl
  | cons w rest ih =>
    have unmarked : note [] w = [] := by rw [note, nothing w mem_cons_self]
    rw [foldl_cons, unmarked]
    exact ih fun w inside => nothing w (mem_cons_of_mem _ inside)

theorem lastStatement_member {body last : Value} (ends : lastStatement body = some (some last)) :
    ∃ key, member? body key = some last := by
  unfold lastStatement at ends
  split at ends
  · split at ends
    · cases ends
    · exact ⟨_, Option.some.inj ends⟩
  · cases ends

theorem Unflagged.finalMark? (unflagged : Unflagged s v) : finalMark? v = none := by
  unfold Flag.finalMark?
  split
  · exact (unflagged.part "body").mark?
  · cases ends : lastStatement (Flag.part (Flag.part v "body") "body") with
    | none => rfl
    | some last =>
      cases last with
      | none => rfl
      | some last =>
        obtain ⟨key, read⟩ := lastStatement_member ends
        have inside := ((unflagged.part "body").part "body").member read
        rw [join_some, bind_some, (inside.part "argument").mark?, ite_self]

theorem Unflagged.functions (unflagged : Unflagged s (.dict es)) {single t : Table}
    (found : redundantFunctions single (.dict es) = .ok t) : t = [] := by
  refine analyse_invariant (P := fun t => t = []) rfl ?_ t found
  rintro n reached _ rfl r answered
  rcases noteFunctions_ok r answered with same | ⟨name, b, -, -, final, -⟩
  · exact same
  · rw [(unflagged.everywhere false none n reached).finalMark?] at final
    cases final

end Unflagged

def Apart (v : Value) : Prop :=
  isScope (visitedKind false (entriesOf v)) = true → ∀ e ∈ entriesOf v, e.1 = "body" →
    ∀ x ∈ e.2.list?.getD [], hasKind x "BlockStatement" = false

instance (v : Value) : Decidable (Apart v) :=
  inferInstanceAs (Decidable (isScope (visitedKind false (entriesOf v)) = true → ∀ e ∈ entriesOf v, e.1 = "body" →
    ∀ x ∈ e.2.list?.getD [], hasKind x "BlockStatement" = false))

@[mk_iff]
structure Plain (v : Value) : Prop where
  named : ∀ name ∈ prunedUnder? v, inheritedNames.contains name = false
  filled : (isEmptied v).toOption ≠ some true
  apart : Apart v

instance (v : Value) : Decidable (Plain v) := decidable_of_iff _ (plain_iff ..).symm

section Plain

variable {s : Settings} {p : Pass} {keepComments loose l : Bool} {v w tree : Value} {es : Entries} {carry : Carry} {t : Table}

theorem answers_nil (name : String) : Table.answers [] name = inheritedNames.contains name := rfl

theorem Plain.stays (plain : Plain v) (kinds : List String) : goesBy kinds (Table.answers []) v = false := by
  cases under : prunedUnder? v with
  | none => simp [goesBy, under]
  | some name => rw [goesBy, under, Option.any_some, answers_nil, plain.named name under, Bool.and_false]

theorem Plain.emptied (plain : Plain v) (finished : (Reply.ofExcept v (pruneEmptied carry v)).fault = none) :
    Reply.ofExcept v (pruneEmptied carry v) = .keep v := by
  obtain ⟨r, answered, same⟩ := ofExcept_finished finished
  rw [same]
  rcases pruneEmptied_cases _ answered with kept | ⟨-, emptied, -⟩
  · exact kept
  · exact (plain.filled (by rw [emptied]; rfl)).elim

theorem Plain.quiet_variables (plain : Plain v) (carry : Carry) : Quiet (variablePass carry []) v := by
  refine ⟨fun finished => ?_, plain.emptied⟩
  obtain ⟨r, answered, same⟩ := ofExcept_finished finished
  refine same.trans ?_
  rcases pruneVariable_cases _ answered with ⟨kept, -⟩ | ⟨goes, -⟩ | ⟨x, b, -, own, -⟩
  · exact kept
  · simp [plain.stays] at goes
  · cases own

theorem Plain.quiet_functions (plain : Plain v) (keepComments : Bool) : Quiet (functions keepComments []) v := by
  refine ⟨fun finished => ?_, plain.emptied⟩
  obtain ⟨r, answered, same⟩ := ofExcept_finished finished
  refine same.trans ?_
  rcases pruneFunction_cases _ answered with ⟨kept, -⟩ | ⟨goes, -⟩
  · exact kept
  · simp [plain.stays] at goes

theorem pruneEmptied_keep (kept : pruneEmptied carry v = .ok (.keep v)) : (isEmptied v).toOption ≠ some true := by
  intro emptied
  cases found : isEmptied v with
  | error => rw [found] at emptied; cases emptied
  | ok b =>
    rw [found] at emptied
    cases emptied
    rw [pruneEmptied, found] at kept
    cases kept

theorem plain_of_silent (variablesSilent : Silent (variablePass carry []) v) (functionsSilent : Silent (functions keepComments []) v)
    (apart : Apart v) : Plain v := by
  refine ⟨fun name under => ?_, pruneEmptied_keep (ofExcept_keep.mp variablesSilent.2), apart⟩
  have stays : goesBy variableKinds (Table.answers []) v = false := by
    rcases pruneVariable_cases _ (ofExcept_keep.mp variablesSilent.1) with ⟨-, stays, -⟩ | ⟨-, ⟨-, ⟨⟩⟩ | ⟨-, -, ⟨⟩⟩⟩ | ⟨_, _, -, -, ⟨⟩⟩
    exact stays
  have remains : goesBy functionKinds (Table.answers []) v = false := by
    rcases pruneFunction_cases _ (ofExcept_keep.mp functionsSilent.1) with ⟨-, stays⟩ | ⟨-, ⟨-, _, ⟨⟩⟩ | ⟨-, _, ⟨⟩⟩⟩
    exact stays
  have named := under
  simp only [prunedUnder?, mem_def] at named
  split at named
  · rename_i known
    exact (goesBy_named _ (by decide) known under).symm.trans stays
  · rename_i known
    exact (goesBy_named _ (by decide) known under).symm.trans remains
  · rename_i known
    exact (goesBy_named _ (by decide) known under).symm.trans remains
  · rename_i known
    exact (goesBy_named _ (by decide) known under).symm.trans stays
  · cases named

theorem isScope_visitedKind (es : Entries) (loose : Bool) :
    isScope (visitedKind loose es) = isScope (visitedKind false es) := by
  unfold visitedKind
  cases loose with
  | false => rfl
  | true =>
    split
    · split <;> rfl
    · rfl

theorem childFields_scope {kind key : String} (scope : isScope kind) (child : isChild (childFields kind) key) :
    key = "body" := by
  simp only [isScope, Bool.or_eq_true, beq_iff_eq] at scope
  rcases scope with rfl | rfl <;> simpa [childFields, kinds, isChild, List.lookup_cons] using child

theorem flattenNode_below (finished : (flattenNode keepComments loose (.dict es)).fault = none) (below : Below loose es l v) :
    (flattenNode keepComments l v).fault = none := by
  obtain ⟨fields, f, rfl, flat⟩ := flattenNode_finished finished
  cases below with
  | single held child node =>
    rw [flat.known] at child
    exact (flat.clean _ held child).1 node
  | listed held child inside visited =>
    rw [flat.known] at child
    rcases flatItem_cases ((flattenItems_finished ((flat.clean _ held child).2 _ rfl)).1 v inside) with ⟨hidden, -⟩ | ⟨-, fine, -⟩
    · simp [visited] at hidden
    · exact fine

theorem flat_of_plain (plain : Everywhere Plain loose v) (finished : (flattenNode keepComments loose v).fault = none) :
    Flat (fun _ => True) loose v := by
  induction loose, v using below_induction with
  | leaf loose v leaf => exact .leaf leaf
  | node loose es ih =>
    obtain ⟨fields, f, -, flat⟩ := flattenNode_finished finished
    obtain ⟨here, inside⟩ := everywhere_below.mp plain
    refine .node (by rw [flat.known]; rfl) trivial (fun l v below => ?_) (fun scope l v below => ?_)
    · exact ih l v below (inside l v below) (flattenNode_below finished below)
    · cases below with
      | single held child node => exact flattenNode_apart finished scope held child node
      | listed held child element visited =>
        obtain rfl := childFields_scope scope child
        rw [isScope_visitedKind] at scope
        exact here.apart scope _ held rfl v element

theorem Flat.apart {P : Value → Prop} (flat : Flat P loose v) : Everywhere Apart loose v := by
  induction flat with
  | leaf leaf => exact everywhere_leaf leaf
  | node known here below apart ih =>
    refine everywhere_below.mpr ⟨?_, ih⟩
    rename_i loose es
    rintro scope ⟨key, v⟩ held rfl x element
    cases v with
    | list items =>
      cases block : hasKind x "BlockStatement" with
      | false => rfl
      | true =>
        have node : isNode x := isNode_of_kind? (by simpa [hasKind] using block)
        have scope : isScope (visitedKind loose es) := by rw [isScope_visitedKind]; exact scope
        rw [← apart scope _ x (.listed held (scope_child scope).2 element (isVisited_node node)), block]
    | _ => cases element

end Plain

section Cleanup

variable {s : Settings} {p : Pass} {keepComments changed : Bool} {v tree w : Value} {es : Entries} {o : Outcome Value}

theorem run_quiet (quiet : Everywhere (Quiet p) false (.dict es)) (finished : (p.run (.dict es)).fault = none) :
    (p.run (.dict es)).value = .dict es := by
  have walked := settleRoot_finished finished
  have value := walkNode_quiet quiet walked
  rw [Pass.run, settleRoot_stays (by rw [value]; rfl), value]
  rfl

theorem run_quiet_eq (quiet : Everywhere (Quiet p) false (.dict es))
    (run : p.run (.dict es) = { value := w, changed }) : w = .dict es := by
  have same := run_quiet quiet (by rw [run])
  rw [run] at same
  exact same

section

variable (unflagged : Unflagged s (.dict es))
include unflagged

theorem Unflagged.unmark (finished : (Flag.unmark.run (.dict es)).fault = none) : (Flag.unmark.run (.dict es)).value = .dict es := by
  refine run_quiet (unflagged.free.imp fun v free => ⟨fun fine => ?_, fun _ => rfl⟩) finished
  rcases unmark_cases fine with ⟨-, kept⟩ | ⟨marked, -⟩
  · exact kept
  · rw [free.2] at marked
    cases marked

theorem Unflagged.replaceChecks (finished : (Flag.replaceChecks s (.dict es)).fault = none) : (Flag.replaceChecks s (.dict es)).value = .dict es := by
  obtain ⟨ms, listed, run⟩ := replaceChecks_finished finished
  rw [run] at finished ⊢
  exact run_quiet ((checks_faithful listed).2.quiet unflagged.free) finished

theorem Unflagged.reduced {simple reduced : Value} {first second : Bool}
    (simplified : simplifyOperators (.dict es) = { value := simple, changed := first })
    (taken : conditionals.run simple = { value := reduced, changed := second }) : simple = .dict es ∧ reduced = .dict es := by
  obtain rfl := run_quiet_eq ((operators_faithful s).2.quiet unflagged.free) simplified
  exact ⟨rfl, run_quiet_eq ((conditionals_faithful s).quiet unflagged.free) taken⟩

theorem Unflagged.found {fs : Table} (returned : (do redundantFunctions (← singleReturns (.dict es)) (.dict es)) = .ok fs) : fs = [] := by
  obtain ⟨single, -, found⟩ := bind_cases returned
  exact unflagged.functions found

theorem Unflagged.round (plain : Everywhere Plain false (.dict es)) (run : RoundRun keepComments (.dict es) o) : o.value = .dict es := by
  obtain ⟨simplified, taken, flattened, written, cleared, returned, called⟩ := run
  obtain ⟨rfl, rfl⟩ := unflagged.reduced simplified taken
  obtain ⟨done, -⟩ := flattenBlocks_done flattened
  rw [(flat_of_plain plain (by rw [done]; rfl)).flattenNode] at done
  cases done
  obtain rfl := unflagged.variables written
  obtain rfl := run_quiet_eq (plain.imp fun v plain => plain.quiet_variables (.ofOption keepComments)) cleared
  obtain rfl := unflagged.found returned
  exact run_quiet_eq (plain.imp fun v plain => plain.quiet_functions keepComments) called

theorem Unflagged.plain (parsed : Parsed (.dict es)) (run : RoundRun keepComments (.dict es) o) (still : weight (.dict es) ≤ weight o.value) :
    Everywhere Plain false (.dict es) := by
  obtain ⟨simplified, taken, flattened, written, cleared, returned, called⟩ := run
  obtain ⟨rfl, rfl⟩ := unflagged.reduced simplified taken
  obtain ⟨done, -⟩ := flattenBlocks_done flattened
  obtain ⟨parsedFlat, flatter, -⟩ := flattenBlocks_parsed parsed flattened
  obtain ⟨parsedPruned, pruned, keepsPruned⟩ := (variablePass_edits _ _).run_parsed parsedFlat cleared
  obtain ⟨-, final, keepsFinal⟩ := (functions_edits _ _).run_parsed parsedPruned called
  dsimp only at still
  have fine : (flattenNode keepComments false (.dict es)).fault = none := by rw [done]; rfl
  have flat := flattenNode_still fine (by rw [done]; exact Nat.le_trans still (Nat.le_trans final pruned))
  rw [flat.flattenNode] at done
  cases done
  obtain rfl := unflagged.variables written
  obtain ⟨variablesSilent, rfl, -⟩ := keepsPruned flat (by omega)
  obtain rfl := unflagged.found returned
  obtain ⟨functionsSilent, -, -⟩ := keepsFinal flat still
  exact fun parent n reached => plain_of_silent (variablesSilent parent n reached) (functionsSilent parent n reached)
    (flat.apart parent n reached)

end

theorem unmark_parsed (parsed : Parsed tree) (finished : (unmark.run tree).fault = none) :
    weight (unmark.run tree).value ≤ weight tree := by
  have rooted (v : Value) (root : kind? v = some "Program") (fine : (unmark.enter v).fault = none) : (unmark.enter v).action = .keep := by
    rcases unmark_cases fine with ⟨-, kept⟩ | ⟨marked, -⟩
    · rw [kept]
      rfl
    · simp [isMark, hasKind, root] at marked
  obtain ⟨es, rfl⟩ := dict_of_kind? parsed.root
  obtain ⟨fine, left, -⟩ := run_root parsed.root (thoroughly_self parsed.regular).once rooted (fun _ _ _ => ⟨rfl, rfl⟩) finished
  have remains := walkAt_remains (R := fun _ v ys => (ys.map weight).sum ≤ weight v) frames_regular (by simp) (fun _ es fine => ?_)
    (fun _ _ _ => Nat.le_refl _) parsed.regular fine
  · have lighter := remains.lighter fun _ _ _ => id
    rw [left] at lighter
    simpa using lighter
  · rcases unmark_cases fine with ⟨-, kept⟩ | ⟨-, put⟩
    · rw [kept]
      exact Nat.le_refl _
    · rw [put]
      exact weight_erase_marker es

theorem run_strict_scalar (strict : p.strict) (leaf : ∀ es, v ≠ .dict es) : (p.run v).value = v := by
  have run : p.run v = if truthy v then .stop v (.unknownKind "null") else .done v := by
    cases v <;> first | exact (leaf _ rfl).elim | simp only [Pass.run, strict, if_true]
  rw [run]
  split <;> rfl

theorem cleanup_scalar (leaf : ∀ es, tree ≠ .dict es) (finished : (cleanup s tree).fault = none) :
    (cleanup s tree).tree = tree := by
  obtain ⟨checked, clean, unmarked, value⟩ := cleanup_finished finished
  obtain ⟨ms, listed, run⟩ := replaceChecks_finished checked
  have kept (v : Value) (leaf : ∀ es, v ≠ .dict es) (start : (replaceChecks s tree).value = v) :
      (cleanupRounds s tree).tree = v :=
    rounds_invariant (P := (· = v)) (by rintro _ o rfl run; rw [run.scalar leaf]; rfl) start clean
  by_cases isList : ∃ items, tree = .list items
  · obtain ⟨items, rfl⟩ := isList
    obtain ⟨items', left⟩ := run_list (checks_edits listed).lenient items
    rw [kept (.list items') (by rintro _ ⟨⟩) (by rw [run, left])] at unmarked
    cases unmarked
  · have single (items : List Value) (whole : tree = .list items) : False := isList ⟨items, whole⟩
    have start : (replaceChecks s tree).value = tree := by
      rw [run] at checked ⊢
      generalize made : (checks s ms).run tree = o at checked ⊢
      obtain ⟨w, changed, fault⟩ := o
      cases checked
      exact (run_scalar (checks_edits listed).lenient leaf single made).1.symm
    rw [value, kept tree leaf start, run_strict_scalar rfl leaf]

theorem Unflagged.stays (unflagged : Unflagged s (.dict es)) (finished : (cleanup s (.dict es)).fault = none)
    (calm : roundLimit s.maxSteps = 0 ∨ Everywhere Plain false (.dict es)) : (cleanup s (.dict es)).tree = .dict es := by
  obtain ⟨checked, clean, unmarked, value⟩ := cleanup_finished finished
  have start := unflagged.replaceChecks checked
  have same : (cleanupRounds s (.dict es)).tree = .dict es := by
    rcases calm with none | plain
    · rw [cleanupRounds, none]
      exact start
    · exact rounds_invariant (P := (· = .dict es)) (by rintro _ o rfl run; exact unflagged.round plain run) start clean
  rw [same] at unmarked value
  rw [value, unflagged.unmark unmarked]

theorem Unflagged.plain_of_same (unflagged : Unflagged s (.dict es)) (finished : (cleanup s (.dict es)).fault = none)
    (parsed : Parsed (.dict es)) (some : roundLimit s.maxSteps ≠ 0) (same : (cleanup s (.dict es)).tree = .dict es) :
    Everywhere Plain false (.dict es) := by
  obtain ⟨checked, clean, unmarked, value⟩ := cleanup_finished finished
  obtain ⟨limit, allowed⟩ := Nat.exists_eq_succ_of_ne_zero some
  have reached : cleanupRounds s (.dict es) =
      rounds s.keepComments limit (Rounds.next s.keepComments ⟨.dict es, 0, true, none⟩) := by
    rw [cleanupRounds, allowed, unflagged.replaceChecks checked, checked]
    exact rounds_succ _ _
  rw [reached] at clean
  have first := round_run (rounds_finished clean)
  obtain ⟨parsedNext, -⟩ := first.lighter parsed
  obtain ⟨parsedEnd, lighter⟩ := rounds_invariant
    (P := fun t => Parsed t ∧ weight t ≤ weight (Flag.round s.keepComments (.dict es)).value)
    (by
      rintro t o ⟨parsed, lighter⟩ run
      obtain ⟨parsedNext, -, final, middle⟩ := run.lighter parsed
      exact ⟨parsedNext, Nat.le_trans final (Nat.le_trans middle lighter)⟩)
    ⟨parsedNext, Nat.le_refl _⟩ clean
  rw [← reached] at parsedEnd lighter
  have lightest := unmark_parsed parsedEnd unmarked
  rw [← value, same] at lightest
  exact unflagged.plain parsed first (Nat.le_trans lightest lighter)

end Cleanup

/-- A script that neither checks the flag nor holds a marked literal comes out as it went in, its comments included,
if every node is plain or no round is run; for a parsed script, only then. -/
theorem unflagged_script_stays (s : Settings) (tree : Value) (unflagged : Unflagged s tree)
    (finished : (cleanup s tree).fault = none) :
    (roundLimit s.maxSteps = 0 ∨ Everywhere Plain false tree → (cleanup s tree).tree = tree) ∧
      (Parsed tree → ((cleanup s tree).tree = tree ↔ roundLimit s.maxSteps = 0 ∨ Everywhere Plain false tree)) := by
  by_cases table : ∃ es, tree = .dict es
  · obtain ⟨es, rfl⟩ := table
    refine ⟨unflagged.stays finished, fun parsed => ⟨fun same => ?_, unflagged.stays finished⟩⟩
    by_cases none : roundLimit s.maxSteps = 0
    · exact Or.inl none
    · exact Or.inr (unflagged.plain_of_same finished parsed none same)
  · have leaf (es : Entries) (whole : tree = .dict es) : False := table ⟨es, whole⟩
    have same := cleanup_scalar leaf finished
    exact ⟨fun _ => same, fun _ => ⟨fun _ => Or.inr (everywhere_leaf leaf), fun _ => same⟩⟩

def block (statements : List Value) : Value := .dict [("type", .str "BlockStatement"), ("body", .list statements)]

def otherScript : Value :=
  let check : Value :=
    .dict [("type", .str "CallExpression"), ("callee", identifier "isTreated"), ("arguments", .list [identifier "other"])]
  let comment : Value := .dict [("type", .str "Line"), ("value", .str "on"), ("leading", .bool true)]
  script [conditional check (block [(statement (identifier "f")).set "comments" (.list [comment])])
    (block [statement (identifier "g")])]

theorem otherScript_stays :
    Unflagged (settingsFor true (some (.int 3))) otherScript ∧
      (cleanup (settingsFor true (some (.int 3))) otherScript).fault = none ∧
      (cleanup (settingsFor true (some (.int 3))) otherScript).tree = otherScript :=
  ⟨by decide +kernel, by decide +kernel,
    (unflagged_script_stays (settingsFor true (some (.int 3))) otherScript (by decide +kernel) (by decide +kernel)).1
      (Or.inr (everywhere_of_parent none (by decide +kernel)))⟩

def declaration (declarators : List Value) : Value :=
  .dict [("type", .str "VariableDeclaration"), ("declarations", .list declarators)]

def Altered (s : Settings) (tree : Value) : Prop :=
  Unflagged s tree ∧ Parsed tree ∧ (cleanup s tree).fault = none ∧ (cleanup s tree).tree ≠ tree

instance (s : Settings) (tree : Value) : Decidable (Altered s tree) :=
  inferInstanceAs (Decidable (Unflagged s tree ∧ Parsed tree ∧ (cleanup s tree).fault = none ∧ (cleanup s tree).tree ≠ tree))

/-- A block in the script, a variable under a name that every table answers to and a declaration of nothing do not stay. -/
theorem unflagged_scripts_change :
    Altered (settingsFor true (some (.int 1))) (script [block [statement (identifier "f")]]) ∧
      Altered (settingsFor true (some (.int 1))) (script [declaration [.dict [("type", .str "VariableDeclarator"),
        ("id", identifier "toString"), ("init", identifier "f")]]]) ∧
      Altered (settingsFor true (some (.int 1))) (script [declaration []]) := by
  decide +kernel

end Rulewright.Flag
