import Rulewright.Proofs.Flag.Standard

/-!
The clean-up and standards. Every pass keeps a script to a standard if it leaves no hole, and none of them leaves one in a firm
script (`Tame.run_firm`).
-/

open List

namespace Rulewright.Flag

open Value

section Flattening

variable {std : Standard} {f : Flattening} {keepComments loose : Bool} {kind key : String} {fields : List String}
  {v w : Value} {es : Entries}

theorem flattenNode_kindName (finished : (flattenNode keepComments loose v).fault = none) :
    kindName (flattenNode keepComments loose v).value = kindName v := by
  rw [kindName, flattenNode_kind? finished, kindName]

theorem flatField_kindName (flat : FieldFlat f kind fields (key, v)) :
    kindName (flatField f kind fields key v) = kindName v := by
  rcases flatField_cases flat with ⟨same, -⟩ | ⟨-, ⟨-, fine, same⟩ | ⟨items, rfl, -, same⟩⟩ <;> rw [same]
  · exact flattenNode_kindName fine
  · rfl

theorem flattenNode_outline (finished : (flattenNode keepComments loose v).fault = none) :
    outline (flattenNode keepComments loose v).value = outline v := by
  cases v with
  | dict es =>
    obtain ⟨es', whole⟩ := flattenNode_dict finished
    obtain ⟨fields, f, -, flat⟩ := flattenNode_finished finished
    have null : ((flattenNode keepComments loose (.dict es)).value == .null) = (dict es == .null) := by
      rw [whole]
      rfl
    rw [outline, outline, null, flattenNode_kindName finished, flat.part_eq (by decide), flatField_kindName (flat.field _)]
  | _ => rfl

theorem flatItem_complete (complete : Everywhere (Complete std) false v)
    (inside : (flattenNode f.keepComments loose v).fault = none →
      Everywhere (Complete std) false (flattenNode f.keepComments loose v).value)
    (finished : (flatItem f loose v).fault = none) :
    ∀ x ∈ (flatItem f loose v).value.parts, Everywhere (Complete std) false x ∧
      (std.statement (outline v) → std.statement (outline x)) := by
  intro x member
  rcases flatItem_cases finished with ⟨-, same⟩ | ⟨-, clean, ⟨-, same⟩ | ⟨-, block, items, stated, alike⟩⟩
  · rw [same, mem_singleton] at member
    subst member
    exact ⟨complete, id⟩
  · rw [same, mem_singleton] at member
    subst member
    exact ⟨inside clean, fun statement => by rwa [flattenNode_outline clean]⟩
  · have whole := inside clean
    have kind : kind? (flattenNode f.keepComments loose v).value = some "BlockStatement" := by
      simpa [hasKind] using block
    obtain ⟨es, same⟩ := dict_of_kind? kind
    rw [same] at whole stated kind
    have listed : "body" ∈ fieldsIn statementLists (.dict es) := by
      rw [fieldsIn, kindName_of_kind? kind]
      decide
    obtain ⟨items', body, statements⟩ := everywhere_statements whole listed
    obtain rfl : items' = items := by simpa [statementsOf, field?_of_list body] using stated
    obtain ⟨y, element, likewise⟩ := mem_map.mp (alike ▸ mem_map_of_mem member)
    obtain ⟨complete, statement⟩ := statements y element
    exact ⟨everywhere_of_bare likewise complete, fun _ => outline_of_bare likewise ▸ statement⟩

end Flattening

@[mk_iff]
structure Regular (v : Value) : Prop where
  typed : v.field? "type" = (kind? v).map .str
  once : ((entriesOf v).map Prod.fst).count "body" ≤ 1
  operator : kind? v = some "LogicalExpression" →
    v.field? "operator" = some (.str "&&") ∨ v.field? "operator" = some (.str "||")
  operands : kind? v = some "LogicalExpression" → (v.field? "left").isSome = true ∧ (v.field? "right").isSome = true
  branch : kind? v = some "IfStatement" ∨ kind? v = some "ConditionalExpression" → (v.field? "consequent").isSome = true
  truth : isMark v = true → (truth? (some v)).isSome = true

instance (v : Value) : Decidable (Regular v) := decidable_of_iff _ (regular_iff ..).symm

def replaceable : List String := ["CallExpression", "Identifier", "LogicalExpression", "UnaryExpression"]

def Spent (v : Value) : Prop :=
  (yielding ++ droppable).contains (kindName v) = true ∨
    kind? v = some "ExpressionStatement" ∧ kind? (part v "expression") = some "AssignmentExpression"

/-- What a visit may answer. Only on the way up it may put a branch in the node's place, or report a change that it did not make. -/
inductive Edit (v : Value) : Bool → Reply → Prop where
  | keep {up : Bool} : Edit v up (.keep v)
  | stir (irregular : ¬(Regular v ∧ ∀ key ∈ fieldsIn branches v, Regular (part v key))) : Edit v true { node := v, changed := true }
  | literal {up : Bool} {kind : String} (known : kind? v = some kind) (listed : kind ∈ replaceable) (b : Bool) :
      Edit v up (.put v (Flag.literal b))
  | branch {node w : Value} {key : String} (branch : Branch v key w)
      (marks : kind? v = some "IfStatement" → isMark (part v "test") = true) : Edit v true (.put node w)
  | drop {up : Bool} {carry : Carry} (spent : Spent v)
      (vacant : fieldsIn branches v = [] ∨ ∃ key ∈ fieldsIn branches v, part v key = .null) : Edit v up (.drop v carry)

structure Edits (p : Pass) : Prop where
  lenient : p.strict = false
  enter {v : Value} : (p.enter v).fault = none → Edit v false (p.enter v)
  leave {v : Value} : (p.leave v).fault = none → Edit v true (p.leave v)

section Tame

variable {std : Standard} {v w : Value} {r : Reply} {p : Pass} {kind : String} {up : Bool}

theorem complete_literal (made : kind? v = some "Literal") (once : ((entriesOf v).map Prod.fst).count "body" ≤ 1) :
    Complete std v := by
  have kind := kindName_of_kind? made
  have none {table : List (String × List String)} (unlisted : table.lookup "Literal" = none) : fieldsIn table v = [] := by
    rw [fieldsIn, kind, unlisted, Option.getD_none]
  refine ⟨⟨?_, once, ?_, ?_, ?_⟩, fun e _ child => ?_⟩
  · rw [kind]
    decide
  · simp [none (show branches.lookup "Literal" = Option.none by decide)]
  · simp [none std.literals]
  · simp [none (show statementLists.lookup "Literal" = Option.none by decide)]
  · rw [kind] at child
    cases child

theorem verdict_literal (known : kind? v = some kind) (inner : kind ≠ "Program") (b : Bool) :
    Verdict std v (.put (literal b)) :=
  .put (by rw [known]; simpa using inner) rfl (complete_literal rfl (by cases b <;> decide))

theorem Spent.fleeting (spent : Spent v) : (outline v).isSteady = false := by
  rcases spent with listed | ⟨known, assigns⟩
  · rw [Outline.isSteady, outline, listed]
    rfl
  · simp [Outline.isSteady, outline, kindName_of_kind? known, kindName_of_kind? assigns]

theorem spent_of_kind (known : kind? v = some kind) (listed : (yielding ++ droppable).contains kind) : Spent v :=
  Or.inl (by rw [kindName_of_kind? known]; exact listed)

theorem Edit.verdict (edit : Edit v up r) : Verdict std v r.action ∧ (r.action = .keep → r.node = v) ∨
    up = true ∧ ∃ w key, r.action = .put w ∧ Branch v key w := by
  cases edit with
  | keep => exact .inl ⟨.keep, fun _ => rfl⟩
  | stir => exact .inl ⟨.keep, fun _ => rfl⟩
  | literal known listed b =>
    have inner : ∀ kind ∈ replaceable, kind ≠ "Program" := by decide
    exact .inl ⟨verdict_literal known (inner _ listed) b, by rintro ⟨⟩⟩
  | branch branch => exact .inr ⟨rfl, _, _, rfl, branch⟩
  | drop spent => exact .inl ⟨.drop spent.fleeting, by rintro ⟨⟩⟩

theorem Edits.tame (edits : Edits p) : Tame std p where
  enter _ finished := ((edits.enter finished).verdict.resolve_right (by simp)).1
  leave finished := (edits.leave finished).verdict.imp_right And.right

theorem Edit.drop_of_kind (known : kind? v = some kind)
    (listed : kind ∈ ["VariableDeclaration", "VariableDeclarator", "FunctionDeclaration"]) (carry : Carry) :
    Edit v up (.drop v carry) := by
  have both : ∀ kind ∈ ["VariableDeclaration", "VariableDeclarator", "FunctionDeclaration"],
      (yielding ++ droppable).contains kind ∧ (branches.lookup kind).getD [] = [] := by decide
  obtain ⟨spent, single⟩ := both kind listed
  exact .drop (spent_of_kind known spent) (Or.inl (by rw [fieldsIn, kindName_of_kind? known, single]))

theorem checks_edits {s : Settings} {ms : Methods} (listed : methods s.properties = .ok ms) : Edits (checks s ms) where
  lenient := rfl
  enter := by
    intro v finished
    refine ofExcept_elim finished fun r answered => ?_
    rcases replaceCheck_cases listed _ answered with ⟨b, call, -, rfl⟩ | ⟨-, rfl⟩
    · exact .literal call (by decide) b
    · exact .keep
  leave := fun _ => .keep

theorem reduceLogical_some {x other operator : Option Value} (connects : operator = some (.str "&&") ∨ operator = some (.str "||"))
    (truth : (truth? x).isSome) (present : other.isSome) : reduceLogical x other operator ≠ none := by
  obtain ⟨b, truth⟩ := Option.isSome_iff_exists.mp truth
  obtain ⟨w, rfl⟩ := Option.isSome_iff_exists.mp present
  rcases connects with rfl | rfl <;> cases b <;> simp [reduceLogical, truth]

theorem operators_edits : Edits operators where
  lenient := rfl
  enter := fun _ => .keep
  leave := by
    intro v finished
    refine ofExcept_elim finished fun r answered => ?_
    rcases reduceOperator_cases _ answered with rfl | ⟨known, key, other, sides, marked, outcome⟩ | ⟨known, -, -, b, -, rfl⟩
    · exact .keep
    · have listed : key ∈ fieldsIn branches v ∧ other ∈ fieldsIn branches v := by
        rw [fieldsIn, kindName_of_kind? known]
        rcases sides with ⟨rfl, rfl⟩ | ⟨rfl, rfl⟩ <;> decide
      rcases outcome with ⟨nothing, rfl⟩ | ⟨w, reduced, rfl⟩
      · refine .stir ?_
        rintro ⟨regular, parts⟩
        refine reduceLogical_some (regular.operator known) ((parts key listed.1).truth marked) ?_ nothing
        rcases sides with ⟨-, rfl⟩ | ⟨-, rfl⟩
        · exact (regular.operands known).2
        · exact (regular.operands known).1
      · rcases reduceLogical_left reduced with ⟨b, rfl⟩ | held
        · exact .literal known (by decide) b
        · have other : kind? v ≠ some "IfStatement" := by simp [known]
          exact .branch ⟨listed.2, by rw [part, held, Option.getD_some], fun conditional => (other conditional).elim⟩
            fun conditional => (other conditional).elim
    · exact .literal known (by decide) _

theorem branchField_listed (conditional : kind? v = some "IfStatement" ∨ kind? v = some "ConditionalExpression") (b : Bool) :
    branchField b ∈ fieldsIn branches v := by
  rcases conditional with known | known <;> rw [fieldsIn, kindName_of_kind? known] <;> cases b <;> decide

theorem conditionals_edits : Edits conditionals where
  lenient := rfl
  enter := fun _ => .keep
  leave := by
    intro v finished
    obtain ⟨r, answered, same⟩ := ofExcept_finished finished
    have clean : r.fault = none := by rw [← same]; exact finished
    simp only [conditionals]
    rw [same]
    rcases reduceConditional_cases _ answered with rfl | ⟨conditional, marked, b, -, ⟨rfl, chosen⟩ | ⟨rfl, missing⟩⟩
    · exact .keep
    · rcases takeBranch_reply clean with ⟨missing, reply⟩ | ⟨node, w, reply, alike⟩
      · rw [reply]
        refine .stir fun regular => ?_
        cases b with
        | true =>
          have present := regular.1.branch conditional
          rw [show branchField true = "consequent" from rfl] at missing
          simp [missing] at present
        | false =>
          rw [show branchField false = "alternate" from rfl] at missing
          exact chosen rfl (by rw [part, missing]; rfl)
      · rw [reply]
        refine .branch ⟨branchField_listed conditional b, alike, fun _ alternate => ?_⟩ fun _ => marked
        cases b with
        | true => simp [branchField] at alternate
        | false => exact chosen rfl
    · refine .drop ?_ (Or.inr ⟨branchField b, branchField_listed conditional b, missing⟩)
      rcases conditional with known | known <;> exact spent_of_kind known (by decide)

theorem pruneEmptied_edit {carry : Carry} (finished : (Reply.ofExcept v (pruneEmptied carry v)).fault = none) :
    Edit v up (Reply.ofExcept v (pruneEmptied carry v)) := by
  refine ofExcept_elim finished fun r answered => ?_
  rcases pruneEmptied_cases _ answered with rfl | ⟨known, -, rfl⟩
  · exact .keep
  · exact .drop_of_kind known (by decide) carry

theorem variablePass_edits (carry : Carry) (t : Table) : Edits (variablePass carry t) where
  lenient := rfl
  enter := by
    intro v finished
    refine ofExcept_elim finished fun r answered => ?_
    rcases pruneVariable_cases _ answered with ⟨rfl, -⟩ | ⟨-, ⟨known, rfl⟩ | ⟨known, assigns, rfl⟩⟩ | ⟨x, b, named, -, rfl⟩
    · exact .keep
    · exact .drop_of_kind known (by decide) .nothing
    · exact .drop (Or.inr ⟨known, assigns⟩) (Or.inl (by rw [fieldsIn, kindName_of_kind? known]; decide))
    · exact .literal (kind?_of_name? named) (by decide) b
  leave := pruneEmptied_edit

theorem functions_edits (keepComments : Bool) (t : Table) : Edits (functions keepComments t) where
  lenient := rfl
  enter := by
    intro v finished
    refine ofExcept_elim finished fun r answered => ?_
    rcases pruneFunction_cases _ answered with ⟨rfl, -⟩ | ⟨-, ⟨known | known, carry, rfl⟩ | ⟨known, b, rfl⟩⟩
    · exact .keep
    · exact .drop_of_kind known (by decide) carry
    · exact .drop_of_kind known (by decide) carry
    · exact .literal known (by decide) b
  leave := pruneEmptied_edit

theorem unmark_tame : Tame std unmark where
  enter := by
    intro v complete finished
    rcases unmark_cases finished with ⟨-, same⟩ | ⟨mark, put⟩
    · rw [same]
      exact .keep
    · rw [put]
      have known : kind? v = some "Literal" := by simpa [hasKind] using (Bool.and_eq_true_iff.mp mark).1
      obtain ⟨es, rfl⟩ := dict_of_kind? known
      have made : kind? ((dict es).unset marker) = some "Literal" := by
        rw [kind?, unset, field?, Entries.get?_erase_ne _ (by decide)]
        exact known
      refine .put (by simp [known]) made (complete_literal made ?_)
      have once : (es.map Prod.fst).count "body" ≤ 1 := complete.once
      refine Nat.le_trans (List.Sublist.count_le "body" ?_) once
      exact filter_sublist.map Prod.fst
  leave := fun _ => Or.inl ⟨.keep, fun _ => rfl⟩

end Tame

def nullable : List String := ["ConditionalExpression", "LogicalExpression"]

def firm : Standard where
  fields :=
    [("IfStatement", ["consequent", "alternate"]), ("ForStatement", ["body"]), ("WhileStatement", ["body"]),
      ("DoWhileStatement", ["body"]), ("LabeledStatement", ["body"]), ("ForInStatement", ["left", "body"]),
      ("ForOfStatement", ["left", "body"])]
  child key o := if key == "alternate" then !nullable.contains o.kind else !o.isNull && o.isSteady
  statement o := !o.isNull && !nullable.contains o.kind
  children := by decide
  literals := by decide
  lists key := by
    have alternate : (!nullable.contains (outline (.list [])).kind) = true := by decide
    have steady : (!(outline (.list [])).isNull && (outline (.list [])).isSteady) = true := by decide
    simp only [alternate, steady, ite_self]

section Firm

variable {std : Standard} {p : Pass} {loose : Bool} {es es' : Entries} {v c x tree : Value} {key : String}

theorem branches_yielding (listed : key ∈ fieldsIn branches v) : yielding.contains (kindName v) :=
  fieldsIn_all (Q := fun kind _ => yielding.contains kind) (by decide) listed

theorem Tame.slot_kindName (tame : Tame std p) (complete : Everywhere (Complete std) loose c)
    (finished : (walkNode p loose c).fault = none) (own : yielding.contains (kindName c) = false) :
    kindName (walkNode p loose c).value.slot ∈ [kindName c, "Literal", ""] := by
  cases c with
  | dict es =>
    have self := everywhere_self complete
    have ending := tame.ending self finished
    generalize (walkNode p loose (.dict es)).value = w at ending ⊢
    cases ending with
    | stay after => simp [Walked.slot, Walked.left?, after.kindName self.toSound]
    | put _ _ made => simp [Walked.slot, Walked.left?, kindName_of_kind? made]
    | branch _ after branch =>
      have yields := branches_yielding branch.listed
      rw [after.kindName self.toSound, own] at yields
      cases yields
    | drop => simp [Walked.slot, Walked.left?, kindName, kind?, field?]
  | _ => simp [walkNode, Outcome.done]

theorem Tame.part_kindName (tame : Tame std p) (complete : Everywhere (Complete std) loose (.dict es)) (after : After p bare loose es es')
    (child : isChild (childFields (kindName (.dict es))) key) (own : yielding.contains (kindName (part (.dict es) key)) = false) :
    kindName (part (.dict es') key) ∈ [kindName (part (.dict es) key), "Literal", ""] := by
  obtain ⟨sound, children⟩ := everywhere_complete.mp complete
  by_cases listed : ∃ items, part (.dict es) key = .list items
  · obtain ⟨items, held⟩ := listed
    obtain ⟨left, found, -⟩ := after.list sound child held
    rw [found, held]
    exact mem_cons_self
  · obtain ⟨clean, found⟩ := after.part (by rwa [sound.visitedKind]) fun items held => listed ⟨items, held⟩
    rw [found]
    cases node : isNode (part (.dict es) key) with
    | true =>
      rw [walkItem_node node] at clean ⊢
      exact tame.slot_kindName (children _ (mem_of_isNode_part node) child).1 clean own
    | false =>
      rw [walkItem_leaf node]
      exact mem_cons_self

theorem Tame.after_steady (tame : Tame std p) (complete : Everywhere (Complete std) loose (.dict es))
    (after : After p bare loose es es') (steady : (outline (.dict es)).isSteady) :
    (outline (.dict es')).isSteady := by
  obtain ⟨sound, children⟩ := everywhere_complete.mp complete
  simp only [Outline.isSteady, outline, Bool.and_eq_true, Bool.or_eq_true, bne_iff_ne] at steady ⊢
  rw [after.kindName sound]
  refine ⟨steady.1, ?_⟩
  by_cases statement : kindName (.dict es) = "ExpressionStatement"
  · refine Or.inr ?_
    have expression := steady.2.resolve_left (fun other => other statement)
    simp only [contains_cons, Bool.not_eq_true', Bool.or_eq_false_iff] at expression
    have kind := tame.part_kindName complete after (by rw [statement]; decide) expression.2
    simp only [mem_cons, not_mem_nil, or_false] at kind
    rcases kind with same | made | gone
    · rw [same]
      simpa using expression
    · rw [made]
      decide
    · rw [gone]
      decide
  · exact Or.inl statement

theorem Tame.steady_left (tame : Tame std p) (complete : Everywhere (Complete std) loose v) (node : isNode v)
    (finished : (walkNode p loose v).fault = none) (steady : (outline v).isSteady) :
    (outline (walkNode p loose v).value.slot).isSteady ∧ (walkNode p loose v).value.slot ≠ .null := by
  obtain ⟨es, rfl⟩ := isNode_dict node
  have self := everywhere_self complete
  have ending := tame.ending self finished
  generalize (walkNode p loose (.dict es)).value = w at ending ⊢
  cases ending with
  | stay after => exact ⟨tame.after_steady complete after steady, by rintro ⟨⟩⟩
  | put _ _ made whole =>
    obtain ⟨es', rfl⟩ := isNode_dict whole.isNode
    simp [Walked.slot, Walked.left?, Outline.isSteady, outline, kindName_of_kind? made, yielding, branches, droppable]
  | branch _ after branch =>
    have yields := branches_yielding branch.listed
    rw [after.kindName self.toSound] at yields
    simp [Outline.isSteady, outline] at steady yields
    exact (steady.1.1 yields).elim
  | drop fleeting =>
    rcases fleeting with fleeting | ⟨es', after, fleeting⟩
    · simp [steady] at fleeting
    · simp [tame.after_steady complete after steady] at fleeting

theorem firm_statement_iff : firm.statement (outline v) ↔ v ≠ .null ∧ kindName v ∉ nullable := by
  simp [firm, outline]

theorem steady_statement (steady : (outline v).isSteady) (present : v ≠ .null) :
    firm.statement (outline v) := by
  refine firm_statement_iff.mpr ⟨present, fun listed => ?_⟩
  have yields : kindName v ∈ yielding := (by decide : ∀ kind ∈ nullable, kind ∈ yielding) _ listed
  simp [Outline.isSteady, outline, yields] at steady

theorem firm_child_iff : firm.child key (outline v) ↔
    if key = "alternate" then kindName v ∉ nullable else v ≠ .null ∧ (outline v).isSteady := by
  by_cases alternate : key = "alternate" <;> simp [firm, alternate, outline]

theorem isNode_ne_null (node : isNode v) : v ≠ .null := by
  rintro rfl
  cases node

theorem branch_of_statement (statement : firm.statement (outline v)) (listed : key ∈ fieldsIn branches v) :
    kindName v = "IfStatement" ∧ key ∈ fieldsIn firm.fields v ∧ (key = "consequent" ∨ key = "alternate") := by
  have kind : kindName v = "IfStatement" := by
    have yields := branches_yielding listed
    have plain := (firm_statement_iff.mp statement).2
    simp only [yielding, branches, nullable] at yields plain
    simp_all
  refine ⟨kind, ?_⟩
  rw [fieldsIn, kind] at listed ⊢
  have both : (branches.lookup "IfStatement").getD [] = ["consequent", "alternate"] := by decide
  rw [both] at listed
  refine ⟨?_, by simpa using listed⟩
  exact listed

theorem Tame.statement_left (tame : Tame firm p) (complete : Everywhere (Complete firm) false v)
    (finished : (walkItem p false v).fault = none) (statement : firm.statement (outline v))
    (remains : (walkItem p false v).value.left? = some x) : firm.statement (outline x) := by
  induction v using node_induction generalizing x with
  | leaf v leaf =>
    have other : isNode v = false := by
      cases node : isNode v with
      | false => rfl
      | true =>
        obtain ⟨es, rfl⟩ := isNode_dict node
        exact (leaf es rfl).elim
    rw [walkItem_leaf other] at remains
    cases remains
    exact statement
  | node es single _ =>
    have self := everywhere_self complete
    obtain ⟨sound, children⟩ := everywhere_complete.mp complete
    rw [walkItem_node self.isNode] at finished remains
    have ending := tame.ending self finished
    generalize (walkNode p false (.dict es)).value = walked at ending remains
    cases ending with
    | stay after =>
      cases remains
      refine firm_statement_iff.mpr ⟨by rintro ⟨⟩, ?_⟩
      rw [after.kindName sound]
      exact (firm_statement_iff.mp statement).2
    | put _ _ made whole =>
      cases remains
      refine firm_statement_iff.mpr ⟨isNode_ne_null whole.isNode, ?_⟩
      rw [kindName_of_kind? made]
      decide
    | drop => cases remains
    | @branch es' _ _ key _ after branch =>
      cases remains
      obtain ⟨listed, clean, alike⟩ := branch.before after sound
      obtain ⟨kind, watched, which⟩ := branch_of_statement statement listed
      have fits := firm_child_iff.mp (sound.fields key watched)
      rw [outline_of_bare alike]
      have whole (node : isNode (part (.dict es) key)) : Everywhere (Complete firm) false (part (.dict es) key) :=
        (children _ (mem_of_isNode_part node) (branches_child listed).1).1
      rcases which with rfl | rfl
      · cases node : isNode (part (.dict es) "consequent") with
        | true =>
          rw [walkItem_node node] at clean ⊢
          obtain ⟨steady, present⟩ := tame.steady_left (whole node) node clean fits.2
          exact steady_statement steady present
        | false =>
          rw [walkItem_leaf node]
          exact steady_statement fits.2 fits.1
      -- the alternate may be a chain of conditionals, so it is left as a statement by induction
      · have present := branch.chosen (after.kind? (by rw [sound.kind?.1, kind])) rfl
        rw [(after.branch sound listed).2] at present
        cases node : isNode (part (.dict es) "alternate") with
        | true =>
          have inner := firm_statement_iff.mpr ⟨isNode_ne_null node, fits⟩
          cases left : (walkItem p false (part (.dict es) "alternate")).value.left? with
          | none => simp [Walked.slot, left] at present
          | some x =>
            rw [Walked.slot, left]
            exact single _ _ (mem_of_isNode_part node) (whole node) clean inner left
        | false =>
          rw [walkItem_leaf node] at present ⊢
          exact firm_statement_iff.mpr ⟨present, fits⟩

theorem Tame.firm_child (tame : Tame firm p) (complete : Everywhere (Complete firm) loose (.dict es)) (after : After p bare loose es es')
    (watched : key ∈ fieldsIn firm.fields (.dict es)) : firm.child key (outline (walkItem p false (part (.dict es) key)).value.slot) := by
  obtain ⟨sound, children⟩ := everywhere_complete.mp complete
  have child := (Standard.fields_child watched).1
  cases node : isNode (part (.dict es) key) with
  | false =>
    rw [walkItem_leaf node]
    exact sound.fields key watched
  | true =>
    have held := mem_of_isNode_part node
    have whole := (children _ held child).1
    have clean := after.below (sound.below_single child held node)
    have fits := firm_child_iff.mp (sound.fields key watched)
    refine firm_child_iff.mpr ?_
    rw [← walkItem_node node] at clean
    split at fits
    · rw [if_pos ‹_›, Walked.slot]
      cases left : (walkItem p false (part (.dict es) key)).value.left? with
      | none => decide
      | some x =>
        have statement := firm_statement_iff.mpr ⟨isNode_ne_null node, fits⟩
        exact (firm_statement_iff.mp (tame.statement_left whole clean statement left)).2
    · rw [if_neg ‹_›]
      rw [walkItem_node node] at clean ⊢
      exact (tame.steady_left whole node clean fits.2).symm

theorem Tame.firm_slot (tame : Tame firm p) (complete : Everywhere (Complete firm) loose v)
    (finished : (walkNode p loose v).fault = none) : Everywhere (Complete firm) false (walkNode p loose v).value.slot := by
  induction loose, v using below_induction with
  | leaf loose v leaf => cases v <;> first | exact (leaf _ rfl).elim | exact everywhere_leaf (by rintro _ ⟨⟩)
  | node loose es ih =>
    obtain ⟨self, below⟩ := everywhere_below.mp complete
    have ending := tame.ending self finished
    generalize (walkNode p loose (.dict es)).value = w at ending
    cases ending with
    | stay after =>
      refine (after.complete_iff tame complete).mpr ⟨fun key => tame.firm_child complete after, fun key listed items held w inside x remains => ?_,
        fun l v inner => ih l v inner (below l v inner) (after.below inner)⟩
      obtain ⟨child, plain, -⟩ := statementLists_child listed
      obtain ⟨left, -, -, fine⟩ := after.list self.toSound child held
      obtain ⟨_, held', statements⟩ := everywhere_statements complete listed
      cases held.symm.trans held'
      exact tame.statement_left (statements w inside).1 (plain ▸ fine w inside) (statements w inside).2 remains
    | put _ _ made whole => exact everywhere_literal made whole
    | drop => exact everywhere_leaf (by rintro _ ⟨⟩)
    | branch _ after branch =>
      obtain ⟨listed, clean, alike⟩ := branch.before after self.toSound
      refine everywhere_of_bare alike.symm (self.branch_slot listed fun node => ?_)
      have inner : Below loose es false _ := self.toSound.below_single (branches_child listed).1 (mem_of_isNode_part node) node
      exact ih false _ inner (below false _ inner) (after.below inner)

theorem Tame.run_firm (tame : Tame firm p) (keeps : Keeps firm tree)
    (finished : (p.run tree).fault = none) : Keeps firm (p.run tree).value := by
  obtain ⟨walked, slot, root⟩ := tame.run_slot keeps finished
  exact ⟨root, slot ▸ tame.firm_slot keeps.complete walked⟩

end Firm

end Rulewright.Flag
