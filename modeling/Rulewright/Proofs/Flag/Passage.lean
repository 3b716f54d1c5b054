import Rulewright.Proofs.Flag.Progress

/-!
The steps of a round over a standing script. Every pass is smooth, the flattening finishes and the analyses answer; a pass that
asks declared functions for their names needs them named (`Named`).
-/

open List

namespace Rulewright.Flag

variable {P : Value → Prop}

open Value Entries

section Reading

variable {v w : Value} {key k : String}

theorem field?_of_present (present : part v key ≠ .null) : v.field? key = some (part v key) := by
  unfold part at present ⊢
  cases read : v.field? key with
  | none => rw [read] at present; exact (present rfl).elim
  | some w => rfl

theorem field?_of_node (node : isNode (part v key)) : v.field? key = some (part v key) :=
  field?_of_present (isNode_ne_null node)

theorem read_present (present : w ≠ .null) : read (some w) k = .ok (w.field? k) := by
  cases w <;> first | rfl | exact (present rfl).elim

theorem isMarked_present (present : w ≠ .null) : isMarked (some w) = .ok (isMark w) := by
  cases w <;> first | rfl | exact (present rfl).elim

theorem read_part (present : part v key ≠ .null) : read (v.field? key) k = .ok ((part v key).field? k) := by
  rw [field?_of_present present, read_present present]

theorem read_node (node : isNode (part v key)) : read (v.field? key) k = .ok ((part v key).field? k) :=
  read_part (isNode_ne_null node)

theorem isMarked_node (node : isNode (part v key)) : isMarked (v.field? key) = .ok (isMark (part v key)) := by
  rw [field?_of_node node, isMarked_present (isNode_ne_null node)]

end Reading

section Visits

variable {v : Value} {key kind : String} {es : Entries}

theorem Sturdy.node (sturdy : Sturdy v) (known : kind? v = some kind) (listed : key ∈ (supports.lookup kind).getD []) :
    isNode (part v key) :=
  sturdy.filled.isNode (by rw [fieldsIn, kindName_of_kind? known]; exact listed)

theorem reduceOperator_answers (sturdy : Sturdy v) : Succeeds (reduceOperator v) := by
  refine .ite (fun logical => ?_) fun _ => .ite (fun unary => ?_) fun _ => succeeds_pure _
  · have left : isNode (part v "left") := sturdy.node (known_of logical) (by decide)
    have right : isNode (part v "right") := sturdy.node (known_of logical) (by decide)
    refine .bind ⟨_, isMarked_node left⟩ fun _ _ => .ite (fun _ => succeeds_pure _) fun _ => ?_
    exact .bind ⟨_, isMarked_node right⟩ fun _ _ => .ite (fun _ => succeeds_pure _) fun _ => succeeds_pure _
  · have argument : isNode (part v "argument") := sturdy.node (known_of (Bool.and_eq_true_iff.mp unary).1) (by decide)
    exact .bind ⟨_, isMarked_node argument⟩ fun _ _ => .ite (fun _ => succeeds_pure _) fun _ => succeeds_pure _

theorem reduceConditional_answers (sturdy : Sturdy v) : Succeeds (reduceConditional v) := by
  refine .ite (fun conditional => ?_) fun _ => succeeds_pure _
  have test : isNode (part v "test") := by
    rcases Bool.or_eq_true_iff.mp conditional with known | known
    · exact sturdy.node (known_of known) (by decide)
    · exact sturdy.node (known_of known) (by decide)
  refine .bind ⟨_, isMarked_node test⟩ fun _ _ => .ite (fun _ => ?_) fun _ => succeeds_pure _
  split
  · exact succeeds_pure _
  · split <;> exact succeeds_pure _
  · exact succeeds_pure _

theorem pruneEmptied_answers (carry : Carry) (sturdy : Sturdy v) : Succeeds (pruneEmptied carry v) := by
  refine .bind ?_ fun _ _ => succeeds_pure _
  unfold isEmptied
  split
  · rename_i declaration
    obtain ⟨items, held, -⟩ := list?_any.mp (sturdy.declarators (known_of declaration))
    rw [field?_of_list held]
    exact ⟨_, rfl⟩
  · exact ⟨_, rfl⟩

theorem nameOf_answers (node : isNode (part v "id")) : Succeeds (nameOf v) :=
  .bind ⟨_, read_node node⟩ fun _ _ => succeeds_pure _

theorem everywhere_part {loose : Bool} (complete : Complete anything (.dict es)) (all : Everywhere P loose (.dict es))
    (child : isChild (childFields (kindName (.dict es))) key) (node : isNode (part (.dict es) key)) :
    Everywhere P false (part (.dict es) key) :=
  (everywhere_below.mp all).2 false _ (.single (mem_of_isNode_part node) (by rw [complete.visitedKind]; exact child) node)

def Named (v : Value) : Prop := Filled [("FunctionDeclaration", ["id"])] v

instance (v : Value) : Decidable (Named v) := inferInstanceAs (Decidable (Filled _ v))

theorem Named.node (named : Named v) (known : kind? v = some "FunctionDeclaration") : isNode (part v "id") :=
  Filled.isNode named (by rw [fieldsIn, kindName_of_kind? known]; decide)

theorem pruneVariable_answers (carry : Carry) (t : Table) (complete : Complete anything (.dict es))
    (sturdy : Everywhere Sturdy false (.dict es)) : Succeeds (pruneVariable carry t (.dict es)) := by
  have self := everywhere_self sturdy
  refine .bind ⟨(), rfl⟩ fun _ _ => .ite (fun declarator => ?_) fun _ => .ite (fun statement => ?_) fun _ => .ite (fun _ => ?_) fun _ => ?_
  · exact .bind (nameOf_answers (self.node (known_of declarator) (by decide))) fun _ _ => succeeds_pure _
  · have known := known_of statement
    have node : isNode (part (.dict es) "expression") := self.node known (by decide)
    have below := everywhere_part complete sturdy (by rw [kindName_of_kind? known]; decide) node
    refine .bind ⟨_, read_node node⟩ fun type typed => .ite (fun assigns => ?_) fun _ => succeeds_pure _
    rw [read_node node, Except.ok.injEq] at typed
    have kind : kind? (part (.dict es) "expression") = some "AssignmentExpression" := by
      rw [kind?, typed, beq_iff_eq.mp assigns]
      rfl
    obtain ⟨fields, whole⟩ := isNode_dict node
    rw [field?_of_node node]
    rw [whole] at below kind ⊢
    exact .bind ⟨_, read_node ((everywhere_self below).node kind (by decide))⟩ fun _ _ => succeeds_pure _
  · split <;> exact succeeds_pure _
  · exact succeeds_pure _

theorem pruneFunction_answers (keepComments : Bool) (t : Table) (sturdy : Sturdy (.dict es))
    (named : Named (.dict es)) : Succeeds (pruneFunction keepComments t (.dict es)) := by
  refine .bind ⟨(), rfl⟩ fun _ _ => .ite (fun function => ?_) fun _ => .ite (fun declarator => ?_) fun _ => .ite (fun call => ?_) fun _ => ?_
  · exact .bind (nameOf_answers (named.node (known_of function))) fun _ _ => succeeds_pure _
  · exact .bind (nameOf_answers (sturdy.node (known_of declarator) (by decide))) fun _ _ => succeeds_pure _
  · exact .bind ⟨_, read_node (sturdy.node (known_of call) (by decide))⟩ fun _ _ => succeeds_pure _
  · exact succeeds_pure _

end Visits

section Smooth

variable {p : Pass} {loose : Bool} {v w : Value} {key : String} {es : Entries} {r : Reply} {carry : Carry}

theorem everywhere_takes (commented : Everywhere Commented loose (.dict es)) : Takes (.dict es) :=
  ⟨⟨es, rfl⟩, everywhere_self commented⟩

theorem fares_keep (commented : Everywhere Commented false (.dict es)) (node : r.node = .dict es) (action : r.action = .keep) :
    Fares r.outcome := by
  refine ⟨by rw [Reply.outcome, node]; exact everywhere_takes commented, fun v becomes => ?_, ?_⟩
  · rw [Reply.outcome, action] at becomes
    cases becomes
  · rw [Reply.outcome, node, action]
    exact commented

theorem fares_drop (takes : Takes v) : Fares (Reply.drop v carry).outcome :=
  ⟨takes, by rintro _ ⟨⟩, everywhere_leaf (by rintro _ ⟨⟩)⟩

theorem fares_put (takes : Takes v) (node : isNode w) (commented : Everywhere Commented false w) :
    Fares (Reply.put v w).outcome := by
  obtain ⟨es, rfl⟩ := isNode_dict node
  refine ⟨takes, fun x becomes => ?_, commented⟩
  cases becomes
  exact everywhere_takes commented

theorem everywhere_commented_literal (b : Bool) : Everywhere Commented false (literal b) :=
  everywhere_made rfl (by cases b <;> decide)

theorem fares_literal (takes : Takes v) (b : Bool) : Fares (Reply.put v (literal b)).outcome :=
  fares_put takes (by cases b <;> decide) (everywhere_commented_literal b)

theorem Edit.fares (edit : Edit (.dict es) false r) (commented : Everywhere Commented false (.dict es)) : Fares r.outcome := by
  have takes := everywhere_takes commented
  cases edit with
  | keep => exact fares_keep commented rfl rfl
  | literal _ _ b => exact fares_literal takes b
  | drop => exact fares_drop takes

theorem Edits.smooth (edits : Edits p)
    (leave : ∀ es, Everywhere (Complete anything) false (.dict es) → Sturdy (.dict es) → Everywhere Commented false (.dict es) →
      (p.leave (.dict es)).fault = none ∧ Fares (p.leave (.dict es)).outcome) : Smooth p where
  tame := edits.tame
  enter commented fine := (edits.enter fine).fares commented
  leave complete sturdy after commented :=
    leave _ (after.complete_anything edits.tame complete) ((everywhere_self sturdy).step (edits.steady complete after) after.leaves) commented

theorem checks_smooth {s : Settings} {ms : Methods} (listed : methods s.properties = .ok ms) : Smooth (checks s ms) :=
  (checks_edits listed).smooth fun _ _ _ commented => ⟨rfl, fares_keep commented rfl rfl⟩

theorem operators_smooth : Smooth operators := by
  refine operators_edits.smooth fun es complete sturdy commented => ?_
  obtain ⟨r, answered⟩ := reduceOperator_answers sturdy
  simp only [operators, answered, Reply.ofExcept]
  have takes := everywhere_takes commented
  rcases reduceOperator_cases _ answered with
    rfl | ⟨known, key, other, sides, -, ⟨-, rfl⟩ | ⟨w, reduced, rfl⟩⟩ | ⟨-, -, -, b, -, rfl⟩
  · exact ⟨rfl, fares_keep commented rfl rfl⟩
  · exact ⟨rfl, fares_keep commented rfl rfl⟩
  · refine ⟨rfl, ?_⟩
    rcases reduceLogical_left reduced with ⟨b, rfl⟩ | operand
    · exact fares_literal takes b
    · have listed : other ∈ (supports.lookup "LogicalExpression").getD [] := by
        rcases sides with ⟨-, rfl⟩ | ⟨-, rfl⟩ <;> decide
      have child : isChild (childFields (kindName (.dict es))) other := by
        rw [kindName_of_kind? known]
        rcases sides with ⟨-, rfl⟩ | ⟨-, rfl⟩ <;> decide
      have node := sturdy.node known listed
      obtain rfl : part (.dict es) other = w := by rw [part, operand, Option.getD_some]
      exact fares_put takes node (everywhere_part (everywhere_self complete) commented child node)
  · exact ⟨rfl, fares_literal takes _⟩

theorem takeBranch_fares (complete : Everywhere (Complete anything) false (.dict es)) (commented : Everywhere Commented false (.dict es))
    (listed : key ∈ fieldsIn branches (.dict es)) (node : isNode (part (.dict es) key)) :
    (takeBranch key (.dict es)).fault = none ∧ Fares (takeBranch key (.dict es)).outcome := by
  obtain ⟨child, other⟩ := branches_child listed
  have takes := everywhere_takes commented
  have below := everywhere_part (everywhere_self complete) commented child node
  have good : Takes (part (.dict es) key) := by
    obtain ⟨fields, whole⟩ := isNode_dict node
    rw [whole] at below ⊢
    exact everywhere_takes below
  obtain ⟨x, moved, same, taken⟩ := takes.moveToBranch (field?_of_node node) good
  have answer : takeBranch key (.dict es) = .put ((dict es).set key x) x := by
    have read : ((dict es).set key x).field? key = some x := get?_put_self _ _ _
    simp only [takeBranch, moved, Option.getD_some, read]
  rw [answer]
  refine ⟨rfl, fares_put ⟨⟨_, rfl⟩, ?_⟩ ?_ ?_⟩
  · exact Commented.of_field (v := .dict es) (get?_put_ne _ _ (Ne.symm other)) takes.commented
  · rw [isNode_of_bare same, node]
  · exact everywhere_bare_of (everywhere_part (everywhere_self complete) complete child node) below same.symm taken.commented

theorem conditionals_smooth : Smooth conditionals := by
  refine conditionals_edits.smooth fun es complete sturdy commented => ?_
  obtain ⟨r, answered⟩ := reduceConditional_answers sturdy
  simp only [conditionals, answered, Reply.ofExcept]
  rcases reduceConditional_cases _ answered with rfl | ⟨known, marked, b, -, ⟨rfl, present⟩ | ⟨rfl, -⟩⟩
  · exact ⟨rfl, fares_keep commented rfl rfl⟩
  · have listed : branchField b ∈ fieldsIn branches (.dict es) := by
      rw [fieldsIn]
      rcases known with known | known <;> rw [kindName_of_kind? known] <;> cases b <;> decide
    have chosen : branchField b = "alternate" → part (.dict es) (branchField b) ≠ .null := by
      cases b with
      | true => exact fun other => absurd other (by decide)
      | false => exact fun _ => present rfl
    exact takeBranch_fares complete commented listed (sturdy.branch ⟨listed, rfl, fun _ => chosen⟩ fun _ => mayMark_of_isMark marked)
  · exact ⟨rfl, fares_drop (everywhere_takes commented)⟩

theorem pruneEmptied_fares (sturdy : Sturdy (.dict es)) (commented : Everywhere Commented false (.dict es)) :
    (Reply.ofExcept (.dict es) (pruneEmptied carry (.dict es))).fault = none ∧
      Fares (Reply.ofExcept (.dict es) (pruneEmptied carry (.dict es))).outcome := by
  obtain ⟨r, answered⟩ := pruneEmptied_answers carry sturdy
  have fine : (Reply.ofExcept (.dict es) (pruneEmptied carry (.dict es))).fault = none := by
    rcases pruneEmptied_cases _ answered with rfl | ⟨-, -, rfl⟩ <;> rw [answered] <;> rfl
  exact ⟨fine, (pruneEmptied_edit fine).fares commented⟩

theorem variablePass_smooth (carry : Carry) (t : Table) : Smooth (variablePass carry t) :=
  (variablePass_edits carry t).smooth fun _ _ sturdy commented => pruneEmptied_fares sturdy commented

theorem functions_smooth (keepComments : Bool) (t : Table) : Smooth (functions keepComments t) :=
  (functions_edits keepComments t).smooth fun _ _ sturdy commented => pruneEmptied_fares sturdy commented

theorem unmark_answers (es : Entries) : (unmark.enter (.dict es)).fault = none := by
  simp only [unmark, isMarked_present (w := .dict es) (by rintro ⟨⟩)]
  cases isMark (.dict es) <;> rfl

theorem unmark_smooth : Smooth unmark where
  tame := unmark_tame
  enter := by
    intro es commented _
    have takes := everywhere_takes commented
    cases marked : isMark (.dict es) with
    | false =>
      have answer : unmark.enter (.dict es) = .keep (.dict es) := by
        simp only [unmark, isMarked_present (w := .dict es) (by rintro ⟨⟩), marked]
        rfl
      rw [answer]
      exact fares_keep commented rfl rfl
    | true =>
      have answer : unmark.enter (.dict es) = { node := (dict es).unset marker, action := .put ((dict es).unset marker) } := by
        simp only [unmark, isMarked_present (w := .dict es) (by rintro ⟨⟩), marked]
        rfl
      have known : kind? (.dict es) = some "Literal" := known_of (Bool.and_eq_true_iff.mp marked).1
      have made : kind? ((dict es).unset marker) = some "Literal" := by
        rw [kind?, unset, field?, get?_erase_ne _ (by decide)]
        exact known
      have kept : Commented ((dict es).unset marker) :=
        .of_field (v := .dict es) (get?_erase_ne _ (by decide)) takes.commented
      rw [answer]
      exact ⟨⟨⟨_, rfl⟩, kept⟩, by rintro _ ⟨⟩; exact ⟨⟨_, rfl⟩, kept⟩, everywhere_made made kept⟩
  leave _ _ _ commented := ⟨rfl, fares_keep commented rfl rfl⟩

end Smooth

structure ElementFares (o : Outcome (Flattened Value)) : Prop where
  fine : o.fault = none
  parts : ∀ x ∈ o.value.parts, Everywhere Commented false x
  toParent : Present o.value.toParent

section Flattening

variable {keepComments loose : Bool} {v : Value} {kind key : String} {es : Entries} {items : List Value} {fields : List String}
  {f : Flattening}

theorem everywhere_nodes (complete : Everywhere (Complete populated) false v) (all : Everywhere P false v) (block : hasKind v "BlockStatement") :
    ∃ items, v.field? "body" = some (.list items) ∧
      ∀ x ∈ items, isNode x ∧ Everywhere (Complete populated) false x ∧ Everywhere P false x := by
  have known := known_of block
  obtain ⟨es, rfl⟩ := dict_of_kind? known
  have kind := kindName_of_kind? known
  have listed : "body" ∈ fieldsIn statementLists (.dict es) := by
    rw [fieldsIn, kind]
    decide
  obtain ⟨items, held, statements⟩ := everywhere_statements complete listed
  refine ⟨items, field?_of_list held, fun x inside => ?_⟩
  obtain ⟨whole, statement⟩ := statements x inside
  have node := isNode_of_statement statement
  exact ⟨node, whole, everywhere_element (everywhere_anything complete) all (by rw [kind]; decide) (by rw [kind]; decide) held inside node⟩

theorem flatItem_fares (takes : f.takes) (complete : Everywhere (Complete populated) false v)
    (inside : isVisited loose v → (flattenNode f.keepComments loose v).fault = none ∧
      Everywhere Commented false (flattenNode f.keepComments loose v).value) : ElementFares (flatItem f loose v) := by
  unfold flatItem
  split
  · rename_i visited
    obtain ⟨fine, commented⟩ := inside visited
    unfold asElement
    split
    · -- the statements of a block that gives way take its comments
      rename_i block
      have flat := flattenNode_complete (everywhere_loose complete) fine
      have isBlock := (Bool.and_eq_true_iff.mp block).2
      obtain ⟨items, read, nodes⟩ := everywhere_nodes flat commented isBlock
      have stated : statementsOf (flattenNode f.keepComments loose v).value = .ok items := by rw [statementsOf, read]
      have good (x : Value) (member : x ∈ items) : Takes x := by
        obtain ⟨node, -, here⟩ := nodes x member
        obtain ⟨fields, rfl⟩ := isNode_dict node
        exact everywhere_takes here
      obtain ⟨es, whole⟩ := dict_of_kind? (known_of isBlock)
      have self : Takes (flattenNode f.keepComments loose v).value := by
        rw [whole] at commented ⊢
        exact everywhere_takes commented
      obtain ⟨spilled, parts, toParent⟩ := self.spill stated good takes
      obtain ⟨_, same, alike⟩ := spill_finished spilled
      obtain rfl := Except.ok.inj (same.symm.trans stated)
      refine ⟨spilled, fun x member => ?_, toParent⟩
      obtain ⟨y, element, likewise⟩ := mem_map.mp (alike ▸ mem_map_of_mem member)
      obtain ⟨-, completeY, commentedY⟩ := nodes y element
      exact everywhere_bare_of completeY commentedY likewise (parts x member).commented
    · refine ⟨fine, fun x member => ?_, by rintro _ ⟨⟩⟩
      obtain rfl := mem_singleton.mp member
      exact commented
  · rename_i hidden
    refine ⟨rfl, fun x member => ?_, by rintro _ ⟨⟩⟩
    obtain rfl := mem_singleton.mp member
    refine everywhere_leaf ?_
    rintro es rfl
    exact hidden (isVisited_node (everywhere_self complete).isNode)

theorem flattened_cons_fine {α : Type} {head tail : Outcome (Flattened α)} {raw : List α} (fine : head.fault = none) :
    (Flattened.cons head raw tail).fault = tail.fault ∧
      (Flattened.cons head raw tail).value.parts = head.value.parts ++ tail.value.parts ∧
      (Flattened.cons head raw tail).value.toParent = head.value.toParent ++ tail.value.toParent := by
  rw [Flattened.cons, fine]
  exact ⟨rfl, rfl, rfl⟩

theorem flattenItems_fares (each : ∀ v ∈ items, ElementFares (flatItem f loose v)) : ElementFares (flattenItems f loose items) := by
  induction items with
  | nil => exact ⟨rfl, by rintro _ ⟨⟩, by rintro _ ⟨⟩⟩
  | cons v rest ih =>
    have head := each v mem_cons_self
    have tail := ih fun w member => each w (mem_cons_of_mem _ member)
    have unfolded : flattenItems f loose (v :: rest) = Flattened.cons (flatItem f loose v) rest (flattenItems f loose rest) := rfl
    obtain ⟨fault, parts, toParent⟩ := flattened_cons_fine head.fine
    rw [unfolded]
    refine ⟨fault.trans tail.fine, fun x member => ?_, by rw [toParent]; exact head.toParent.append tail.toParent⟩
    rw [parts] at member
    exact (mem_append.mp member).elim (head.parts x) (tail.parts x)

theorem flattenEntries_fares (each : ∀ e ∈ es, (flatEntry f kind fields e.1 e.2).fault = none ∧
      Present (flatEntry f kind fields e.1 e.2).value.toParent) :
    (flattenEntries f kind fields es).fault = none ∧ Present (flattenEntries f kind fields es).value.toParent := by
  induction es with
  | nil => exact ⟨rfl, by rintro _ ⟨⟩⟩
  | cons e rest ih =>
    obtain ⟨clean, own⟩ := each e mem_cons_self
    obtain ⟨fine, present⟩ := ih fun e member => each e (mem_cons_of_mem _ member)
    rw [flattenEntries_cons]
    obtain ⟨fault, -, toParent⟩ := flattened_cons_fine clean
    exact ⟨fault.trans fine, by rw [toParent]; exact own.append present⟩

theorem flatEntry_fares
    (single : fields.contains key → isNode v → (flattenNode f.keepComments false v).fault = none ∧ f.scope = false)
    (listed : ∀ items, v = .list items → fields.contains key → ElementFares (flattenItems f (isPropertyList kind key) items)) :
    (flatEntry f kind fields key v).fault = none ∧ Present (flatEntry f kind fields key v).value.toParent := by
  have nothing : Present [] := by rintro _ ⟨⟩
  unfold flatEntry
  split
  · split
    · rename_i child
      have elements := listed _ rfl child
      exact ⟨elements.fine, elements.toParent⟩
    · exact ⟨rfl, nothing⟩
  · split
    · rename_i both
      obtain ⟨child, node⟩ := Bool.and_eq_true_iff.mp both
      obtain ⟨clean, plain⟩ := single child node
      have answer : asOnly f key (flattenNode f.keepComments false v) =
          (flattenNode f.keepComments false v).map fun v => { parts := [(key, v)] } := by
        simp [asOnly, plain]
      rw [answer]
      exact ⟨clean, nothing⟩
    · exact ⟨rfl, nothing⟩

theorem scope_listed (complete : Complete populated (.dict es)) (scope : isScope (kindName (.dict es)))
    (held : (key, v) ∈ es) (child : isChild (childFields (kindName (.dict es))) key) : isNode v = false := by
  have once : (es.map Prod.fst).count "body" ≤ 1 := complete.once
  have both : kindName (.dict es) = "BlockStatement" ∨ kindName (.dict es) = "Program" := by simpa [isScope] using scope
  have fields : childFields (kindName (.dict es)) = some ["body"] := by
    rcases both with kind | kind <;> rw [kind] <;> decide
  obtain rfl : key = "body" := by simpa [fields, isChild] using child
  have listed : "body" ∈ fieldsIn statementLists (.dict es) := by
    rw [fieldsIn]
    rcases both with kind | kind <;> rw [kind] <;> decide
  obtain ⟨items, read, -⟩ := list?_any.mp (complete.statements "body" listed)
  rw [part, field?, get?_of_once once held, Option.getD_some] at read
  rw [read]
  rfl

theorem flattenNode_takes (known : childFields (visitedKind loose es) = some fields)
    (own : f = ⟨keepComments, isScope (visitedKind loose es), (commentsOf (.dict es)).isOk⟩) (commented : Commented (.dict es))
    (fine : (flattenEntries f (visitedKind loose es) fields es).fault = none)
    (present : Present (flattenEntries f (visitedKind loose es) fields es).value.toParent) :
    ∃ w, flattenNode keepComments loose (.dict es) = .done w ∧ Commented w ∧
      bare w = bare (.dict (flatFields f loose fields es)) ∧ Commented (.dict (flatFields f loose fields es)) := by
  have parts : _ = flatFields f loose fields es := (flattenEntries_entries fine).2
  have whole : Commented (.dict (flatFields f loose fields es)) := commented.of_field (comments_flatFields known)
  obtain ⟨w, attached, result⟩ := Takes.attachedEnd ⟨⟨_, rfl⟩, whole⟩ present
  refine ⟨w, ?_, result.commented, Option.some.inj (attachEnd_bare attached), whole⟩
  rw [flattenNode]
  simp only [known, ← own]
  simp only [finishNode, parts, attached, fine]
  rfl

theorem flattenNode_fares (complete : Everywhere (Complete populated) loose v) (commented : Everywhere Commented loose v) :
    (flattenNode keepComments loose v).fault = none ∧ Everywhere Commented false (flattenNode keepComments loose v).value := by
  induction loose, v using below_induction with
  | leaf loose v leaf => cases v <;> first | exact (leaf _ rfl).elim | exact ⟨rfl, everywhere_leaf (by rintro _ ⟨⟩)⟩
  | node loose es ih =>
    have self := everywhere_self complete
    have kind := self.visitedKind loose
    obtain ⟨fields, known⟩ := Option.isSome_iff_exists.mp self.known
    rw [← kind] at known
    have child {key : String} (contained : fields.contains key) : isChild (childFields (visitedKind loose es)) key := by
      rw [known]
      exact contained
    obtain ⟨f, own⟩ : ∃ f : Flattening, f = ⟨keepComments, isScope (visitedKind loose es), (commentsOf (.dict es)).isOk⟩ := ⟨_, rfl⟩
    have below (l : Bool) (x : Value) (inside : Below loose es l x) :
        (flattenNode f.keepComments l x).fault = none ∧ Everywhere Commented false (flattenNode f.keepComments l x).value := by
      rw [own]
      exact ih l x inside ((everywhere_below.mp complete).2 l x inside) ((everywhere_below.mp commented).2 l x inside)
    have takes : f.takes := by
      obtain ⟨cs, read, -⟩ := everywhere_self commented
      rw [own, read]
      rfl
    have each (e : String × Value) (member : e ∈ es) : (flatEntry f (visitedKind loose es) fields e.1 e.2).fault = none ∧
        Present (flatEntry f (visitedKind loose es) fields e.1 e.2).value.toParent := by
      refine flatEntry_fares (fun contained node => ⟨(below false e.2 (.single member (child contained) node)).1, ?_⟩) ?_
      · rw [own]
        by_contra scope
        simp [scope_listed self (by simpa [← kind] using scope) member (by rw [← kind]; exact child contained)] at node
      · intro items whole contained
        have held : (e.1, .list items) ∈ es := whole ▸ member
        refine flattenItems_fares fun x element => flatItem_fares takes ?_ fun visited =>
          below _ x (.listed held (child contained) element visited)
        exact ((everywhere_complete.mp complete).2 _ held (by rw [← kind]; exact child contained)).2 items rfl x element
    obtain ⟨fine, present⟩ := flattenEntries_fares each
    obtain ⟨w, answer, result, alike, whole⟩ := flattenNode_takes known own (everywhere_self commented) fine present
    have finished : (flattenNode keepComments loose (.dict es)).fault = none := by rw [answer]; rfl
    have flat := flattenNode_complete complete finished
    rw [answer] at flat ⊢
    have before : Everywhere (Complete populated) loose (.dict _) := everywhere_loose (everywhere_of_bare alike flat)
    have after : Everywhere Commented loose (.dict _) := everywhere_below.mpr ⟨whole, fun l x inside => by
      obtain ⟨v, reached, -, member⟩ := below_flat known (fun e member => (each e member).1) inside
      have fares := flatItem_fares takes (everywhere_loose ((everywhere_below.mp complete).2 l v reached)) fun _ => below l v reached
      exact everywhere_other (everywhere_loose ((everywhere_below.mp before).2 l x inside)) (fares.parts x member)⟩
    exact ⟨rfl, everywhere_bare_of (everywhere_loose before) (everywhere_other before after) alike.symm result⟩

end Flattening

section Steps

variable {stop : Value → Bool} {loose keepComments : Bool} {parent : Option Value} {v tree : Value} {n : Place} {es : Entries}

theorem nodesIn_never (reached : n ∈ nodesIn stop loose parent v) : n ∈ nodesIn never loose parent v := by
  induction loose, v using below_induction generalizing parent with
  | leaf loose v leaf => cases v <;> first | exact (leaf _ rfl).elim | cases reached
  | node loose es ih =>
    rcases mem_nodesIn.mp reached with rfl | ⟨-, l, v, below, inside⟩
    · exact mem_cons_self
    · exact mem_nodesIn.mpr (Or.inr ⟨rfl, l, v, below, ih l v below inside⟩)

section

variable (standing : Standing tree)
include standing

theorem Standing.node (reached : n ∈ nodesIn stop false none tree) :
    Complete anything n.2 ∧ Everywhere (Complete populated) false n.2 ∧ Everywhere Sturdy false n.2 := by
  have inside := nodesIn_never reached
  have complete := standing.keeps.complete
  exact ⟨everywhere_anything complete none n inside, everywhere_deep complete complete none n inside,
    everywhere_deep complete standing.sturdy none n inside⟩

theorem Standing.operators : (Flag.operators.run tree).fault = none ∧ Standing (Flag.operators.run tree).value := by
  have finished := (operators_smooth.run_iff standing).mpr fun _ _ => rfl
  exact ⟨finished, standing.run operators_edits operators_smooth finished⟩

theorem Standing.conditionals : (Flag.conditionals.run tree).fault = none ∧ Standing (Flag.conditionals.run tree).value := by
  have finished := (conditionals_smooth.run_iff standing).mpr fun _ _ => rfl
  exact ⟨finished, standing.run conditionals_edits conditionals_smooth finished⟩

theorem Standing.variables (carry : Carry) (t : Table) :
    ((variablePass carry t).run tree).fault = none ∧ Standing ((variablePass carry t).run tree).value := by
  have finished := ((variablePass_smooth carry t).run_iff standing).mpr fun n reached => by
    obtain ⟨complete, -, sturdy⟩ := standing.node reached
    obtain ⟨es, whole⟩ := isNode_dict complete.isNode
    rw [whole] at complete sturdy ⊢
    obtain ⟨r, answered⟩ := pruneVariable_answers carry t complete sturdy
    simp only [variablePass, answered, Reply.ofExcept]
    rcases pruneVariable_cases _ answered with ⟨rfl, -⟩ | ⟨-, ⟨-, rfl⟩ | ⟨-, -, rfl⟩⟩ | ⟨_, _, -, -, rfl⟩ <;> rfl
  exact ⟨finished, standing.run (variablePass_edits carry t) (variablePass_smooth carry t) finished⟩

theorem Standing.functions (named : Everywhere Named false tree) (keepComments : Bool) (t : Table) :
    ((Flag.functions keepComments t).run tree).fault = none ∧ Standing ((Flag.functions keepComments t).run tree).value := by
  have finished := ((functions_smooth keepComments t).run_iff standing).mpr fun n reached => by
    obtain ⟨complete, -, sturdy⟩ := standing.node reached
    have names := named none n (nodesIn_never reached)
    obtain ⟨es, whole⟩ := isNode_dict complete.isNode
    rw [whole] at sturdy names ⊢
    obtain ⟨r, answered⟩ := pruneFunction_answers keepComments t (everywhere_self sturdy) names
    simp only [Flag.functions, answered, Reply.ofExcept]
    rcases pruneFunction_cases _ answered with ⟨rfl, -⟩ | ⟨-, ⟨-, _, rfl⟩ | ⟨-, _, rfl⟩⟩ <;> rfl
  exact ⟨finished, standing.run (functions_edits keepComments t) (functions_smooth keepComments t) finished⟩

theorem Standing.unmark : (Flag.unmark.run tree).fault = none := by
  refine (unmark_smooth.run_iff standing).mpr fun n reached => ?_
  obtain ⟨es, whole⟩ := isNode_dict (standing.node reached).1.isNode
  rw [whole]
  exact unmark_answers es

end

theorem flattenBlocks_program (root : kind? tree = some "Program") (fine : (flattenNode keepComments false tree).fault = none) :
    flattenBlocks keepComments tree = flattenNode keepComments false tree := by
  obtain ⟨es, rfl⟩ := dict_of_kind? root
  have other : hasKind (flattenNode keepComments false (.dict es)).value "BlockStatement" = false := by
    rw [hasKind, flattenNode_kind? fine, root]
    rfl
  simp [flattenBlocks, other]

theorem Standing.flatten (standing : Standing tree) (keepComments : Bool) :
    (flattenBlocks keepComments tree).fault = none ∧ Standing (flattenBlocks keepComments tree).value := by
  obtain ⟨fine, commented⟩ := flattenNode_fares standing.keeps.complete standing.commented
  have whole := flattenBlocks_program standing.keeps.root fine
  have finished : (flattenBlocks keepComments tree).fault = none := by rw [whole, fine]
  refine ⟨finished, flattenBlocks_keeps standing.keeps finished, ?_, by rw [whole]; exact commented⟩
  rw [whole]
  exact (flattenNode_flat (fun _ _ => Sturdy.of_bare) (fun _ _ => Sturdy.flatten) standing.sturdy fine).everywhere

end Steps

end Rulewright.Flag
