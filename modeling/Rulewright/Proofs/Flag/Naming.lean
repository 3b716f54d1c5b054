import Rulewright.Proofs.Flag.Inheritance
import Rulewright.Proofs.Flag.Remains
import Rulewright.Proofs.Flag.Returns
import Rulewright.Proofs.Flag.Settled

/-!
Functions without a name. Only a function that is exported as the default may lack one; it stays where it is until the returns are
counted, by name, so no round over such a script finishes (`round_nameless`).
-/

open List

namespace Rulewright.Flag

def Nameless (v : Value) : Prop := kind? v = some "FunctionDeclaration" ∧ part v "id" = .null

def ExportsNameless (v : Value) : Prop := kind? v = some "ExportDefaultDeclaration" ∧ Nameless (part v "declaration")

def HasNamelessExport (tree : Value) : Prop := ∃ items, part tree "body" = .list items ∧ ∃ x ∈ items, ExportsNameless x

instance (v : Value) : Decidable (Nameless v) := inferInstanceAs (Decidable (_ ∧ _))

instance (v : Value) : Decidable (ExportsNameless v) := inferInstanceAs (Decidable (_ ∧ _))

instance (tree : Value) : Decidable (HasNamelessExport tree) :=
  decidable_of_iff ((part tree "body").list?.any (·.any fun x => decide (ExportsNameless x)) = true)
    (list?_any.trans (by simp [HasNamelessExport]))

structure Idle (p : Pass) (kind : String) : Prop where
  enter {v : Value} : kind? v = some kind → (p.enter v).fault = none → p.enter v = .keep v
  leave {v : Value} : kind? v = some kind → (p.leave v).fault = none → p.leave v = .keep v

section Idle

variable {kind : String} {carry : Carry} {t : Table}

theorem checks_idle {s : Settings} {ms : Methods} (listed : methods s.properties = .ok ms) (other : kind ≠ "CallExpression") :
    Idle (checks s ms) kind where
  enter known fine := by
    obtain ⟨r, answered, same⟩ := ofExcept_finished fine
    refine same.trans ?_
    rcases replaceCheck_cases listed _ answered with ⟨-, call, -⟩ | ⟨-, rfl⟩
    · exact (other (Option.some.inj (known.symm.trans call))).elim
    · rfl
  leave _ _ := rfl

theorem operators_idle (other : kind ∉ ["LogicalExpression", "UnaryExpression"]) : Idle operators kind where
  enter _ _ := rfl
  leave known fine := by
    obtain ⟨r, answered, same⟩ := ofExcept_finished fine
    refine same.trans ?_
    rcases reduceOperator_cases _ answered with rfl | ⟨logical, -⟩ | ⟨unary, -⟩
    · rfl
    · cases known.symm.trans logical
      simp at other
    · cases known.symm.trans unary
      simp at other

theorem conditionals_idle (other : kind ∉ ["IfStatement", "ConditionalExpression"]) : Idle conditionals kind where
  enter _ _ := rfl
  leave known fine := by
    obtain ⟨r, answered, same⟩ := ofExcept_finished fine
    refine same.trans ?_
    rcases reduceConditional_cases _ answered with rfl | ⟨either | either, -⟩
    · rfl
    · cases known.symm.trans either
      simp at other
    · cases known.symm.trans either
      simp at other

theorem variablePass_idle (other : kind ∉ ["VariableDeclarator", "ExpressionStatement", "Identifier", "VariableDeclaration"]) :
    Idle (variablePass carry t) kind where
  enter known fine := by
    obtain ⟨r, answered, same⟩ := ofExcept_finished fine
    refine same.trans ?_
    rcases pruneVariable_cases _ answered with ⟨rfl, -⟩ | ⟨-, ⟨own, -⟩ | ⟨own, -⟩⟩ | ⟨x, b, named, -⟩
    · rfl
    · cases known.symm.trans own
      simp at other
    · cases known.symm.trans own
      simp at other
    · cases known.symm.trans (kind?_of_name? named)
      simp at other
  leave known fine := by
    obtain ⟨r, answered, same⟩ := ofExcept_finished fine
    refine same.trans ?_
    rcases pruneEmptied_cases _ answered with rfl | ⟨own, -⟩
    · rfl
    · cases known.symm.trans own
      simp at other

end Idle

def exportKinds : List String := ["Program", "ExportDefaultDeclaration", "FunctionDeclaration"]

/-- A step that leaves scripts, exports and declared functions where they are. -/
def Kept (_ : Spot) (v : Value) (ys : List Value) : Prop := ∀ kind ∈ exportKinds, kind? v = some kind → ys = [v]

section Kept

variable {p : Pass} {keepComments : Bool} {v w tree : Value} {kind : String} {spot : Spot} {ys : List Value}

theorem Remains.kept (remains : Remains Kept spot v ys) (known : kind? v = some kind) (listed : kind ∈ exportKinds) :
    ys = [v] ∨ ∃ es es' out w, v = .dict es ∧ Leaves bare out spot.loose es es' ∧ (∀ inner x, Child spot.loose es inner x → Remains Kept inner x (out inner x)) ∧
      bare w = bare (.dict es') ∧ kind? w = some kind ∧ ys = [w] := by
  cases remains with
  | acts does => exact Or.inl (does kind listed known)
  | @node _ es es' w _ out _ children leaves same does =>
    have still : kind? w = some kind := by rw [kind?_of_bare same, leaves.kind?_of known]
    exact Or.inr ⟨es, es', out, w, rfl, leaves, children, same, still, does kind listed still⟩

theorem Remains.nameless (remains : Remains Kept spot v ys) (nameless : Nameless v) : ∃ y, ys = [y] ∧ Nameless y := by
  rcases remains.kept nameless.1 (by decide) with rfl | ⟨es, es', out, w, rfl, leaves, -, same, kind, rfl⟩
  · exact ⟨v, rfl, nameless⟩
  · refine ⟨w, rfl, kind, ?_⟩
    have none := nameless.2
    rw [part_of_bare same (by decide)]
    rcases leaves.part_cases (show "id" ≠ "comments" by decide) with ⟨node, -⟩ | ⟨_, _, held, -⟩ | unchanged
    · rw [none] at node
      cases node
    · rw [none] at held
      cases held
    · rw [unchanged, none]

theorem Remains.exportsNameless (remains : Remains Kept spot v ys) (exports : ExportsNameless v) : ∃ y, ys = [y] ∧ ExportsNameless y := by
  rcases remains.kept exports.1 (by decide) with rfl | ⟨es, es', out, w, rfl, leaves, children, same, kind, rfl⟩
  · exact ⟨v, rfl, exports⟩
  · refine ⟨w, rfl, kind, ?_⟩
    rw [part_of_bare same (by decide)]
    rcases leaves.part_cases (show "declaration" ≠ "comments" by decide) with ⟨-, child, after⟩ | ⟨_, _, held, -⟩ | unchanged
    · obtain ⟨y, left, nameless⟩ := (children .only _ child).nameless exports.2
      rw [after, left]
      exact nameless
    · have known := exports.2.1
      rw [held] at known
      cases known
    · rw [unchanged]
      exact exports.2

theorem ExportsNameless.of_bare (same : bare v = bare w) (exports : ExportsNameless v) : ExportsNameless w :=
  ⟨by rw [← kind?_of_bare same]; exact exports.1, by rw [← part_of_bare same (by decide)]; exact exports.2⟩

theorem HasNamelessExport.step (exports : HasNamelessExport tree) (root : kind? tree = some "Program")
    (remains : Remains Kept .only tree [w]) : HasNamelessExport w := by
  rcases remains.kept root (by decide) with whole | ⟨es, es', out, w', rfl, leaves, children, same, -, whole⟩ <;> cases whole
  · exact exports
  · obtain ⟨items, held, x, inside, exported⟩ := exports
    rcases leaves.read "body" with ⟨missing, -⟩ | ⟨v, u, before, after, field⟩
    · simp [field?_of_list held] at missing
    · cases (field?_of_list held).symm.trans before
      have found : part w "body" = u := by rw [part_of_bare same (by decide), part, after, Option.getD_some]
      have among {left : List Value} {y : Value} (exported : ExportsNameless y) (shown : bare y ∈ left.map bare) : ∃ z ∈ left, ExportsNameless z := by
        obtain ⟨z, member, alike⟩ := mem_map.mp shown
        exact ⟨z, member, exported.of_bare alike.symm⟩
      cases field with
      | only _ node => cases node
      | row child kept =>
        obtain ⟨y, left, result⟩ := (children _ x ⟨_, _, mem_of_part held, by decide, .row child inside⟩).exportsNameless exported
        refine ⟨_, found, among result ?_⟩
        rw [kept]
        exact mem_map_of_mem (mem_flatMap.mpr ⟨x, inside, by rw [left]; exact mem_cons_self⟩)
      | same => exact ⟨items, found, x, inside, exported⟩
      | aside _ _ kept => exact ⟨_, found, among exported (kept ▸ mem_map_of_mem inside)⟩

theorem HasNamelessExport.run (exports : HasNamelessExport tree) (idle : ∀ kind ∈ exportKinds, Idle p kind) (keeps : Keeps anything tree)
    (finished : (p.run tree).fault = none) : HasNamelessExport (p.run tree).value := by
  have root := keeps.root
  have program := idle "Program" (by decide)
  obtain ⟨es, rfl⟩ := dict_of_kind? root
  obtain ⟨fine, left, -⟩ := run_root root (everywhere_self keeps.complete).once (fun v known fine => by rw [program.enter known fine]; rfl)
    (fun v known fine => by rw [program.leave known fine]; exact ⟨rfl, rfl⟩) finished
  refine exports.step root (left ▸ walkAt_remains frames_complete (fun _ _ _ _ _ => rfl) ?_ ?_ keeps.complete fine)
  · intro _ es fine kind listed known
    rw [(idle kind listed).enter known fine]
    rfl
  · intro _ es fine kind listed known
    rw [(idle kind listed).leave known fine]
    rfl

theorem HasNamelessExport.flatten (exports : HasNamelessExport tree) (root : kind? tree = some "Program")
    (finished : (flattenNode keepComments false tree).fault = none) : HasNamelessExport (flattenNode keepComments false tree).value := by
  refine exports.step root (flattenNode_leaves (fun _ _ _ _ _ => rfl) (fun v _ _ block _ _ kind listed known => ?_)
    (isVisited_node (isNode_of_kind? root)) finished fun _ _ _ => rfl)
  cases block.symm.trans known
  exact absurd listed (by decide)

end Kept

section Rounds

variable {σ : Type} {visit : Visit σ} {keepComments changed : Bool} {tree v w : Value} {n : Place} {s s' : σ}

theorem analyse_each (through : ∀ s parent v, Gives (visit s parent v) (·.2 = false))
    (run : analyse visit s tree = .ok s') (reached : n ∈ nodesOf tree) : ∃ s r, visit s n.1 n.2 = .ok r := by
  obtain ⟨visited, -, all, folded⟩ := analyse_visits visit s tree
  rw [all through, run] at folded
  clear run
  generalize nodesOf tree = places at folded reached
  induction places generalizing s with
  | nil => cases reached
  | cons m places ih =>
    obtain ⟨next, first, folded⟩ := bind_cases folded
    rcases mem_cons.mp reached with rfl | later
    · obtain ⟨r, answered, -⟩ := bind_cases first
      exact ⟨s, r, answered⟩
    · exact ih folded later

theorem nameOf_nameless {name : String} (nameless : Nameless v) : nameOf v ≠ .ok name := by
  intro named
  obtain ⟨x, found, -⟩ := bind_cases named
  have none := nameless.2
  unfold part at none
  cases read : v.field? "id" with
  | none => rw [read] at found; cases found
  | some id =>
    rw [read, Option.getD_some] at none
    rw [read, none] at found
    cases found

theorem singleReturns_nameless (exports : HasNamelessExport tree) (root : kind? tree = some "Program") (t : Table) :
    singleReturns tree ≠ .ok t := by
  intro counted
  obtain ⟨r, run, -⟩ := bind_cases counted
  obtain ⟨items, held, x, inside, known, nameless⟩ := exports
  obtain ⟨es, rfl⟩ := dict_of_kind? root
  have kind : visitedKind false es = "Program" := visitedKind_of_kind? root (by decide)
  have node := isNode_of_kind? known
  have exported : (some (.dict es), x) ∈ nodesOf (.dict es) := by
    refine mem_nodesIn.mpr (Or.inr ⟨rfl, _, x, .listed (mem_of_part held) ?_ inside (isVisited_node node), nodesIn_self node⟩)
    rw [kind]
    decide
  have function := nodesOf_child exported known (by decide) (by decide) (isNode_of_kind? nameless.1)
  obtain ⟨s, r, answered⟩ := analyse_each (fun _ _ _ r answered => by rw [countReturns_ok r answered]) run function
  have declared : hasKind (part x "declaration") "FunctionDeclaration" := by
    rw [hasKind, nameless.1]
    rfl
  rw [countReturns, if_pos declared] at answered
  obtain ⟨name, named, -⟩ := bind_cases answered
  exact nameOf_nameless nameless named

theorem HasNamelessExport.ran {p : Pass} (exports : HasNamelessExport tree) (keeps : Keeps anything tree)
    (tame : Tame anything p) (idle : ∀ kind ∈ exportKinds, Idle p kind)
    (ran : p.run tree = { value := w, changed }) : HasNamelessExport w ∧ Keeps anything w := by
  have fine : (p.run tree).fault = none := by rw [ran]
  have both := And.intro (exports.run idle keeps fine) (tame.keeps_anything keeps fine)
  rwa [ran] at both

theorem round_nameless (keeps : Keeps anything tree) (exports : HasNamelessExport tree) : (round keepComments tree).fault ≠ none := by
  intro finished
  have run := round_run finished
  generalize round keepComments tree = o at run
  cases run with
  | @intro simple reduced flat pruned _ vs _ _ _ _ _ simplified taken flattened _ cleared returned =>
    obtain ⟨exports, keeps⟩ := exports.ran keeps operators_edits.tame (by simp [exportKinds, operators_idle]) simplified
    obtain ⟨exports, keeps⟩ := exports.ran keeps conditionals_edits.tame (by simp [exportKinds, conditionals_idle]) taken
    have root := keeps.root
    have keepsFlat := flattenBlocks_keeps keeps (by rw [flattened]; rfl)
    obtain ⟨es, rfl⟩ := dict_of_kind? root
    have done := (flattenBlocks_done flattened).1
    have exportsFlat := exports.flatten root (by rw [done]; rfl)
    rw [flattened] at keepsFlat
    rw [done] at exportsFlat
    obtain ⟨exports, keeps⟩ := exportsFlat.ran keepsFlat (variablePass_edits _ vs).tame (by simp [exportKinds, variablePass_idle]) cleared
    obtain ⟨t, counted, -⟩ := bind_cases returned
    exact singleReturns_nameless exports keeps.root t counted

end Rounds

end Rulewright.Flag
