import Rulewright.Proofs.Flag.Answers
import Rulewright.Proofs.Flag.Flattening

/-!
What a script does: a test holds or not, and a statement runs a sequence of opaque statements. A check of
the flag holds as the settings say; every other atom holds as a valuation of its code says. Neither
depends on comments (`holds_of_bare`, `trace_of_bare`), nor on blocks in blocks
(`flattenNode_holds`, `flattenNode_trace`).
-/

open List

namespace Rulewright.Flag

variable {R : Value → Value → Prop} {w v : Value} {valuation : Value → Bool} {keepComments loose : Bool} {kind : String} {s : Settings}

theorem part_lt (known : kind? v = some kind) (key : String) :
    sizeOf (part v key) < sizeOf v := by
  cases v with
  | dict es =>
    simp only [part, Value.field?]
    cases read : Entries.get? key es with
    | none =>
      have : 0 < sizeOf es := by cases es <;> simp only [List.nil.sizeOf_spec, List.cons.sizeOf_spec] <;> omega
      simp only [Option.getD_none, Value.null.sizeOf_spec, Value.dict.sizeOf_spec]
      omega
    | some w =>
      have := sizeOf_lt_of_mem (Entries.mem_of_get? read)
      simp only [Prod.mk.sizeOf_spec, Option.getD_some, Value.dict.sizeOf_spec] at this ⊢
      omega
  | _ => simp [kind?, Value.field?] at known

inductive Shape where
  | check (b : Bool)
  | known (b : Bool)
  | both (left right : Value)
  | either (left right : Value)
  | negation (argument : Value)
  | choice (test consequent alternate : Value)
  | atom
  deriving DecidableEq

def shape (s : Settings) (v : Value) : Shape :=
  match kind? v with
  | some "CallExpression" =>
    match checked? s v with
    | some b => .check b
    | none => .atom
  | some "Literal" =>
    match isMark v, truth? (some v) with
    | true, some b => .known b
    | _, _ => .atom
  | some "LogicalExpression" =>
    match v.field? "operator" with
    | some (.str "&&") => .both (part v "left") (part v "right")
    | some (.str "||") => .either (part v "left") (part v "right")
    | _ => .atom
  | some "UnaryExpression" =>
    match v.field? "operator" with
    | some (.str "!") => .negation (part v "argument")
    | _ => .atom
  | some "ConditionalExpression" => .choice (part v "test") (part v "consequent") (part v "alternate")
  | _ => .atom

namespace Shape

def parts : Shape → List Value
  | both l r => [l, r]
  | either l r => [l, r]
  | negation v => [v]
  | choice t c a => [t, c, a]
  | _ => []

def Rel (R : Value → Value → Prop) : Shape → Shape → Prop
  | check a, check b => a = b
  | known a, known b => a = b
  | both l r, both l' r' => R l l' ∧ R r r'
  | either l r, either l' r' => R l l' ∧ R r r'
  | negation v, negation v' => R v v'
  | choice t c a, choice t' c' a' => R t t' ∧ R c c' ∧ R a a'
  | .atom, .atom => True
  | _, _ => False

def eval (value : Value → Bool) (atom : Bool) : Shape → Bool
  | check b => b
  | known b => b
  | both l r => value l && value r
  | either l r => value l || value r
  | negation v => !value v
  | choice t c a => if value t then value c else value a
  | .atom => atom

theorem eval_compound {shape : Shape} (compound : shape ≠ .atom) (value : Value → Bool) (a b : Bool) :
    shape.eval value a = shape.eval value b := by
  cases shape <;> first | rfl | exact (compound rfl).elim

theorem Rel.eval {a b : Shape} (related : a.Rel R b) {value : Value → Bool} (same : ∀ v w, R v w → value w = value v) (atom : Bool) : b.eval value atom = a.eval value atom := by
  cases a <;> cases b <;> simp only [Rel] at related
  case both.both | either.either => simp only [Shape.eval, same _ _ related.1, same _ _ related.2]
  case negation.negation => simp only [Shape.eval, same _ _ related]
  case choice.choice => simp only [Shape.eval, same _ _ related.1, same _ _ related.2.1, same _ _ related.2.2]
  all_goals simp_all [Shape.eval]

theorem Rel.parts {a b : Shape} (related : a.Rel R b) (inside : w ∈ b.parts) : ∃ v ∈ a.parts, R v w := by
  cases a <;> cases b <;> simp only [Rel] at related <;> simp_all [Shape.parts] <;> grind

end Shape

def testFields : List String := ["left", "right", "argument", "test", "consequent", "alternate"]

theorem shape_parts (inside : w ∈ (shape s v).parts) :
    ∃ kind, kind? v = some kind ∧ ∃ key ∈ testFields, isChild (childFields kind) key ∧ w = part v key := by
  unfold shape at inside
  split at inside
  · split at inside <;> cases inside
  · split at inside <;> cases inside
  · rename_i kind
    refine ⟨_, kind, ?_⟩
    split at inside <;> simp only [Shape.parts, mem_cons, not_mem_nil, or_false] at inside
    · rcases inside with rfl | rfl
      · exact ⟨"left", by decide, by decide, rfl⟩
      · exact ⟨"right", by decide, by decide, rfl⟩
    · rcases inside with rfl | rfl
      · exact ⟨"left", by decide, by decide, rfl⟩
      · exact ⟨"right", by decide, by decide, rfl⟩
  · rename_i kind
    split at inside <;> simp only [Shape.parts, mem_cons, not_mem_nil, or_false] at inside
    exact ⟨_, kind, "argument", by decide, by decide, inside⟩
  · rename_i kind
    refine ⟨_, kind, ?_⟩
    simp only [Shape.parts, mem_cons, not_mem_nil, or_false] at inside
    rcases inside with rfl | rfl | rfl
    · exact ⟨"test", by decide, by decide, rfl⟩
    · exact ⟨"consequent", by decide, by decide, rfl⟩
    · exact ⟨"alternate", by decide, by decide, rfl⟩
  · cases inside

theorem shape_lt (inside : w ∈ (shape s v).parts) : sizeOf w < sizeOf v := by
  obtain ⟨kind, known, key, -, -, rfl⟩ := shape_parts inside
  exact part_lt known key

def holds (s : Settings) (valuation : Value → Bool) (v : Value) : Bool :=
  match _made : shape s v with
  | .check b => b
  | .known b => b
  | .both l r => holds s valuation l && holds s valuation r
  | .either l r => holds s valuation l || holds s valuation r
  | .negation w => !holds s valuation w
  | .choice t c a => if holds s valuation t then holds s valuation c else holds s valuation a
  | .atom => isNode v && valuation (codeNode false v)
termination_by sizeOf v
decreasing_by all_goals exact shape_lt (s := s) (by simp [_made, Shape.parts])

theorem holds_eq (s : Settings) (valuation : Value → Bool) (v : Value) :
    holds s valuation v = (shape s v).eval (holds s valuation) (isNode v && valuation (codeNode false v)) := by
  rw [holds]
  split <;> simp_all [Shape.eval]

inductive Form where
  | nothing
  | scope (items : List Value)
  | branch (test consequent alternate : Value)
  | plain

def form (v : Value) : Form :=
  match kind? v with
  | none => .nothing
  | some kind =>
    if isScope kind then .scope ((part v "body").list?.getD [])
    else if kind = "IfStatement" then .branch (part v "test") (part v "consequent") (part v "alternate")
    else .plain

def Form.parts : Form → List Value
  | .scope items => items
  | .branch _ c a => [c, a]
  | _ => []

theorem form_lt (inside : w ∈ (form v).parts) : sizeOf w < sizeOf v := by
  unfold form at inside
  split at inside
  · simp [Form.parts] at inside
  · rename_i kind known
    split at inside
    · simp only [Form.parts] at inside
      refine Nat.lt_trans ?_ (part_lt known "body")
      cases body : part v "body" <;> simp [body, Value.list?] at inside
      have := sizeOf_lt_of_mem inside
      simp only [Value.list.sizeOf_spec]
      omega
    · split at inside
      · simp only [Form.parts, mem_cons, not_mem_nil, or_false] at inside
        rcases inside with rfl | rfl <;> exact part_lt known _
      · simp [Form.parts] at inside

def trace (s : Settings) (valuation : Value → Bool) (v : Value) : List Value :=
  match _made : form v with
  | .nothing => []
  | .scope items => items.attach.flatMap fun item => trace s valuation item.1
  | .branch t c a => if holds s valuation t then trace s valuation c else trace s valuation a
  | .plain => [codeNode false v]
termination_by sizeOf v
decreasing_by
  · exact form_lt (by simp [_made, Form.parts, item.2])
  · exact form_lt (by simp [_made, Form.parts])
  · exact form_lt (by simp [_made, Form.parts])

theorem trace_eq (s : Settings) (valuation : Value → Bool) (v : Value) :
    trace s valuation v =
      match form v with
      | .nothing => []
      | .scope items => items.flatMap (trace s valuation)
      | .branch t c a => if holds s valuation t then trace s valuation c else trace s valuation a
      | .plain => [codeNode false v] := by
  rw [trace]
  split <;> rename_i made <;> simp only [made, flatMap_subtype, unattach_attach]

theorem trace_scope (known : kind? v = some kind) (scope : isScope kind) :
    trace s valuation v = ((part v "body").list?.getD []).flatMap (trace s valuation) := by
  rw [trace_eq, form, known]
  simp [scope]

theorem trace_branch (known : kind? v = some "IfStatement") :
    trace s valuation v =
      if holds s valuation (part v "test") then trace s valuation (part v "consequent")
      else trace s valuation (part v "alternate") := by
  rw [trace_eq, form, known]
  simp [isScope]

theorem trace_plain (known : kind? v = some kind) (plain : isScope kind = false)
    (other : kind ≠ "IfStatement") : trace s valuation v = [codeNode false v] := by
  rw [trace_eq, form, known]
  simp [plain, other]

structure SameFrame (v w : Value) : Prop where
  kind : kind? w = kind? v
  field : ∀ kind key, kind? v = some kind → isChild (childFields kind) key = false → key ≠ "body" →
    key ≠ "comments" → w.field? key = v.field? key

theorem SameFrame.isMark (frame : SameFrame v w) : isMark w = isMark v := by
  rw [Flag.isMark, Flag.isMark, hasKind, hasKind, frame.kind]
  by_cases known : kind? v = some "Literal"
  · rw [frame.field _ _ known (by decide) (by decide) (by decide)]
  · rw [beq_eq_false_iff_ne.mpr known, Bool.false_and, Bool.false_and]

theorem SameFrame.truth? (frame : SameFrame v w) (known : kind? v = some "Literal") : truth? (some w) = truth? (some v) := by
  simp only [Flag.truth?, Option.bind_some, frame.field _ "value" known (by decide) (by decide) (by decide)]

theorem SameFrame.shape (frame : SameFrame v w) (call : kind? v = some "CallExpression" → checked? s w = checked? s v) (parts : ∀ kind, kind? v = some kind → kind ≠ "" → ∀ key ∈ testFields, isChild (childFields kind) key →
      part v key ∈ (shape s v).parts → R (part v key) (part w key)) : (shape s v).Rel R (shape s w) := by
  generalize made : Flag.shape s v = a at parts ⊢
  unfold Flag.shape at made ⊢
  rw [frame.kind]
  split at made <;> rename_i kind
  · simp only [call kind] at made ⊢
    split at made <;> subst made <;> simp [Shape.Rel]
  · simp only [frame.isMark, frame.truth? kind] at made ⊢
    split at made <;> subst made <;> simp [Shape.Rel]
  · have operator := frame.field _ "operator" kind (by decide) (by decide) (by decide)
    simp only [operator] at made ⊢
    have related (key : String) := parts _ kind (by decide) key
    split at made <;> subst made
    · exact ⟨related "left" (by decide) (by decide) (by simp [Shape.parts]),
        related "right" (by decide) (by decide) (by simp [Shape.parts])⟩
    · exact ⟨related "left" (by decide) (by decide) (by simp [Shape.parts]),
        related "right" (by decide) (by decide) (by simp [Shape.parts])⟩
    · trivial
  · have operator := frame.field _ "operator" kind (by decide) (by decide) (by decide)
    simp only [operator] at made ⊢
    split at made <;> subst made
    · exact parts _ kind (by decide) "argument" (by decide) (by decide) (by simp [Shape.parts])
    · trivial
  · subst made
    have related (key : String) := parts _ kind (by decide) key
    exact ⟨related "test" (by decide) (by decide) (by simp [Shape.parts]),
      related "consequent" (by decide) (by decide) (by simp [Shape.parts]),
      related "alternate" (by decide) (by decide) (by simp [Shape.parts])⟩
  · subst made
    trivial

theorem checked?_of_bare (same : bare v = bare w) (s : Settings) : checked? s v = checked? s w := by
  simp only [checked?, part_of_bare same (by decide : "callee" ≠ "comments"),
    part_of_bare same (by decide : "arguments" ≠ "comments")]

theorem isMark_of_bare (same : bare v = bare w) : isMark v = isMark w := by
  rw [isMark, isMark, hasKind_of_bare same, field?_of_bare same (by decide)]

theorem truth?_of_bare (same : bare v = bare w) : truth? (some v) = truth? (some w) := by
  simp only [truth?, Option.bind_some, field?_of_bare same (by decide : "value" ≠ "comments")]

theorem shape_of_bare (same : bare v = bare w) (s : Settings) : shape s v = shape s w := by
  simp only [shape, kind?_of_bare same, checked?_of_bare same, isMark_of_bare same, truth?_of_bare same,
    field?_of_bare same (by decide : "operator" ≠ "comments"), part_of_bare same (by decide : "left" ≠ "comments"),
    part_of_bare same (by decide : "right" ≠ "comments"), part_of_bare same (by decide : "argument" ≠ "comments"),
    part_of_bare same (by decide : "test" ≠ "comments"), part_of_bare same (by decide : "consequent" ≠ "comments"),
    part_of_bare same (by decide : "alternate" ≠ "comments")]

theorem form_of_bare (same : bare v = bare w) : form v = form w := by
  simp only [form, kind?_of_bare same, part_of_bare same (by decide : "body" ≠ "comments"),
    part_of_bare same (by decide : "test" ≠ "comments"), part_of_bare same (by decide : "consequent" ≠ "comments"),
    part_of_bare same (by decide : "alternate" ≠ "comments")]

theorem holds_of_bare (same : bare v = bare w) (s : Settings) (valuation : Value → Bool) : holds s valuation v = holds s valuation w := by
  rw [holds_eq, holds_eq s valuation w, shape_of_bare same, isNode_of_bare same, codeNode_of_bare same]

theorem trace_of_bare (same : bare v = bare w) (s : Settings) (valuation : Value → Bool) : trace s valuation v = trace s valuation w := by
  rw [trace_eq, trace_eq s valuation w, form_of_bare same, codeNode_of_bare same]

theorem isChild_visitedKind {es : Entries} {key : String} (known : kind? (.dict es) = some kind)
    (other : isChild (childFields kind) key = false) (loose : Bool) :
    isChild (childFields (visitedKind loose es)) key = false := by
  by_cases named : kind = ""
  · subst named
    exact absurd other (by simp [show childFields "" = none from by decide, isChild])
  · rwa [visitedKind_of_kind? known named]

theorem flattenNode_frame (finished : (flattenNode keepComments loose v).fault = none) :
    SameFrame v (flattenNode keepComments loose v).value := by
  refine ⟨flattenNode_kind? finished, fun kind key known other _ different => ?_⟩
  cases v with
  | dict es => exact flattenNode_field? finished (isChild_visitedKind known other loose) different
  | _ => rfl

theorem SameFrame.isFlag (frame : SameFrame v w) (flag : Option Value) : isFlag flag w = isFlag flag v := by
  unfold Flag.isFlag
  rw [frame.kind]
  split
  · rename_i kind
    rw [frame.field _ _ kind (by decide) (by decide) (by decide)]
  · rename_i kind
    rw [frame.field _ _ kind (by decide) (by decide) (by decide)]
  · rfl

section Flatten

variable {s : Settings} {f : Flattening} {kind key : String} {fields : List String} {v : Value}

theorem flatField_induction {P : Value → Value → Prop} (flat : FieldFlat f kind fields (key, v)) (refl : P v v)
    (node : isNode v → (flattenNode f.keepComments false v).fault = none →
      P v (flattenNode f.keepComments false v).value)
    (list : ∀ items, v = .list items → (flattenItems f (isPropertyList kind key) items).fault = none →
      P v (.list (flattenItems f (isPropertyList kind key) items).value.parts)) :
    P v (flatField f kind fields key v) := by
  rcases flatField_cases flat with ⟨same, -⟩ | ⟨-, ⟨own, fine, same⟩ | ⟨items, whole, fine, same⟩⟩ <;> rw [same]
  · exact refl
  · exact node own fine
  · exact list items whole fine

theorem member?_isFlag (v : Value) (key : String) (flag : Option Value) :
    (member? v key).any (isFlag flag) = (ownMember? v key).any (isFlag flag) := by
  unfold member?
  cases ownMember? v key with
  | some w => rfl
  | none =>
    split <;> rfl

theorem flatField_member (plain : f.scope = false) (flat : FieldFlat f kind fields (key, v)) (index : String)
    (flag : Option Value) :
    (member? (flatField f kind fields key v) index).any (isFlag flag) = (member? v index).any (isFlag flag) := by
  rw [member?_isFlag, member?_isFlag]
  rcases flatField_cases flat with ⟨same, -⟩ | ⟨-, ⟨node, fine, same⟩ | ⟨items, rfl, fine, same⟩⟩ <;> rw [same]
  · obtain ⟨es, rfl⟩ := isNode_dict node
    have own (v : Value) (table : v.dict?.isSome) : ownMember? v index = v.field? index := by
      cases v <;> first | rfl | simp [Value.dict?] at table
    obtain ⟨es', whole⟩ := flattenNode_dict fine
    obtain ⟨fields', f', -, flat⟩ := flattenNode_finished fine
    rw [own _ (by simp [whole, Value.dict?]), own _ (by simp [Value.dict?])]
    by_cases comments : index = "comments"
    · subst comments
      rcases flat.comments with same | ⟨⟨items, listed⟩, noTable⟩
      · rw [same]
      · rw [listed]
        cases read : (Value.dict es).field? "comments" with
        | none => rfl
        | some w =>
          have := noTable w read
          cases w <;> first | rfl | simp [Value.dict?] at this
    · rw [flat.reads comments]
      cases read : (Value.dict es).field? index with
      | none => rfl
      | some w =>
        exact flatField_induction (P := fun v w => isFlag flag w = isFlag flag v) (flat.clean _ (Entries.mem_of_get? read)) rfl
          (fun _ finished => (flattenNode_frame finished).isFlag flag) (by rintro items rfl _; rfl)
  · obtain ⟨clean, parts⟩ := flattenItems_plain plain fine
    have same (v : Value) (element : v ∈ items) :
        isFlag flag (if isVisited (isPropertyList kind key) v then
          (flattenNode f.keepComments (isPropertyList kind key) v).value else v) = isFlag flag v := by
      split
      · rename_i visited
        exact (flattenNode_frame (clean v element visited)).isFlag flag
      · rfl
    simp only [parts, ownMember?, length_map, getElem?_map]
    split
    · rfl
    · cases indexKey? index with
      | none => rfl
      | some i =>
        cases read : items[i]? with
        | none => simp [read]
        | some v => simp [read, same v (mem_of_getElem? read)]

theorem flattenNode_checked (finished : (flattenNode keepComments false v).fault = none) (call : kind? v = some "CallExpression") :
    checked? s (flattenNode keepComments false v).value = checked? s v := by
  cases v with
  | dict es =>
    have visited : visitedKind false es = "CallExpression" := visitedKind_of_kind? call (by decide)
    obtain ⟨fields, f, -, flat⟩ := flattenNode_finished finished
    have name : (part (flattenNode keepComments false (.dict es)).value "callee").field? "name" =
        (part (.dict es) "callee").field? "name" := by
      rw [flat.part_eq (by decide)]
      refine flatField_induction (P := fun v w => w.field? "name" = v.field? "name") (flat.field _) rfl ?_ ?_
      · intro node finished
        cases whole : part (.dict es) "callee" with
        | dict es' =>
          rw [whole] at finished
          obtain ⟨fields, _, -, flat⟩ := flattenNode_finished finished
          exact flat.field? (childFields_contains flat.known (by decide) (by decide)) (by decide)
        | _ => rfl
      · rintro items listed _
        rw [listed]
        rfl
    have plain : f.scope = false := by rw [flat.scope, visited]; rfl
    simp only [checked?, name, flat.part_eq (show "arguments" ≠ "comments" by decide), flatField_member plain (flat.field _)]
  | _ => rfl

theorem holds_leaf (leaf : isNode v = false) : holds s valuation v = false := by
  rw [holds_eq, shape, kind?_leaf leaf, leaf]
  rfl

theorem flattenNode_parts {α : Type} {g : Value → α} (finished : (flattenNode keepComments false (.dict es)).fault = none)
    (single : ∀ key v, (key, v) ∈ es → (flattenNode keepComments false v).fault = none → g (flattenNode keepComments false v).value = g v)
    (lists : ∀ xs ys, g (.list xs) = g (.list ys)) (different : key ≠ "comments") :
    g (part (flattenNode keepComments false (.dict es)).value key) = g (part (.dict es) key) := by
  obtain ⟨fields, f, rfl, flat⟩ := flattenNode_finished finished
  rw [flat.part_eq different]
  refine flatField_induction (P := fun v w => g w = g v) (flat.field key) rfl ?_ ?_
  · intro node finished
    unfold part at finished ⊢
    cases held : (Value.dict es).field? key with
    | none => rfl
    | some v =>
      rw [held] at finished
      exact single key v (Entries.mem_of_get? held) finished
  · intro items listed _
    rw [listed]
    exact lists _ _

theorem flattenNode_holds (finished : (flattenNode keepComments false v).fault = none) :
    holds s valuation (flattenNode keepComments false v).value = holds s valuation v := by
  induction v using node_induction with
  | leaf v leaf => cases v <;> first | rfl | exact (leaf _ rfl).elim
  | node es single _ =>
    have parts {key : String} (other : key ≠ "comments") := flattenNode_parts (g := holds s valuation) finished single (fun _ _ => by rw [holds_leaf rfl, holds_leaf rfl]) other
    have related := (flattenNode_frame finished).shape (s := s) (R := fun v w => holds s valuation w = holds s valuation v)
      (flattenNode_checked finished) (fun _ _ _ key test _ _ => parts (by rintro rfl; simp [testFields] at test))
    rw [holds_eq, holds_eq s valuation (.dict es), related.eval (fun _ _ same => same), isNode, isNode,
      flattenNode_type finished, flattenNode_code finished]

theorem flatField_holds (flat : FieldFlat f kind fields (key, v)) : holds s valuation (flatField f kind fields key v) = holds s valuation v :=
  flatField_induction (P := fun v w => holds s valuation w = holds s valuation v) flat rfl
    (fun _ finished => flattenNode_holds finished) (by rintro items rfl _; rw [holds_leaf rfl, holds_leaf rfl])

theorem trace_leaf (leaf : isNode v = false) : trace s valuation v = [] := by
  rw [trace_eq, form, kind?_leaf leaf]

theorem trace_block {items : List Value} (block : hasKind v "BlockStatement") (stated : statementsOf v = .ok items) : items.flatMap (trace s valuation) = trace s valuation v := by
  have kind : kind? v = some "BlockStatement" := by simpa [hasKind] using block
  rw [trace_scope kind rfl, part]
  unfold statementsOf at stated
  split at stated
  · rename_i read
    cases stated
    rw [read]
    rfl
  · rename_i text read
    cases stated
    rw [read]
    refine flatMap_eq_nil_iff.mpr fun c member => ?_
    obtain ⟨x, -, rfl⟩ := mem_map.mp member
    exact trace_leaf rfl
  · cases stated

theorem flatItem_trace (inside : (flattenNode f.keepComments false v).fault = none →
      trace s valuation (flattenNode f.keepComments false v).value = trace s valuation v)
    (finished : (flatItem f false v).fault = none) : (flatItem f false v).value.parts.flatMap (trace s valuation) = trace s valuation v := by
  rcases flatItem_cases finished with ⟨-, same⟩ | ⟨-, clean, ⟨-, same⟩ | ⟨-, block, items, stated, alike⟩⟩
  · simp [same]
  · simp [same, inside clean]
  · rw [flatMap_of_bare (fun _ _ same => trace_of_bare same _ _) alike, trace_block block stated, inside clean]

theorem flattenNode_trace (finished : (flattenNode keepComments false v).fault = none) :
    trace s valuation (flattenNode keepComments false v).value = trace s valuation v := by
  induction v using node_induction with
  | leaf v leaf => cases v <;> first | rfl | exact (leaf _ rfl).elim
  | node es single listed =>
    obtain ⟨fields, f, rfl, flat⟩ := flattenNode_finished finished
    have parts {key : String} (other : key ≠ "comments") := flattenNode_parts (g := trace s valuation) finished single (fun _ _ => by rw [trace_leaf rfl, trace_leaf rfl]) other
    have same := flattenNode_kind? finished
    cases known : kind? (.dict es) with
    | none => rw [trace_eq, trace_eq s valuation (.dict es), form, form, same, known]
    | some kind =>
      rw [known] at same
      have body : ((part (flattenNode f.keepComments false (.dict es)).value "body").list?.getD []).flatMap (trace s valuation) =
          ((part (.dict es) "body").list?.getD []).flatMap (trace s valuation) := by
        rw [flat.part_eq (by decide)]
        refine flatField_induction (P := fun v w =>
          (w.list?.getD []).flatMap (trace s valuation) = (v.list?.getD []).flatMap (trace s valuation)) (flat.field _) rfl ?_ ?_
        · intro node finished
          cases held : part (.dict es) "body" with
          | dict es' =>
            rw [held] at finished
            obtain ⟨es'', whole⟩ := flattenNode_dict finished
            rw [whole]
            rfl
          | _ => rfl
        · intro items held finished
          obtain ⟨clean, parts⟩ := flattenItems_finished finished
          rw [held, parts]
          simp only [Value.list?, Option.getD_some, flatMap_assoc]
          refine flatMap_congr fun v element => flatItem_trace (fun finished => ?_) (clean v element)
          exact listed "body" items (mem_of_part held) v element finished
      cases scope : isScope kind with
      | true => rw [trace_scope same scope, trace_scope known scope, body]
      | false =>
        by_cases branch : kind = "IfStatement"
        · subst branch
          rw [trace_branch same, trace_branch known, flat.part_eq (by decide), flatField_holds (flat.field _), @parts "consequent" (by decide), @parts "alternate" (by decide)]
        · rw [trace_plain same scope branch, trace_plain known scope branch, flattenNode_code finished]

end Flatten

end Rulewright.Flag
