import Rulewright.Flag.Cleanup
import Rulewright.Proofs.Flag.Bare

/-!
What each visit answers, one inversion lemma for each pass: which nodes it leaves alone, which it takes
out, and what it puts in the place of the others.
-/

open Option

namespace Rulewright.Flag

variable {v w tree : Value} {r : Reply} {b : Bool} {result : Except Fault Reply} {s : Settings} {branch : String} {carry : Carry} {t : Table}

open Value

def answer (behaviour method : Value) : Bool :=
  match method.field? "flagType" with
  | some (.str "treated") => truthy behaviour
  | some (.str "control") => !truthy behaviour
  | _ => false

def isFlag (flag : Option Value) (argument : Value) : Bool :=
  match kind? argument with
  | some "Identifier" => sameName (argument.field? "name") flag
  | some "Literal" => sameName (argument.field? "value") flag
  | _ => false

def checked? (s : Settings) (call : Value) : Option Bool := do
  let ms ← (methods s.properties).toOption
  let method ← ms.get? ((part call "callee").field? "name")
  let argument := member? (part call "arguments") (displayOr (method.field? "argumentIndex"))
  if argument.any (isFlag s.flag) then some (answer s.behaviour method) else none

def isMark (v : Value) : Bool := hasKind v "Literal" && (v.field? marker).isSome

def mark? (v : Value) : Option Bool := if isMark v then truth? (some v) else none

theorem isMark_kind? (marked : isMark v) : kind? v = some "Literal" := by
  simpa [hasKind] using (Bool.and_eq_true_iff.mp marked).1

theorem bind_mark? (v : Value) (key : String) : (v.field? key).bind mark? = mark? (part v key) := by
  rw [part]
  cases v.field? key <;> rfl

def Agreed (vs : List Value) : Prop :=
  ∀ v ∈ vs, (mark? v).isSome = true ∧ ∀ w ∈ vs, mark? w = mark? v

instance (vs : List Value) : Decidable (Agreed vs) :=
  inferInstanceAs (Decidable (∀ v ∈ vs, (mark? v).isSome = true ∧ ∀ w ∈ vs, mark? w = mark? v))

theorem agreed_iff {vs : List Value} (one : ∃ v ∈ vs, mark? v = some b) :
    (∀ v ∈ vs, mark? v = some b) ↔ Agreed vs := by
  constructor
  · intro all v inside
    refine ⟨by rw [all v inside]; rfl, fun w other => ?_⟩
    rw [all v inside, all w other]
  · intro agreed v inside
    obtain ⟨w, other, marked⟩ := one
    rw [← marked]
    exact (agreed w other).2 v inside

theorem ofExcept_finished (finished : (Reply.ofExcept v result).fault = none) :
    ∃ r, result = .ok r ∧ Reply.ofExcept v result = r := by
  cases result with
  | ok r => exact ⟨r, rfl, rfl⟩
  | error fault => cases finished

theorem ofExcept_elim {P : Reply → Prop} (finished : (Reply.ofExcept v result).fault = none)
    (each : ∀ r, result = .ok r → P r) : P (Reply.ofExcept v result) := by
  obtain ⟨r, answered, same⟩ := ofExcept_finished finished
  exact same ▸ each r answered

theorem read_ok {v : Option Value} {key : String} {w : Option Value} (found : read v key = .ok w) :
    ∃ x, v = some x ∧ w = x.field? key := by
  unfold read at found
  split at found
  · cases found
  · cases found
  · rename_i x _
    cases found
    exact ⟨x, rfl, rfl⟩

theorem kindOf_ok {v type : Option Value} (found : kindOf v = .ok type) (kind : String) :
    ∃ x, v = some x ∧ (type == some (.str kind)) = hasKind x kind := by
  obtain ⟨x, rfl, rfl⟩ := read_ok found
  refine ⟨x, rfl, ?_⟩
  rw [hasKind, kind?]
  cases x.field? "type" with
  | none => rfl
  | some type => cases type <;> simp [Value.str?]

theorem checkValue_answer (behaviour method : Value) :
    checkValue behaviour (method.field? "flagType") = answer behaviour method := by
  unfold checkValue answer
  split <;> simp_all

theorem namesFlag_isFlag {flag argument : Option Value} : Gives (namesFlag flag argument) (· = argument.any (isFlag flag)) := by
  refine .bind fun type found => ?_
  obtain ⟨x, rfl, rfl⟩ := read_ok found
  simp only [any_some, isFlag, kind?]
  split
  · rename_i type
    exact gives_pure (by simp [type, str?])
  · rename_i type
    exact gives_pure (by simp [type, str?])
  · refine gives_pure ?_
    cases type : x.field? "type" with
    | none => rfl
    | some t =>
      cases t with
      | str name =>
        simp only [bind_some, str?]
        split <;> simp_all
      | _ => rfl

theorem known_of {kind : String} (known : hasKind v kind) : kind? v = some kind := by simpa [hasKind] using known

theorem replaceCheck_cases {ms : Methods} (listed : methods s.properties = .ok ms) : Gives (replaceCheck s ms v) fun r =>
    (∃ b, kind? v = some "CallExpression" ∧ checked? s v = some b ∧ r = .put v (literal b)) ∨
      (kind? v = some "CallExpression" → checked? s v = none) ∧ r = .keep v := by
  refine .bind fun _ _ => .ite (fun call => .bind fun name callee => ?_) fun other => gives_pure ?_
  · obtain ⟨x, held, rfl⟩ := read_ok callee
    have named : (part v "callee").field? "name" = x.field? "name" := by rw [part, held, getD_some]
    simp only [checked?, listed, named, Except.toOption, bind_eq_bind, bind_some]
    split
    · rename_i unlisted
      exact gives_pure (Or.inr ⟨fun _ => by rw [unlisted]; rfl, rfl⟩)
    · rename_i method found
      rw [found, bind_some]
      refine .bind fun argument positioned => .bind fun b flagged => ?_
      have placed : argument = member? (part v "arguments") (displayOr (method.field? "argumentIndex")) := by
        unfold argumentAt at positioned
        split at positioned
        · cases positioned
        · cases positioned
        · rename_i _ read
          cases positioned
          rw [part, read, getD_some]
      rw [← placed, ← namesFlag_isFlag b flagged, ← checkValue_answer]
      cases b with
      | true => exact gives_pure (Or.inl ⟨_, known_of call, rfl, rfl⟩)
      | false => exact gives_pure (Or.inr ⟨fun _ => rfl, rfl⟩)
  · exact Or.inr ⟨fun known => by simp [hasKind, known] at other, rfl⟩

theorem replaceChecks_finished (finished : (replaceChecks s tree).fault = none) :
    ∃ ms, methods s.properties = .ok ms ∧ replaceChecks s tree = (checks s ms).run tree := by
  unfold replaceChecks at finished ⊢
  split at finished
  · rename_i ms listed
    exact ⟨ms, listed, rfl⟩
  · cases finished

def settingsFor (behaviour : Bool) (maxSteps : Option Value) : Settings where
  properties := .dict [("methodProperties", .list [.dict [("methodName", .str "isTreated"),
    ("flagType", .str "treated"), ("argumentIndex", .int 0)]])]
  behaviour := .bool behaviour
  flag := some (.str "flag")
  maxSteps := maxSteps

def identifier (name : String) : Value := .dict [("type", .str "Identifier"), ("name", .str name)]

def flagCheck : Value :=
  .dict [("type", .str "CallExpression"), ("callee", identifier "isTreated"), ("arguments", .list [identifier "flag"])]

def statement (expression : Value) : Value := .dict [("type", .str "ExpressionStatement"), ("expression", expression)]

def conditional (test consequent alternate : Value) : Value :=
  .dict [("type", .str "IfStatement"), ("test", test), ("consequent", consequent), ("alternate", alternate)]

def script (statements : List Value) : Value := .dict [("type", .str "Program"), ("body", .list statements)]

theorem isMarked_ok {v : Option Value} (marked : isMarked v = .ok b) : ∃ x, v = some x ∧ b = isMark x := by
  unfold isMarked at marked
  split at marked
  · cases marked
  · cases marked
  · cases marked
    exact ⟨_, rfl, rfl⟩

theorem isMarked_part {key : String} (found : isMarked (v.field? key) = .ok b) :
    v.field? key = some (part v key) ∧ b = isMark (part v key) := by
  obtain ⟨x, held, mark⟩ := isMarked_ok found
  rw [part, held]
  exact ⟨rfl, mark⟩

theorem reduceOperator_cases : Gives (reduceOperator v) fun r =>
    r = .keep v ∨
      (kind? v = some "LogicalExpression" ∧ ∃ key other, (key = "left" ∧ other = "right" ∨ key = "right" ∧ other = "left") ∧
        isMark (part v key) ∧
          (reduceLogical (some (part v key)) (v.field? other) (v.field? "operator") = none ∧ r = { node := v, changed := true } ∨
            ∃ w, reduceLogical (some (part v key)) (v.field? other) (v.field? "operator") = some w ∧ r = .put v w)) ∨
      kind? v = some "UnaryExpression" ∧ v.field? "operator" = some (.str "!") ∧ isMark (part v "argument") ∧
        ∃ b, truth? (some (part v "argument")) = some b ∧ r = .put v (literal !b) := by
  refine .ite (fun logical => .bind fun left found => .ite (fun marked => gives_pure ?_) fun _ =>
    .bind fun right found => .ite (fun marked => gives_pure ?_) fun _ => gives_pure (Or.inl rfl)) fun _ =>
    .ite (fun unary => .bind fun b found => .ite (fun marked => gives_pure ?_) fun _ => gives_pure (Or.inl rfl)) fun _ => gives_pure (Or.inl rfl)
  · obtain ⟨held, mark⟩ := isMarked_part found
    refine Or.inr (Or.inl ⟨known_of logical, "left", "right", by decide, mark ▸ marked, ?_⟩)
    rw [held]
    cases reduceLogical (some (part v "left")) (v.field? "right") (v.field? "operator") <;> simp
  · obtain ⟨held, mark⟩ := isMarked_part found
    refine Or.inr (Or.inl ⟨known_of logical, "right", "left", by decide, mark ▸ marked, ?_⟩)
    rw [held]
    cases reduceLogical (some (part v "right")) (v.field? "left") (v.field? "operator") <;> simp
  · obtain ⟨held, mark⟩ := isMarked_part found
    simp only [hasKind, Bool.and_eq_true, beq_iff_eq] at unary
    rw [held]
    cases truth : truth? (some (part v "argument")) with
    | none => exact Or.inl rfl
    | some b => exact Or.inr (Or.inr ⟨unary.1, unary.2, mark ▸ marked, b, rfl, rfl⟩)

theorem reduceLogical_left {x other operator : Option Value} (reduced : reduceLogical x other operator = some w) :
    (∃ b, w = literal b) ∨ other = some w := by
  unfold reduceLogical at reduced
  split at reduced
  · exact Or.inr reduced
  · exact Or.inl ⟨false, (Option.some.inj reduced).symm⟩
  · exact Or.inl ⟨true, (Option.some.inj reduced).symm⟩
  · exact Or.inr reduced
  · cases reduced

def branchField (b : Bool) : String := if b then "consequent" else "alternate"

theorem takeBranch_reply (finished : (takeBranch branch v).fault = none) :
    v.field? branch = none ∧ takeBranch branch v = { node := v, changed := true } ∨
      ∃ node w, takeBranch branch v = .put node w ∧ bare w = bare (part v branch) := by
  unfold takeBranch at finished ⊢
  split at finished
  · cases finished
  · rename_i moved placed
    rcases moveToBranch_bare placed with ⟨rfl, missing⟩ | ⟨old, new, held, alike, rfl⟩
    · simp [missing]
    · have table : ∃ es, v = .dict es := by
        cases v with
        | dict es => exact ⟨es, rfl⟩
        | _ => simp [field?] at held
      obtain ⟨es, rfl⟩ := table
      have found : ((dict es).set branch new).field? branch = some new := Entries.get?_put_self _ _ _
      simp only [getD_some, found, part, held]
      exact Or.inr ⟨_, new, rfl, alike⟩

theorem takeBranch_cases (finished : (takeBranch branch v).fault = none) :
    (takeBranch branch v).action = .keep ∧ (takeBranch branch v).node = v ∨
      ∃ w, (takeBranch branch v).action = .put w ∧ bare w = bare (part v branch) := by
  rcases takeBranch_reply finished with ⟨-, same⟩ | ⟨node, w, same, alike⟩
  · rw [same]
    exact Or.inl ⟨rfl, rfl⟩
  · rw [same]
    exact Or.inr ⟨w, rfl, alike⟩

theorem takeBranch_action (branch : String) (v : Value) (carry : Carry) : (takeBranch branch v).action ≠ .drop carry := by
  unfold takeBranch
  split
  · rintro ⟨⟩
  · dsimp only
    split <;> rintro ⟨⟩

theorem reduceConditional_cases : Gives (reduceConditional v) fun r =>
    r = .keep v ∨
      (kind? v = some "IfStatement" ∨ kind? v = some "ConditionalExpression") ∧ isMark (part v "test") ∧
        ∃ b, truth? (some (part v "test")) = some b ∧
          (r = takeBranch (branchField b) v ∧ (b = false → part v "alternate" ≠ .null) ∨
            r = .drop v .nothing ∧ part v (branchField b) = .null) := by
  refine .ite (fun conditional => .bind fun b found => .ite (fun marked => ?_) fun _ => gives_pure (Or.inl rfl)) fun _ =>
    gives_pure (Or.inl rfl)
  simp only [hasKind, Bool.or_eq_true, beq_iff_eq] at conditional
  obtain ⟨held, mark⟩ := isMarked_part found
  rw [marked] at mark
  rw [held]
  split
  · rename_i truth
    exact gives_pure (Or.inr ⟨conditional, mark.symm, true, truth, Or.inl ⟨rfl, by rintro ⟨⟩⟩⟩)
  · rename_i truth
    split
    · rename_i missing
      exact gives_pure (Or.inr ⟨conditional, mark.symm, false, truth, Or.inr ⟨rfl, by simp [part, branchField, missing]⟩⟩)
    · rename_i missing
      exact gives_pure (Or.inr ⟨conditional, mark.symm, false, truth, Or.inr ⟨rfl, by simp [part, branchField, missing]⟩⟩)
    · rename_i w notNull present
      refine gives_pure (Or.inr ⟨conditional, mark.symm, false, truth, Or.inl ⟨rfl, fun _ null => ?_⟩⟩)
      rw [part, present] at null
      exact notNull (null ▸ rfl)
  · exact gives_pure (Or.inl rfl)

theorem own?_store (x name : String) (v : Value) (t : Table) :
    (t.store name v).own? x = if name = x ∧ x ≠ "__proto__" then some v else t.own? x := by
  unfold Table.store Table.own?
  by_cases proto : name = "__proto__"
  · rw [if_pos (by simp [proto]), if_neg (by simp only [proto]; exact fun both => both.2 both.1.symm)]
  · rw [if_neg (by simpa using proto)]
    by_cases same : name = x
    · rw [if_pos ⟨same, same ▸ proto⟩, same, Entries.get?_put_self]
    · rw [if_neg (fun both => same both.1), Entries.get?_put_ne _ _ (Ne.symm same)]

def prunedUnder? (v : Value) : Option String :=
  match kind? v with
  | some "VariableDeclarator" => (nameOf v).toOption
  | some "FunctionDeclaration" => (nameOf v).toOption
  | some "CallExpression" => some (displayOr ((part v "callee").field? "name"))
  | some "ExpressionStatement" =>
    if hasKind (part v "expression") "AssignmentExpression" then
      some (displayOr ((part (part v "expression") "left").field? "name"))
    else none
  | _ => none

def goesBy (kinds : List String) (names : String → Bool) (v : Value) : Bool := kinds.any (hasKind v) && (prunedUnder? v).any names

def variableKinds : List String := ["VariableDeclarator", "ExpressionStatement"]

def functionKinds : List String := ["FunctionDeclaration", "VariableDeclarator", "CallExpression"]

def name? (v : Value) : Option String := if hasKind v "Identifier" then some (displayOr (v.field? "name")) else none

theorem kind?_of_name? {x : String} (named : name? v = some x) : kind? v = some "Identifier" := by
  unfold name? at named
  split at named
  · rename_i known
    simpa [hasKind] using known
  · cases named

theorem prunedUnder?_declared {name : String} (known : kind? v = some "VariableDeclarator" ∨ kind? v = some "FunctionDeclaration")
    (named : nameOf v = .ok name) : prunedUnder? v = some name := by
  rcases known with known | known <;> simp [prunedUnder?, known, named, Except.toOption]

theorem goesBy_named {kinds : List String} {kind name : String} (names : String → Bool) (listed : kind ∈ kinds) (known : kind? v = some kind)
    (under : prunedUnder? v = some name) : goesBy kinds names v = names name := by
  have one : kinds.any (hasKind v) := List.any_eq_true.mpr ⟨kind, listed, by simp [hasKind, known]⟩
  simp [goesBy, one, under]

theorem pruneVariable_cases : Gives (pruneVariable carry t v) fun r =>
    r = .keep v ∧ goesBy variableKinds t.answers v = false ∧ ((name? v).bind t.own?).bind bool? = none ∨
      goesBy variableKinds t.answers v ∧ (kind? v = some "VariableDeclarator" ∧ r = .drop v .nothing ∨
        kind? v = some "ExpressionStatement" ∧ kind? (part v "expression") = some "AssignmentExpression" ∧ r = .drop v carry) ∨
      ∃ x b, name? v = some x ∧ t.own? x = some (.bool b) ∧ r = .put v (literal b) := by
  refine .bind fun _ _ => .ite (fun declarator => .bind fun name named => gives_pure ?_) fun plain =>
    .ite (fun statement => .bind fun type typed => ?_) fun other => ?_
  · have known := known_of declarator
    rw [goesBy_named t.answers (by decide) known (prunedUnder?_declared (Or.inl known) named)]
    cases t.answers name <;> simp [name?, hasKind, known]
  · have known := known_of statement
    obtain ⟨expression, held, same⟩ := kindOf_ok typed "AssignmentExpression"
    have whole : part v "expression" = expression := by rw [part, held, getD_some]
    have unnamed : name? v = none := by simp [name?, hasKind, known]
    rw [same]
    refine .ite (fun assigns => .bind fun name named => gives_pure ?_) fun other => gives_pure ?_
    · obtain ⟨left, target, rfl⟩ := read_ok named
      rw [held, bind_some] at target
      have under : prunedUnder? v = some (displayOr (left.field? "name")) := by
        have found : part expression "left" = left := by rw [part, target, getD_some]
        simp [prunedUnder?, known, whole, assigns, found]
      rw [goesBy_named t.answers (by decide) known under]
      cases t.answers (displayOr (left.field? "name")) <;> simp [unnamed, known, whole, known_of assigns]
    · simp [goesBy, prunedUnder?, known, whole, other, unnamed]
  · have none : goesBy variableKinds t.answers v = false := by simp [goesBy, variableKinds, plain, other]
    refine .ite (fun reference => ?_) fun unnamed => gives_pure (Or.inl ⟨rfl, none, by simp [name?, unnamed]⟩)
    split <;> rename_i own
    · rename_i b
      obtain ⟨w, own, truth⟩ := bind_eq_some_iff.mp own
      obtain rfl : w = .bool b := by cases w <;> simp_all [bool?]
      exact gives_pure (Or.inr (Or.inr ⟨_, b, if_pos reference, own, rfl⟩))
    · exact gives_pure (Or.inl ⟨rfl, none, by rw [name?, if_pos reference]; exact own⟩)

theorem pruneEmptied_cases : Gives (pruneEmptied carry v) fun r =>
    r = .keep v ∨ kind? v = some "VariableDeclaration" ∧ isEmptied v = .ok true ∧ r = .drop v carry := by
  refine .bind fun empty found => gives_pure ?_
  cases empty with
  | false => exact Or.inl rfl
  | true =>
    refine Or.inr ⟨?_, found, rfl⟩
    unfold isEmptied at found
    split at found
    · rename_i declaration
      exact known_of declaration
    · cases found

theorem pruneFunction_cases {keepComments : Bool} : Gives (pruneFunction keepComments t v) fun r =>
    r = .keep v ∧ goesBy functionKinds t.answers v = false ∨
      goesBy functionKinds t.answers v ∧
        ((kind? v = some "FunctionDeclaration" ∨ kind? v = some "VariableDeclarator") ∧ (∃ carry, r = .drop v carry) ∨
          kind? v = some "CallExpression" ∧ ∃ b, r = .put v (literal b)) := by
  refine .bind fun _ _ => .ite (fun function => .bind fun name named => gives_pure ?_) fun plain =>
    .ite (fun declarator => .bind fun name named => gives_pure ?_) fun other =>
    .ite (fun call => .bind fun name found => gives_pure ?_) fun unnamed => gives_pure ?_
  · have known := known_of function
    rw [goesBy_named t.answers (by decide) known (prunedUnder?_declared (Or.inr known) named)]
    cases t.answers name <;> simp [known]
  · have known := known_of declarator
    rw [goesBy_named t.answers (by decide) known (prunedUnder?_declared (Or.inl known) named)]
    cases t.answers name <;> simp [known]
  · have known := known_of call
    obtain ⟨callee, held, rfl⟩ := read_ok found
    have under : prunedUnder? v = some (displayOr (callee.field? "name")) := by simp [prunedUnder?, known, part, held]
    rw [goesBy_named t.answers (by decide) known under]
    cases t.answers (displayOr (callee.field? "name")) with
    | false => exact Or.inl ⟨rfl, rfl⟩
    | true => exact Or.inr ⟨rfl, Or.inr ⟨known, _, rfl⟩⟩
  · exact Or.inl ⟨rfl, by simp [goesBy, functionKinds, plain, other, unnamed]⟩

theorem unmark_cases (finished : (unmark.enter v).fault = none) :
    isMark v = false ∧ unmark.enter v = .keep v ∨
      isMark v ∧ unmark.enter v = { node := v.unset marker, action := .put (v.unset marker) } := by
  obtain ⟨r, answered, same⟩ := ofExcept_finished finished
  obtain ⟨b, marked, answered⟩ := bind_cases answered
  obtain ⟨x, whole, mark⟩ := isMarked_ok marked
  cases whole
  cases b with
  | false =>
    cases answered
    exact Or.inl ⟨mark.symm, same⟩
  | true =>
    cases answered
    exact Or.inr ⟨mark.symm, same⟩

end Rulewright.Flag
