import Rulewright.Proofs.Flag.Answers
import Rulewright.Proofs.Flag.Flattening

/-!
Returns of functions. Returns are counted for the function that started last, by its name, so a count
tells something about a function only if it is the one function under its name and no other starts before
its returns (`Counted`).
-/

open Option

namespace Rulewright.Flag

variable {items : List Value}

def isFunctionExpression (v : Value) : Bool := hasKind v "FunctionExpression" || hasKind v "ArrowFunctionExpression"

def isFunction (v : Value) : Bool := hasKind v "FunctionDeclaration" || isFunctionExpression v

def isExpressionArrow (v : Value) : Bool :=
  hasKind v "ArrowFunctionExpression" && !hasKind (part v "body") "BlockStatement"

def started? (n : Place) : Option String :=
  if hasKind n.2 "FunctionDeclaration" then (nameOf n.2).toOption
  else if isFunctionExpression n.2 then
    n.1.bind fun p => if hasKind p "VariableDeclarator" then (nameOf p).toOption else none
  else none

def nodesBelow (stop : Value → Bool) : Value → List Place
  | .dict es => fieldNodes stop (visitedKind false es) (childFields (visitedKind false es)) (.dict es) es
  | _ => []

def isReturn (n : Place) : Bool := hasKind n.2 "ReturnStatement"

def ownReturns (v : Value) : List Value := ((nodesBelow isFunction v).filter isReturn).map Prod.snd

def ahead (v : Value) : List Place := (nodesBelow never v).takeWhile fun n => (started? n).isNone

def byExpression (v : Value) : List Value := if isExpressionArrow v then [part v "body"] else []

def returned (v : Value) : List Value := byExpression v ++ (ownReturns v).map (part · "argument")

def returnedUnder (f : String) (tree : Value) : List Value :=
  ((nodesOf tree).filter fun n => started? n = some f).flatMap fun n => returned n.2

def finalMark? (v : Value) : Option Bool :=
  if isExpressionArrow v then mark? (part v "body")
  else (lastStatement (part (part v "body") "body")).join.bind fun last =>
    if hasKind last "ReturnStatement" then mark? (part last "argument") else none

section Starts

variable {parent type : Option Value} {v : Value} {name kind : String}

theorem hasKind_other (known : hasKind v kind) (other : String) (different : kind ≠ other) :
    hasKind v other = false := by
  simp only [hasKind, beq_iff_eq] at known
  simpa [hasKind, known] using different

theorem not_declaration (expression : isFunctionExpression v) : hasKind v "FunctionDeclaration" = false := by
  rcases Bool.or_eq_true_iff.mp expression with known | known
  · exact hasKind_other known _ (by decide)
  · exact hasKind_other known _ (by decide)

theorem inDeclarator_ok {b : Bool} (answered : inDeclarator parent = .ok b) :
    ∃ p, parent = some p ∧ b = hasKind p "VariableDeclarator" := by
  obtain ⟨type, found, answered⟩ := bind_cases answered
  cases answered
  obtain ⟨p, rfl, same⟩ := kindOf_ok found "VariableDeclarator"
  exact ⟨p, rfl, same⟩

theorem started?_declaration (declaration : hasKind v "FunctionDeclaration") (named : nameOf v = .ok name) :
    started? (parent, v) = some name := by
  rw [started?, if_pos declaration, named]
  rfl

theorem started?_declarator (expression : isFunctionExpression v) (inside : inDeclarator parent = .ok true)
    (named : parentName parent = .ok name) : started? (parent, v) = some name := by
  obtain ⟨p, rfl, declarator⟩ := inDeclarator_ok inside
  simp only [parentName] at named
  rw [started?, not_declaration expression, if_pos expression, bind_some,
    if_pos declarator.symm, named]
  rfl

theorem started?_loose (expression : isFunctionExpression v) (outside : inDeclarator parent = .ok false) :
    started? (parent, v) = none := by
  obtain ⟨p, rfl, loose⟩ := inDeclarator_ok outside
  rw [started?, not_declaration expression, if_pos expression, bind_some, ← loose]
  rfl

theorem isExpressionArrow_body (arrow : hasKind v "ArrowFunctionExpression")
    (found : kindOf (v.field? "body") = .ok type) :
    isExpressionArrow v = !(type == some (.str "BlockStatement")) := by
  obtain ⟨body, held, same⟩ := kindOf_ok found "BlockStatement"
  rw [isExpressionArrow, arrow, Bool.true_and, part, held, getD_some, same]

theorem isExpressionArrow_other (other : hasKind v "ArrowFunctionExpression" = false) : isExpressionArrow v = false := by
  rw [isExpressionArrow, other, Bool.false_and]

end Starts

def countStep (r : Returns) (n : Place) : Returns :=
  match started? n with
  | some name => r.start name (if isExpressionArrow n.2 then 1 else 0)
  | none => if isReturn n then r.count else r

def Returns.tally (r : Returns) (f : String) : Option Nat := (r.counts.lookup f).join

section Counting

variable {r r' : Returns} {n : Place} {f name : String} {counts : List (String × Option Nat)} {places : List Place}

theorem countReturns_ok {v : Value} {parent : Option Value} : Gives (countReturns r parent v) (· = (countStep r (parent, v), false)) := by
  unfold countStep
  have loose (expression : isFunctionExpression v) {b : Bool} (found : inDeclarator parent = .ok b) (outside : b = false) :
      started? (parent, v) = none ∧ isReturn (parent, v) = false := by
    refine ⟨started?_loose expression (outside ▸ found), ?_⟩
    rcases Bool.or_eq_true_iff.mp expression with known | known <;> exact hasKind_other known _ (by decide)
  refine .ite (fun declaration => .bind fun name named => gives_pure ?_) fun plain =>
    .ite (fun known => .bind fun b found => ?_) fun other => .ite (fun arrow => .bind fun b found => ?_) fun short => ?_
  · rw [started?_declaration declaration named, isExpressionArrow_other (hasKind_other declaration _ (by decide))]
    rfl
  · have expression : isFunctionExpression v := by simp [isFunctionExpression, known]
    refine .ite (fun inside => .bind fun name named => gives_pure ?_) fun outside => gives_pure (by simp [loose expression found outside])
    rw [started?_declarator expression (inside ▸ found) named, isExpressionArrow_other (hasKind_other known _ (by decide))]
    rfl
  · have expression : isFunctionExpression v := by simp [isFunctionExpression, arrow]
    refine .ite (fun inside => .bind fun name named => .bind fun type body => gives_pure ?_) fun outside =>
      gives_pure (by simp [loose expression found outside])
    rw [started?_declarator expression (inside ▸ found) named, isExpressionArrow_body arrow body]
    cases type == some (.str "BlockStatement") <;> rfl
  · have unnamed : started? (parent, v) = none := by simp [started?, isFunctionExpression, plain, other, short]
    rw [unnamed]
    exact .ite (fun returns => gives_pure (by simp [isReturn, returns])) fun returns => gives_pure (by simp [isReturn, returns])

theorem lookup_assign (name : String) (c : Option Nat) (counts : List (String × Option Nat)) (f : String) :
    (Returns.assign name c counts).lookup f = if f = name then some c else counts.lookup f := by
  induction counts with
  | nil => by_cases same : f = name <;> simp [Returns.assign, List.lookup_cons, beq_eq_decide, same]
  | cons e rest ih =>
    rw [Returns.assign, List.lookup_cons]
    by_cases here : e.1 = name
    · rw [if_pos here, List.lookup_cons, ← here]
      by_cases same : f = e.1 <;> simp [beq_eq_decide, same]
    · rw [if_neg here, List.lookup_cons, ih]
      by_cases same : f = e.1
      · simp [same, here]
      · simp [beq_eq_decide, same]

theorem keys_assign (name : String) (c : Option Nat) (counts : List (String × Option Nat)) :
    (Returns.assign name c counts).map Prod.fst =
      if name ∈ counts.map Prod.fst then counts.map Prod.fst else counts.map Prod.fst ++ [name] := by
  induction counts with
  | nil => rfl
  | cons e rest ih =>
    rw [Returns.assign]
    by_cases here : e.1 = name
    · simp [here]
    · rw [if_neg here, List.map_cons, ih, List.map_cons]
      by_cases later : name ∈ rest.map Prod.fst
      · rw [if_pos later, if_pos (List.mem_cons_of_mem _ later)]
      · rw [if_neg later, if_neg (by simpa [Ne.symm here] using later), List.cons_append]

theorem nodup_assign (name : String) (c : Option Nat)
    (once : (counts.map Prod.fst).Nodup) : ((Returns.assign name c counts).map Prod.fst).Nodup := by
  rw [keys_assign]
  split
  · exact once
  · rename_i fresh
    exact List.nodup_append.mpr ⟨once, by simp, by simpa using fun x c held => ne_of_mem_of_not_mem (List.mem_map_of_mem held) fresh⟩

theorem tally_start (ordinary : f ≠ "__proto__") (k : Nat) :
    (r.start name k).tally f = if f = name then some k else r.tally f := by
  simp only [Returns.tally, Returns.start]
  split
  · rename_i proto
    rw [if_neg (by simpa [beq_iff_eq.mp proto] using ordinary)]
  · rw [lookup_assign]
    split <;> rfl

theorem tally_count (ordinary : f ≠ "__proto__") :
    r.count.tally f = if f = r.current then (r.tally f).map (· + 1) else r.tally f := by
  unfold Returns.count
  split
  · rename_i proto
    rw [if_neg (by simpa [beq_iff_eq.mp proto] using ordinary)]
  · simp only [Returns.tally, lookup_assign]
    split <;> rename_i same
    · rw [same]
      rfl
    · rfl

theorem current_count : r.count.current = r.current := by
  unfold Returns.count
  split <;> rfl

theorem tally_run (ordinary : f ≠ "__proto__") (unnamed : ∀ n ∈ places, started? n = none)
    (here : r.current = f) :
    (places.foldl countStep r).tally f = (r.tally f).map (· + (places.filter isReturn).length) := by
  induction places generalizing r with
  | nil => simp
  | cons n places ih =>
    have unnamed' (n : Place) (member : n ∈ places) := unnamed n (List.mem_cons_of_mem _ member)
    rw [List.foldl_cons, countStep, unnamed n List.mem_cons_self]
    cases returns : isReturn n with
    | true =>
      rw [ih unnamed' (by simpa [current_count] using here)]
      simp [returns, tally_count ordinary, here, Function.comp_def, Nat.add_comm, Nat.add_left_comm]
    | false =>
      rw [ih unnamed' (by simpa using here)]
      simp [returns]

theorem tally_grows {k : Nat} (ordinary : f ≠ "__proto__")
    (others : ∀ n ∈ places, started? n ≠ some f) (counted : r.tally f = some k) :
    ∃ m, (places.foldl countStep r).tally f = some m ∧ k ≤ m := by
  induction places generalizing r k with
  | nil => exact ⟨k, counted, Nat.le_refl k⟩
  | cons n places ih =>
    have step : ∃ j, (countStep r n).tally f = some j ∧ k ≤ j := by
      unfold countStep
      split
      · rename_i name started
        have different : f ≠ name := fun same => others n List.mem_cons_self (same ▸ started)
        exact ⟨k, by rw [tally_start ordinary, if_neg different, counted], Nat.le_refl k⟩
      · split
        · rw [tally_count ordinary, counted]
          split
          · exact ⟨k + 1, rfl, Nat.le_succ k⟩
          · exact ⟨k, rfl, Nat.le_refl k⟩
        · exact ⟨k, counted, Nat.le_refl k⟩
    obtain ⟨j, reached, le⟩ := step
    obtain ⟨m, final, le'⟩ := ih (fun n member => others n (List.mem_cons_of_mem _ member)) reached
    exact ⟨m, final, Nat.le_trans le le'⟩

theorem nodup_countStep (n : Place) (once : (r.counts.map Prod.fst).Nodup) : ((countStep r n).counts.map Prod.fst).Nodup := by
  unfold countStep Returns.start Returns.count
  split
  · split
    · exact once
    · exact nodup_assign _ _ once
  · split
    · split
      · exact once
      · exact nodup_assign _ _ once
    · exact once

theorem lookup_of_nodup {c : Option Nat} (once : (counts.map Prod.fst).Nodup)
    (member : (f, c) ∈ counts) : counts.lookup f = some c := by
  obtain ⟨before, after, rfl⟩ := List.append_of_mem member
  refine List.lookup_eq_some_iff.mpr ⟨before, after, rfl, fun e earlier => ?_⟩
  rw [List.map_append, List.nodup_append] at once
  have apart := once.2.2 e.1 (List.mem_map_of_mem earlier) f (by simp)
  simpa using Ne.symm apart

theorem tally_of_single {tree : Value} {single : Table} (counted : singleReturns tree = .ok single)
    (answers : single.answers f) (ordinary : f ∉ inheritedNames) :
    ((nodesOf tree).foldl countStep {}).tally f = some 1 := by
  obtain ⟨r, analysed, counted⟩ := bind_cases counted
  have whole : r = (nodesOf tree).foldl countStep {} :=
    analyse_foldl (fun _ _ => countReturns_ok) r analysed
  cases counted
  rw [← whole]
  have once : (r.counts.map Prod.fst).Nodup := by
    rw [whole]
    exact List.foldlRecOn (motive := fun r : Returns => (r.counts.map Prod.fst).Nodup) _ _ List.nodup_nil
      fun _ once n _ => nodup_countStep n once
  have own : (Table.own? ((r.counts.filter fun e => e.2 == some 1).map fun e => (e.1, .int 1)) f).isSome := by
    simpa [Table.answers, ordinary] using answers
  obtain ⟨v, held⟩ := isSome_iff_exists.mp own
  obtain ⟨⟨g, c⟩, member, same⟩ := List.mem_map.mp (Entries.mem_of_get? held)
  obtain ⟨member, one⟩ := List.mem_filter.mp member
  cases same
  cases beq_iff_eq.mp one
  rw [Returns.tally, lookup_of_nodup once member]
  rfl

end Counting

section Analysis

variable {single t t' : Table} {n : Place} {f name : String} {b known pass : Bool}

theorem answers_of_reads (reads : single.reads name) : single.answers name := by
  unfold Table.reads at reads
  unfold Table.answers
  split at reads <;> simp_all

theorem mark?_of_isMarked {v : Option Value} (marked : isMarked v = .ok true) (truth : truth? v = some b) :
    v.bind mark? = some b := by
  obtain ⟨x, rfl, mark⟩ := isMarked_ok marked
  rw [bind_some, mark?, if_pos mark.symm]
  exact truth

theorem noteFunction_ok {v : Value} (plain : isExpressionArrow v = false) : Gives (noteFunction v name t) fun r =>
    r.1 = t ∨ ∃ b, finalMark? v = some b ∧ r.1 = t.store name (.bool b) := by
  have same (known : Bool) : Gives (pure (t, known) : Except Fault (Table × Bool)) fun r =>
      r.1 = t ∨ ∃ b, finalMark? v = some b ∧ r.1 = t.store name (.bool b) := gives_pure (Or.inl rfl)
  unfold noteFunction
  split
  · exact same _
  · refine .bind fun statements found => ?_
    obtain ⟨body, held, rfl⟩ := read_ok found
    have held : part v "body" = body := by rw [part, held, getD_some]
    split
    · exact same _
    · exact same _
    · rename_i statements _ listed
      have listed : part body "body" = statements := by rw [part, listed, getD_some]
      split
      · exact same _
      · rename_i last ends
        refine .bind fun type kind => .ite (fun returns => .bind fun m marked => .ite (fun marks => ?_) fun _ => same _) fun _ => same _
        obtain ⟨last, rfl, known⟩ := kindOf_ok kind "ReturnStatement"
        rw [known, Bool.and_eq_true] at returns
        split
        · rename_i b truth
          have final : mark? (part last "argument") = some b := by
            rw [← bind_mark?]
            exact mark?_of_isMarked (marks ▸ marked) truth
          refine gives_pure (Or.inr ⟨b, ?_, rfl⟩)
          rw [finalMark?, if_neg (by simp [plain]), held, listed, ends, join_some, bind_some, if_pos returns.1, final]
        · exact same _

def Noted (single : Table) (n : Place) (t t' : Table) : Prop :=
  t' = t ∨ ∃ name b, started? n = some name ∧ single.answers name = true ∧ finalMark? n.2 = some b ∧
    t' = t.store name (.bool b)

theorem noteFunctions_ok {v : Value} {parent : Option Value} : Gives (noteFunctions single t parent v) fun r => Noted single (parent, v) t r.1 := by
  have same (pass : Bool) : Gives (pure (t, pass) : Except Fault (Table × Bool)) fun r => Noted single (parent, v) t r.1 :=
    gives_pure (Or.inl rfl)
  have noted {name : String} (started : started? (parent, v) = some name) (answers : single.answers name)
      (plain : isExpressionArrow v = false) :
      Gives (noteFunction v name t >>= fun answer => pure (answer.1, !answer.2)) fun r => Noted single (parent, v) t r.1 := by
    refine .bind fun answer answered => gives_pure ?_
    rcases noteFunction_ok plain answer answered with same | ⟨b, final, stored⟩
    · exact Or.inl same
    · exact Or.inr ⟨name, b, started, answers, final, stored⟩
  refine .ite (fun declaration => .bind fun name named => .ite (fun reads => ?_) fun _ => same _) fun _ =>
    .ite (fun known => .bind fun b found => .ite (fun inside => .bind fun name named => .ite (fun reads => ?_) fun _ => same _) fun _ => same _) fun _ =>
    .ite (fun arrow => .bind fun b found => .ite (fun inside => .bind fun name named => .ite (fun answers => .bind fun type kind => ?_)
      fun _ => same _) fun _ => same _) fun _ => same _
  · exact noted (started?_declaration declaration named) (answers_of_reads reads)
      (isExpressionArrow_other (hasKind_other declaration _ (by decide)))
  · have expression : isFunctionExpression v := by simp [isFunctionExpression, known]
    exact noted (started?_declarator expression (inside ▸ found) named) (answers_of_reads reads)
      (isExpressionArrow_other (hasKind_other known _ (by decide)))
  · have expression : isFunctionExpression v := by simp [isFunctionExpression, arrow]
    have started := started?_declarator expression (inside ▸ found) named
    have shape := isExpressionArrow_body arrow kind
    refine .ite (fun block => noted started answers (by rw [shape, block]; rfl)) fun short =>
      .bind fun m marked => .ite (fun marks => ?_) fun _ => same _
    split
    · rename_i b truth
      have final : finalMark? v = some b := by
        rw [finalMark?, if_pos (by rw [shape, short]; rfl), ← bind_mark?]
        exact mark?_of_isMarked (marks ▸ marked) truth
      exact gives_pure (Or.inr ⟨name, b, started, answers, final, rfl⟩)
    · exact same _

theorem redundantFunctions_ok {tree : Value} (found : redundantFunctions single tree = .ok t)
    (listed : t.own? f = some (.bool b)) :
    ∃ n ∈ nodesOf tree, started? n = some f ∧ single.answers f ∧ finalMark? n.2 = some b := by
  refine analyse_invariant (P := fun t => ∀ b, t.own? f = some (.bool b) →
    ∃ n ∈ nodesOf tree, started? n = some f ∧ single.answers f ∧ finalMark? n.2 = some b) ?_ ?_ t found b listed
  · rintro _ ⟨⟩
  · intro n reached t before r answered b listed
    rcases noteFunctions_ok r answered with same | ⟨name, c, started, answers, final, stored⟩
    · exact before b (same ▸ listed)
    · rw [stored, own?_store] at listed
      split at listed
      · rename_i same
        cases listed
        exact ⟨n, reached, same.1 ▸ started, same.1 ▸ answers, final⟩
      · exact before b listed

end Analysis

def HasBody (v : Value) : Prop :=
  isExpressionArrow v = true ∨
    hasKind (part v "body") "BlockStatement" = true ∧ ∃ items, part (part v "body") "body" = .list items

structure Counted (tree : Value) (f : String) (n : Place) : Prop where
  ordinary : f ∉ inheritedNames
  alone : ((nodesOf tree).filterMap started?).count f = 1
  body : HasBody n.2
  ahead : ∀ r ∈ ownReturns n.2, r ∈ (ahead n.2).map Prod.snd

def returnedAhead (v : Value) : List Value :=
  byExpression v ++ ((ahead v).filter isReturn).map fun n => part n.2 "argument"

theorem length_returnedAhead (v : Value) :
    (returnedAhead v).length = (if isExpressionArrow v then 1 else 0) + ((ahead v).filter isReturn).length := by
  rw [returnedAhead, byExpression, List.length_append, List.length_map]
  split <;> rfl

section Returning

variable {tree v x last r : Value} {n m : Place} {f key : String} {b loose : Bool}

theorem isFunction_of_started? (started : started? n = some f) : isFunction n.2 := by
  unfold started? at started
  unfold isFunction
  split at started
  · simp [*]
  · split at started
    · simp [*]
    · cases started

theorem isFunction_kind (function : isFunction v) :
    ∃ kind ∈ ["FunctionDeclaration", "FunctionExpression", "ArrowFunctionExpression"], kind? v = some kind := by
  simpa [isFunction, isFunctionExpression, hasKind] using function

theorem nodesIn_function {parent : Option Value} (function : isFunction v) :
    nodesIn never loose parent v = (parent, v) :: nodesBelow never v := by
  obtain ⟨kind, listed, known⟩ := isFunction_kind function
  have named : kind ≠ "" := ne_of_mem_of_not_mem listed (by decide)
  obtain ⟨es, rfl⟩ := dict_of_kind? known
  rw [nodesIn, nodesBelow, visitedKind_of_kind? known named, visitedKind_of_kind? known named]
  rfl

theorem nodesOf_function (reached : n ∈ nodesOf tree) (function : isFunction n.2) :
    ∃ before after, nodesOf tree = before ++ n :: (ahead n.2 ++ after) := by
  obtain ⟨loose, before, after, whole⟩ := nodesOf_infix reached
  rw [nodesIn_function function] at whole
  refine ⟨before, (nodesBelow never n.2).dropWhile (fun n => (started? n).isNone) ++ after, ?_⟩
  rw [← whole, ahead, ← List.append_assoc, List.takeWhile_append_dropWhile, List.append_assoc, List.cons_append]

theorem started?_ahead (v : Value) : ∀ m ∈ ahead v, started? m = none := by
  intro m member
  exact isNone_iff_eq_none.mp (List.all_eq_true.mp List.all_takeWhile m member)

theorem Counted.apart (counted : Counted tree f n) (started : started? n = some f) {before after : List Place}
    (whole : nodesOf tree = before ++ n :: after) : ∀ m ∈ before ++ after, started? m ≠ some f := by
  intro m member again
  have alone := counted.alone
  rw [whole, List.filterMap_append, List.filterMap_cons_some started, List.count_append, List.count_cons_self] at alone
  have twice :=
    List.count_pos_iff.mpr (List.mem_filterMap.mpr ⟨m, member, again⟩)
  rw [List.filterMap_append, List.count_append] at twice
  omega

theorem Counted.unique (counted : Counted tree f n) (reached : n ∈ nodesOf tree) (started : started? n = some f)
    (other : m ∈ nodesOf tree) (again : started? m = some f) : m = n := by
  obtain ⟨before, after, whole⟩ := List.append_of_mem reached
  rw [whole, List.mem_append, List.mem_cons] at other
  have apart := counted.apart started whole m
  rw [List.mem_append] at apart
  rcases other with earlier | same | later
  · exact (apart (Or.inl earlier) again).elim
  · exact same
  · exact (apart (Or.inr later) again).elim

theorem Counted.length_le (counted : Counted tree f n) (reached : n ∈ nodesOf tree) (started : started? n = some f)
    {k : Nat} (tally : ((nodesOf tree).foldl countStep {}).tally f = some k) : (returnedAhead n.2).length ≤ k := by
  have ordinary : f ≠ "__proto__" := fun same => counted.ordinary (by rw [same]; decide)
  obtain ⟨before, after, whole⟩ := nodesOf_function reached (isFunction_of_started? started)
  have others (m : Place) (later : m ∈ after) : started? m ≠ some f :=
    counted.apart started whole m (by simp [later])
  rw [whole, List.foldl_append, List.foldl_cons, List.foldl_append] at tally
  generalize before.foldl countStep {} = r at tally
  have begun : countStep r n = r.start f (if isExpressionArrow n.2 then 1 else 0) := by rw [countStep, started]
  have run := tally_run (r := countStep r n) ordinary (started?_ahead n.2) (by rw [begun]; rfl)
  rw [begun, tally_start ordinary, if_pos rfl] at run
  rw [begun] at tally
  obtain ⟨m, final, grown⟩ := tally_grows ordinary others run
  rw [final] at tally
  cases tally
  rwa [length_returnedAhead]

theorem mem_of_member? (found : member? (.list items) key = some x) (node : isNode x) : x ∈ items := by
  rcases or_eq_some_iff.mp found with own | ⟨-, answered⟩
  · simp only [ownMember?] at own
    split at own
    · cases own
      cases node
    · obtain ⟨i, -, held⟩ := bind_eq_some_iff.mp own
      exact List.mem_of_getElem? held
  · split at answered
    · cases answered
      cases node
    · cases answered

theorem lastStatement_list (ends : lastStatement (.list items) = some (some last)) (node : isNode last) : last ∈ items := by
  unfold lastStatement at ends
  split at ends
  · split at ends
    · cases ends
    · exact mem_of_member? (Option.some.inj ends) node
  · cases ends

theorem mem_ownReturns (function : isFunction v) (block : hasKind (part v "body") "BlockStatement")
    (listed : part (part v "body") "body" = .list items) (member : last ∈ items) (returns : hasKind last "ReturnStatement") : last ∈ ownReturns v := by
  have blockKind : kind? (part v "body") = some "BlockStatement" := by simpa [hasKind] using block
  have bodyNode := isNode_of_kind? blockKind
  have lastNode : isNode last := isNode_of_kind? (by simpa [hasKind] using returns)
  have inner : (some (part v "body"), last) ∈ nodesIn isFunction false (some v) (part v "body") := by
    generalize part v "body" = body at *
    obtain ⟨es, rfl⟩ := isNode_dict bodyNode
    have plain : isFunction (.dict es) = false := by
      simp [isFunction, isFunctionExpression, hasKind_other block]
    have visited : visitedKind false es = "BlockStatement" := visitedKind_of_kind? blockKind (by decide)
    refine mem_nodesIn.mpr (Or.inr ⟨plain, _, last, .listed (mem_of_part listed) (by rw [visited]; decide) member ?_, nodesIn_self lastNode⟩)
    simpa [visited, isPropertyList, isVisited] using lastNode
  obtain ⟨kind, among, known⟩ := isFunction_kind function
  have child : ∀ kind ∈ ["FunctionDeclaration", "FunctionExpression", "ArrowFunctionExpression"],
      isChild (childFields kind) "body" := by decide
  obtain ⟨es, rfl⟩ := dict_of_kind? known
  have visited : visitedKind false es = kind := visitedKind_of_kind? known (ne_of_mem_of_not_mem among (by decide))
  refine List.mem_map.mpr ⟨(some (part (.dict es) "body"), last), List.mem_filter.mpr ⟨mem_fieldNodes.mpr ?_, returns⟩, rfl⟩
  exact ⟨_, _, .single (mem_of_isNode_part bodyNode) (by rw [visited]; exact child kind among) bodyNode, inner⟩

theorem finalMark?_returned (function : isFunction v) (body : HasBody v) (final : finalMark? v = some b) :
    ∃ r ∈ returned v, mark? r = some b := by
  unfold finalMark? at final
  split at final
  · rename_i arrow
    exact ⟨part v "body", List.mem_append_left _ (by simp [byExpression, arrow]), final⟩
  · rename_i plain
    obtain ⟨last, ends, final⟩ := bind_eq_some_iff.mp final
    rw [join_eq_some_iff] at ends
    split at final
    · rename_i returns
      rcases body with arrow | ⟨block, items, listed⟩
      · exact (plain arrow).elim
      · rw [listed] at ends
        have node : isNode last := isNode_of_kind? (by simpa [hasKind] using returns)
        have own := mem_ownReturns function block listed (lastStatement_list ends node) returns
        exact ⟨_, List.mem_append_right _ (List.mem_map_of_mem own), final⟩
    · cases final

theorem Counted.returned_ahead (counted : Counted tree f n) (inside : r ∈ returned n.2) :
    r ∈ returnedAhead n.2 := by
  rcases List.mem_append.mp inside with expression | argument
  · exact List.mem_append_left _ expression
  · obtain ⟨statement, own, rfl⟩ := List.mem_map.mp argument
    obtain ⟨m, member, rfl⟩ := List.mem_map.mp (counted.ahead statement own)
    obtain ⟨m', below, same⟩ := List.mem_map.mp own
    have returns : isReturn m := by
      rw [isReturn, ← same]
      exact (List.mem_filter.mp below).2
    exact List.mem_append_right _ (List.mem_map.mpr ⟨m, List.mem_filter.mpr ⟨member, returns⟩, rfl⟩)

theorem Counted.returned_unique (counted : Counted tree f n) (reached : n ∈ nodesOf tree) (started : started? n = some f)
    (single : ((nodesOf tree).foldl countStep {}).tally f = some 1) {r' : Value} (first : r ∈ returned n.2)
    (second : r' ∈ returned n.2) : r = r' := by
  have few := counted.length_le reached started single
  have first := counted.returned_ahead first
  have second := counted.returned_ahead second
  obtain ⟨only, whole⟩ : ∃ only, returnedAhead n.2 = [only] :=
    List.length_eq_one_iff.mp (Nat.le_antisymm few (List.length_pos_of_mem first))
  rw [whole] at first second
  rw [List.mem_singleton.mp first, List.mem_singleton.mp second]

theorem mem_returnedUnder :
    r ∈ returnedUnder f tree ↔ ∃ n ∈ nodesOf tree, started? n = some f ∧ r ∈ returned n.2 := by
  simp [returnedUnder, and_assoc]

/-- A function in the table has its truth value from the end of a function under its name. All functions
under the name return this value exactly if they agree, and a function returns nothing else if the count
under the name is its own. -/
theorem redundant_function_returns (tree : Value) (single t : Table) (f : String) (b : Bool)
    (counted : singleReturns tree = .ok single) (found : redundantFunctions single tree = .ok t)
    (listed : t.own? f = some (.bool b)) :
    (∃ n ∈ nodesOf tree, started? n = some f ∧ finalMark? n.2 = some b) ∧
      ((∀ n ∈ nodesOf tree, started? n = some f → HasBody n.2) →
        ((∀ r ∈ returnedUnder f tree, mark? r = some b) ↔ Agreed (returnedUnder f tree))) ∧
      ∀ n ∈ nodesOf tree, started? n = some f → Counted tree f n → ∀ r ∈ returned n.2, mark? r = some b := by
  obtain ⟨m, there, begins, answers, final⟩ := redundantFunctions_ok found listed
  have function := isFunction_of_started? begins
  refine ⟨⟨m, there, begins, final⟩, fun bodies => ?_, fun n reached started alone r inside => ?_⟩
  · obtain ⟨r, inside, mark⟩ := finalMark?_returned function (bodies m there begins) final
    exact agreed_iff ⟨r, mem_returnedUnder.mpr ⟨m, there, begins, inside⟩, mark⟩
  · obtain rfl := alone.unique reached started there begins
    obtain ⟨last, ends, mark⟩ := finalMark?_returned function alone.body final
    have tally := tally_of_single counted answers alone.ordinary
    rw [alone.returned_unique there begins tally inside ends]
    exact mark

end Returning

def returning (argument : Value) : Value := .dict [("type", .str "ReturnStatement"), ("argument", argument)]

def function (name : String) (statements : List Value) : Value :=
  .dict [("type", .str "FunctionDeclaration"), ("id", identifier name), ("params", .list []),
    ("body", .dict [("type", .str "BlockStatement"), ("body", .list statements)])]

def plainFunction : Value := function "f" [statement (identifier "x"), returning (literal true)]

def plainScript : Value := script [plainFunction, function "g" [returning (identifier "x")]]

theorem plainScript_returns :
    singleReturns plainScript = .ok [("f", .int 1), ("g", .int 1)] ∧
      redundantFunctions [("f", .int 1), ("g", .int 1)] plainScript = .ok [("f", .bool true)] ∧
      Table.own? [("f", .bool true)] "f" = some (.bool true) ∧
      (some plainScript, plainFunction) ∈ nodesOf plainScript ∧
      Counted plainScript "f" (some plainScript, plainFunction) ∧ ∀ r ∈ returned plainFunction, mark? r = some true := by
  have counted : Counted plainScript "f" (some plainScript, plainFunction) :=
    ⟨by decide, by decide, Or.inr ⟨by decide, _, rfl⟩, by decide⟩
  refine ⟨by decide, by decide, by decide, by decide, counted, ?_⟩
  exact (redundant_function_returns plainScript [("f", .int 1), ("g", .int 1)] [("f", .bool true)] "f" true
    (by decide) (by decide) (by decide)).2.2 (some plainScript, plainFunction) (by decide) (by decide) counted

def interruptedScript : Value :=
  script [function "f" [conditional (identifier "c") (returning (identifier "x")) .null, function "g" [],
    returning (literal true)]]

def repeatedScript : Value := script [function "f" [returning (literal true)], function "f" [returning (identifier "x")]]

def inheritedScript : Value :=
  script [function "toString" [conditional (identifier "c") (returning (identifier "x")) .null, returning (literal true)]]

/-- Functions that return something else are in the table all the same. -/
theorem listed_function_returns_other :
    (singleReturns interruptedScript = .ok [("f", .int 1), ("g", .int 1)] ∧
      redundantFunctions [("f", .int 1), ("g", .int 1)] interruptedScript = .ok [("f", .bool true)] ∧
      ¬∀ r ∈ returnedUnder "f" interruptedScript, mark? r = some true) ∧
    (singleReturns repeatedScript = .ok [("f", .int 1)] ∧
      redundantFunctions [("f", .int 1)] repeatedScript = .ok [("f", .bool true)] ∧
      ¬∀ r ∈ returnedUnder "f" repeatedScript, mark? r = some true) ∧
    singleReturns inheritedScript = .ok [] ∧
      redundantFunctions [] inheritedScript = .ok [("toString", .bool true)] ∧
      ¬∀ r ∈ returnedUnder "toString" inheritedScript, mark? r = some true := by
  decide

end Rulewright.Flag
