import Rulewright.Proofs.Flag.Answers
import Rulewright.Proofs.Flag.Flattening

/-!
Writes to variables. The analysis of variables keeps the last marked truth value that is written under
a name, whatever else is written there (`own?_redundantVariables`).
-/

open List Option

namespace Rulewright.Flag

abbrev Write := String × Value

def declaratorWrites (d : Option Value) : List Write :=
  match d.bind (·.field? "init") with
  | none => []
  | some .null => []
  | some v => [(displayOr ((d.bind (·.field? "id")).bind (·.field? "name")), v)]

def assignmentWrites (node : Value) : List Write :=
  match (part node "left").field? "name" with
  | none => []
  | some name => [(display name, part node "right")]

def writesOf (node : Value) : List Write :=
  if hasKind node "VariableDeclaration" then ((declarators node).toOption.getD []).flatMap declaratorWrites
  else if hasKind node "AssignmentExpression" then assignmentWrites node
  else []

def noted (tree : Value) : List Write := (nodesOf tree).flatMap fun n => writesOf n.2

def writes (tree : Value) : List Write :=
  (nodesOf tree).flatMap fun n =>
    (if hasKind n.2 "VariableDeclarator" then declaratorWrites (some n.2) else []) ++ writesOf n.2

def valuesUnder (x : String) (ws : List Write) : List Value := (ws.filter fun w => w.1 = x).map Prod.snd

def marksUnder (x : String) (ws : List Write) : List Bool := (valuesUnder x ws).filterMap mark?

def note (t : Table) (w : Write) : Table :=
  match mark? w.2 with
  | some b => t.store w.1 (.bool b)
  | none => t

section Analysis

variable {t t' : Table} {tree node : Value} {x : String} {ws : List Write}

theorem mark?_falsy {v : Value} (falsy : truthy v = false) : mark? v = none := by
  cases v <;> first | rfl | simp [truthy] at falsy

theorem markedTruth?_ok {v : Option Value} : Gives (markedTruth? v) (· = v.bind mark?) := by
  unfold markedTruth?
  split
  · exact gives_pure rfl
  · refine .ite (fun _ => .bind fun b marked => gives_pure ?_) fun falsy => gives_pure (mark?_falsy falsy).symm
    obtain ⟨_, whole, mark⟩ := isMarked_ok marked
    cases whole
    rw [mark, bind_some, mark?]

theorem declaratorWrites_note (t : Table) (d : Option Value) :
    (declaratorWrites d).foldl note t =
      match (d.bind (·.field? "init")).bind mark? with
      | some b => t.store (displayOr ((d.bind (·.field? "id")).bind (·.field? "name"))) (.bool b)
      | none => t := by
  unfold declaratorWrites
  split
  · rename_i missing
    rw [missing]
    rfl
  · rename_i missing
    rw [missing]
    rfl
  · rename_i found
    rw [found]
    rfl

theorem collectDeclarators_ok {ds : List (Option Value)} (collected : collectDeclarators t ds = .ok t') :
    t' = (ds.flatMap declaratorWrites).foldl note t := by
  induction ds generalizing t with
  | nil =>
    cases collected
    rfl
  | cons d rest ih =>
    obtain ⟨init, found, collected⟩ := bind_cases collected
    obtain ⟨v, rfl, rfl⟩ := read_ok found
    obtain ⟨m, marked, collected⟩ := bind_cases collected
    have truth := markedTruth?_ok m marked
    rw [flatMap_cons, foldl_append, declaratorWrites_note, bind_some, ← truth]
    cases m with
    | none => exact ih collected
    | some b =>
      obtain ⟨name, named, collected⟩ := bind_cases collected
      obtain ⟨id, held, rfl⟩ := read_ok named
      rw [held]
      exact ih collected

theorem assignmentWrites_note (t : Table) (node : Value) :
    (assignmentWrites node).foldl note t =
      match mark? (part node "right"), (part node "left").field? "name" with
      | some b, some name => t.store (display name) (.bool b)
      | _, _ => t := by
  unfold assignmentWrites
  cases (part node "left").field? "name" with
  | none => cases mark? (part node "right") <;> rfl
  | some name => cases truth : mark? (part node "right") <;> simp [note, truth]

theorem noteWrites_ok {parent : Option Value} : Gives (noteWrites t parent node) (· = ((writesOf node).foldl note t, false)) := by
  unfold writesOf
  refine .ite (fun declaration => .bind fun ds listed => .bind fun collected run => gives_pure ?_) fun other =>
    .ite (fun assignment => .bind fun m marked => ?_) fun plain => gives_pure (by simp [other, plain])
  · rw [if_pos declaration, listed, collectDeclarators_ok run]
    rfl
  · have truth := markedTruth?_ok m marked
    rw [bind_mark?] at truth
    rw [if_neg (by simp [other]), if_pos assignment, assignmentWrites_note, ← truth]
    cases m with
    | none => exact gives_pure rfl
    | some b =>
      refine .bind fun name named => ?_
      obtain ⟨left, held, rfl⟩ := read_ok named
      rw [part, held, getD_some]
      cases left.field? "name" <;> exact gives_pure rfl

theorem redundantVariables_ok (found : redundantVariables tree = .ok t) : t = (noted tree).foldl note [] := by
  rw [noted, foldl_flatMap]
  exact analyse_foldl (fun _ _ => noteWrites_ok) t found

theorem own?_note (ordinary : x ≠ "__proto__") (t : Table) (w : Write) :
    (note t w).own? x = ((if w.1 = x then mark? w.2 else none).map Value.bool).or (t.own? x) := by
  unfold note
  cases mark? w.2 with
  | none => simp
  | some b =>
    rw [own?_store]
    by_cases same : w.1 = x <;> simp [same, ordinary]

theorem own?_foldl_note (ordinary : x ≠ "__proto__") (ws : List Write) (t : Table) :
    (ws.foldl note t).own? x = ((marksUnder x ws).getLast?.map Value.bool).or (t.own? x) := by
  induction ws generalizing t with
  | nil => rfl
  | cons w ws ih =>
    have head : marksUnder x (w :: ws) = (if w.1 = x then mark? w.2 else none).toList ++ marksUnder x ws := by
      unfold marksUnder valuesUnder
      by_cases same : w.1 = x
      · rw [filter_cons_of_pos (by simpa using same), map_cons, filterMap_cons, if_pos same]
        cases mark? w.2 <;> rfl
      · rw [filter_cons_of_neg (by simpa using same), if_neg same]
        rfl
    rw [foldl_cons, ih, own?_note ordinary, head, getLast?_append]
    cases (marksUnder x ws).getLast? <;> cases (if w.1 = x then mark? w.2 else none) <;> rfl

theorem own?_proto_foldl_note (ws : List Write) (unset : t.own? "__proto__" = none) :
    (ws.foldl note t).own? "__proto__" = none := by
  induction ws generalizing t with
  | nil => exact unset
  | cons w ws ih =>
    refine ih ?_
    unfold note
    split
    · rw [own?_store, if_neg (fun both => both.2 rfl)]
      exact unset
    · exact unset

theorem own?_redundantVariables (found : redundantVariables tree = .ok t) (x : String) :
    t.own? x = if x = "__proto__" then none else (marksUnder x (noted tree)).getLast?.map Value.bool := by
  rw [redundantVariables_ok found]
  split
  · rename_i proto
    rw [proto]
    exact own?_proto_foldl_note _ rfl
  · rename_i ordinary
    rw [own?_foldl_note ordinary]
    exact or_none

end Analysis

def lost (node : Value) : List Write :=
  (if hasKind node "VariableDeclarator" then declaratorWrites (some node) else []) ++
    if hasKind node "ExpressionStatement" then assignmentWrites (part node "expression") else []

section Pruning

variable {t : Table} {tree v : Value} {x : String} {b : Bool} {carry c : Carry} {n : Place} {w : Write}

theorem noted_sub_writes (member : w ∈ noted tree) : w ∈ writes tree := by
  obtain ⟨n, reached, own⟩ := mem_flatMap.mp member
  exact mem_flatMap.mpr ⟨n, reached, mem_append_right _ own⟩

theorem dropped_cases (dropped : ((variablePass carry t).enter v).action = .drop c) :
    (lost v = declaratorWrites (some v) ∧ hasKind v "VariableDeclarator" ∧
        t.answers (displayOr ((v.field? "id").bind (·.field? "name")))) ∨
      lost v = assignmentWrites (part v "expression") ∧ kind? v = some "ExpressionStatement" ∧
        kind? (part v "expression") = some "AssignmentExpression" ∧
        t.answers (displayOr ((part (part v "expression") "left").field? "name")) := by
  simp only [variablePass] at dropped
  cases answered : pruneVariable carry t v with
  | error fault => simp [answered, Reply.ofExcept, Reply.stop] at dropped
  | ok r =>
    rw [answered] at dropped
    rcases pruneVariable_cases _ answered with ⟨rfl, -⟩ | ⟨goes, ⟨known, rfl⟩ | ⟨known, assigns, rfl⟩⟩ | ⟨_, _, -, -, rfl⟩
    · cases dropped
    · refine Or.inl ⟨by simp [lost, hasKind, known], by simp [hasKind, known], ?_⟩
      have listed : (nameOf v).toOption.any t.answers := by simpa [goesBy, prunedUnder?, known, variableKinds, hasKind] using goes
      cases named : nameOf v with
      | error fault => simp [named, Except.toOption] at listed
      | ok name =>
        rw [named] at listed
        obtain ⟨found, read, named⟩ := bind_cases named
        obtain ⟨id, held, rfl⟩ := read_ok read
        cases named
        rwa [held]
    · refine Or.inr ⟨by simp [lost, hasKind, known], known, assigns, ?_⟩
      rwa [goesBy_named t.answers (by decide) known (by simp only [prunedUnder?, known]; exact if_pos (by simp [hasKind, assigns]))] at goes
    · cases dropped

theorem lost_answers (dropped : ((variablePass carry t).enter v).action = .drop c) (gone : w ∈ lost v) :
    t.answers w.1 := by
  rcases dropped_cases dropped with ⟨whole, -, listed⟩ | ⟨whole, -, -, listed⟩
  · rw [whole] at gone
    unfold declaratorWrites at gone
    split at gone
    · cases gone
    · cases gone
    · obtain rfl := mem_singleton.mp gone
      exact listed
  · rw [whole] at gone
    unfold assignmentWrites at gone
    split at gone
    · cases gone
    · rename_i name read
      obtain rfl := mem_singleton.mp gone
      rwa [read] at listed

theorem lost_sub_writes (reached : n ∈ nodesOf tree)
    (dropped : ((variablePass carry t).enter n.2).action = .drop c) (gone : w ∈ lost n.2) : w ∈ writes tree := by
  rcases dropped_cases dropped with ⟨whole, declarator, -⟩ | ⟨whole, known, assigns, -⟩
  · refine mem_flatMap.mpr ⟨n, reached, mem_append_left _ ?_⟩
    rwa [if_pos declarator, ← whole]
  · have below := nodesOf_child reached known (show isChild (childFields "ExpressionStatement") "expression" by decide)
      (by decide) (isNode_of_kind? assigns)
    refine mem_flatMap.mpr ⟨_, below, mem_append_right _ ?_⟩
    rw [writesOf, if_neg (by simp [hasKind, assigns]), if_pos (by simp [hasKind, assigns]), ← whole]
    exact gone

theorem mem_valuesUnder {ws : List Write} : v ∈ valuesUnder x ws ↔ (x, v) ∈ ws := by
  constructor
  · intro member
    obtain ⟨w, inside, rfl⟩ := mem_map.mp member
    obtain ⟨inside, same⟩ := mem_filter.mp inside
    rwa [← of_decide_eq_true same]
  · intro inside
    exact mem_map.mpr ⟨(x, v), mem_filter.mpr ⟨inside, by simp⟩, rfl⟩

/-- A variable in the table has the last truth value noted for it. All its writes write this value exactly
if they agree, and then so do all that are taken out with it. -/
theorem redundant_variable_writes (tree : Value) (t : Table) (x : String) (b : Bool) (carry : Carry)
    (found : redundantVariables tree = .ok t) (listed : t.own? x = some (.bool b)) :
    (marksUnder x (noted tree)).getLast? = some b ∧
      ((∀ v ∈ valuesUnder x (writes tree), mark? v = some b) ↔ Agreed (valuesUnder x (writes tree))) ∧
      ∀ n ∈ nodesOf tree, ∀ c, ((variablePass carry t).enter n.2).action = .drop c → ∀ w ∈ lost n.2,
        t.answers w.1 = true ∧ (w.1 = x → Agreed (valuesUnder x (writes tree)) → mark? w.2 = some b) := by
  have last : (marksUnder x (noted tree)).getLast? = some b := by
    rw [own?_redundantVariables found] at listed
    split at listed
    · cases listed
    · simpa using listed
  obtain ⟨v, held, marked⟩ := mem_filterMap.mp (mem_of_getLast? last)
  have written : v ∈ valuesUnder x (writes tree) := mem_valuesUnder.mpr (noted_sub_writes (mem_valuesUnder.mp held))
  have agree := agreed_iff ⟨v, written, marked⟩
  refine ⟨last, agree, fun n reached c dropped w gone => ⟨lost_answers dropped gone, fun same agreed => ?_⟩⟩
  refine agree.mpr agreed w.2 (mem_valuesUnder.mpr ?_)
  rw [← same]
  exact lost_sub_writes reached dropped gone

end Pruning

def assignment (name : String) (value : Value) : Value :=
  statement (.dict [("type", .str "AssignmentExpression"), ("left", identifier name), ("right", value),
    ("operator", .str "=")])

def settledScript : Value := script [assignment "x" (literal true), assignment "x" (literal true)]

theorem settledScript_writes :
    redundantVariables settledScript = .ok [("x", .bool true)] ∧
      Table.own? [("x", .bool true)] "x" = some (.bool true) ∧
      Agreed (valuesUnder "x" (writes settledScript)) ∧
      ∀ v ∈ valuesUnder "x" (writes settledScript), mark? v = some true :=
  ⟨by decide, by decide, by decide, (redundant_variable_writes settledScript [("x", .bool true)] "x" true .nothing
    (by decide) (by decide)).2.1.mpr (by decide)⟩

def overwritingScript : Value := script [assignment "x" (literal true), assignment "x" (identifier "y")]

/-- The variable is in the table all the same, and the other write is taken out. -/
theorem overwritingScript_loses_write :
    redundantVariables overwritingScript = .ok [("x", .bool true)] ∧
      ¬(∀ v ∈ valuesUnder "x" (writes overwritingScript), mark? v = some true) ∧
      (pruneVariables false [("x", .bool true)] overwritingScript).value = script [] := by
  decide

end Rulewright.Flag
