import Rulewright.Engine.Basic
import Rulewright.Proofs.Rule.Building

/-!
What of a table of rules reaches the engine. A graph can be made from more tables than it can be handed over for: nothing looks into
the edges before. What is handed over tells two tables apart exactly by what is handed over of them, and the numbers of children and
siblings of a filter are not.
-/

open List

namespace Rulewright

open Graph

variable {members : List Value} {v : Value} {key : String} {r : Rule} {g : Graph}

namespace Value

def contents (v : Value) (key : String) : List Value := (v.entry key (.list [])).each.toOption.getD []

def SameMembers (xs ys : List Value) : Prop := ∀ x, xs.any (·.equals x) = ys.any (·.equals x)

def isHashable : Value → Bool
  | .list _ => false
  | .dict _ => false
  | _ => true

theorem equals_of_integer {a b : Value} {m n : Int} (first : a.integer? = some m) (second : b.integer? = some n) :
    a.equals b = (m == n) := by
  simp [equals, first, second]

theorem equals_of_none {a b : Value} (none : a.integer? = none ∨ b.integer? = none) : a.equals b = (a == b) := by
  unfold equals
  split
  · rename_i first second
    rcases none with none | none
    · rw [none] at first
      cases first
    · rw [none] at second
      cases second
  · rfl

theorem equals_trans {a b c : Value} (first : a.equals b) (second : b.equals c) : a.equals c := by
  have same : ∀ {x y : Value}, (x.integer? = none ∨ y.integer? = none) → x.equals y → x = y := by
    intro x y none equal
    rwa [equals_of_none none, beq_iff_eq] at equal
  cases left : a.integer? with
  | none => exact same (.inl left) first ▸ second
  | some m =>
    cases middle : b.integer? with
    | none => exact same (.inr middle) first ▸ second
    | some n =>
      cases right : c.integer? with
      | none => exact same (.inr right) second ▸ first
      | some k =>
        rw [equals_of_integer left middle, beq_iff_eq] at first
        rw [equals_of_integer middle right, beq_iff_eq] at second
        rw [equals_of_integer left right, beq_iff_eq, first, second]

theorem contents_of_each {v : Value} {key : String} {items : List Value} (listed : (v.entry key (.list [])).each = .ok items) :
    v.contents key = items := by
  rw [contents, listed]
  rfl

end Value

open Value

theorem any_insert (members : List Value) (v x : Value) :
    (Names.insert members v).any (·.equals x) = (members.any (·.equals x) || v.equals x) := by
  unfold Names.insert
  split
  · rename_i present
    cases equal : v.equals x with
    | false => simp
    | true =>
      obtain ⟨member, inside, same⟩ := any_eq_true.mp present
      simpa using ⟨member, inside, equals_trans same equal⟩
  · simp

theorem collect_cons {rest : List Value} (hashable : v.isHashable) :
    Names.collect members (v :: rest) = Names.collect (Names.insert members v) rest := by
  cases v with
  | list items => cases hashable
  | dict entries => cases hashable
  | _ => rfl

theorem any_collect {items result : List Value} (collected : Names.collect members items = .ok result) (x : Value) :
    result.any (·.equals x) = (members.any (·.equals x) || items.any (·.equals x)) := by
  induction items generalizing members with
  | nil =>
    cases collected
    simp
  | cons item rest ih =>
    cases hashable : item.isHashable with
    | false => cases item <;> cases hashable <;> cases collected
    | true =>
      rw [collect_cons hashable] at collected
      rw [ih collected, any_insert, any_cons, Bool.or_assoc]

theorem collect_ok_iff {items : List Value} :
    Succeeds (Names.collect members items) ↔ ∀ item ∈ items, item.isHashable := by
  induction items generalizing members with
  | nil => simp [Names.collect, Succeeds]
  | cons item rest ih =>
    cases hashable : item.isHashable with
    | false =>
      have failed : ¬ Succeeds (Names.collect members (item :: rest)) := by
        rintro ⟨result, collected⟩
        cases item <;> cases hashable <;> cases collected
      simp [failed, hashable]
    | true => simp [collect_cons hashable, ih, hashable]

def Names.IsReadable (v : Value) : Prop := ∃ items, v.each = .ok items ∧ ∀ item ∈ items, item.isHashable = true

theorem names_ok_iff : Succeeds (Names.ofValue v) ↔ Names.IsReadable v := by
  refine succeeds_bind_iff.trans (exists_congr fun items => and_congr_right fun _ => ?_)
  rw [succeeds_map_iff, collect_ok_iff]

theorem names_cases {names : Names} (made : Names.ofValue (v.entry key (.list [])) = .ok names) :
    ∃ members, names = .set members ∧ SameMembers members (v.contents key) := by
  obtain ⟨items, listed, made⟩ := bind_cases made
  obtain ⟨members, collected, made⟩ := bind_cases made
  cases made
  refine ⟨members, rfl, ?_⟩
  intro x
  rw [contents_of_each listed, any_collect collected]
  simp

def Rule.IsReadable (v : Value) : Prop :=
  (v.field? "name").isSome = true ∧ Names.IsReadable (v.entry "groups" (.list [])) ∧ Names.IsReadable (v.entry "holes" (.list [])) ∧
    ∃ filters, (v.entry "filters" (.list [])).each = .ok filters ∧ ∀ f ∈ filters, f.dict?.isSome = true

def Graph.IsReadable (v : Value) : Prop :=
  (∃ given items, v.field? "rules" = some given ∧ given.each = .ok items ∧ ∀ item ∈ items, Rule.IsReadable item) ∧
    ∃ edges, v.entry "edges" (.list []) = .list edges

theorem Rule.readable_iff : (∃ r, Rule.Made v r) ↔ Rule.IsReadable v := by
  constructor
  · rintro ⟨r, made⟩
    exact ⟨by rw [made.name]; rfl, names_ok_iff.mp ⟨_, made.groups⟩, names_ok_iff.mp ⟨_, made.holes⟩,
      filterSet_ok_iff.mp ⟨_, made.filters⟩⟩
  · rintro ⟨named, groups, holes, filters⟩
    obtain ⟨name, known⟩ := Option.isSome_iff_exists.mp named
    obtain ⟨groups, grouped⟩ := names_ok_iff.mpr groups
    obtain ⟨holes, holed⟩ := names_ok_iff.mpr holes
    obtain ⟨fs, filtered⟩ := filterSet_ok_iff.mpr filters
    exact ⟨⟨name, _, _, _, groups, holes, fs, _⟩, known, rfl, rfl, rfl, grouped, holed, filtered, rfl⟩

theorem Graph.ofTable_cases (made : ofTable v = .ok g) :
    List.Forall₂ Rule.Made (v.contents "rules") g.rules ∧ v.entry "edges" (.list []) = .list g.edges := by
  obtain ⟨⟨given, items, known, listed, each⟩, joined⟩ := Graph.ofTable_ok_iff.mp made
  have found : v.entry "rules" (.list []) = given := by rw [Value.entry, known]; rfl
  have listed : v.contents "rules" = items := contents_of_each (found ▸ listed)
  exact ⟨listed ▸ each, joined⟩

theorem Graph.readable_iff : Succeeds (ofTable v) ↔ Graph.IsReadable v := by
  constructor
  · rintro ⟨g, made⟩
    obtain ⟨⟨given, items, known, listed, each⟩, joined⟩ := Graph.ofTable_ok_iff.mp made
    refine ⟨⟨given, items, known, listed, fun item inside => ?_⟩, g.edges, joined⟩
    obtain ⟨r, -, made⟩ := forall₂_mem_left each inside
    exact Rule.readable_iff.mp ⟨r, made⟩
  · rintro ⟨⟨given, items, known, listed, each⟩, edges, joined⟩
    obtain ⟨rules, made⟩ := forall₂_of_forall fun item inside => Rule.readable_iff.mpr (each item inside)
    exact ⟨⟨rules, edges⟩, Graph.ofTable_ok_iff.mpr ⟨⟨given, items, known, listed, made⟩, joined⟩⟩

theorem Graph.isText_iff {text : String} : isText (.str text) ↔ ∃ v, Toml.read text = .ok v ∧ Graph.IsReadable v := by
  simp only [← readable_iff, ← succeeds_bind_iff]
  rw [isText, ofToml]
  generalize (Toml.read text >>= ofTable) = x
  cases x <;> simp [Except.isOk, Except.toBool, Succeeds]

namespace Engine

def Filter.told (v : Value) : Filter :=
  { enclosing := v.entry "enclosing_node" .null, notEnclosing := v.entry "not_enclosing_node" .null
    notContains := v.entry "not_contains" (.list []), contains := v.entry "contains" .null, atLeast := v.entry "at_least" (.int 1)
    atMost := v.entry "at_most" unlimited }

structure Rule.Tells (v : Value) (r : Rule) : Prop where
  name : v.field? "name" = some r.name
  query : r.query = v.entry "query" .null
  replaceNode : r.replaceNode = v.entry "replace_node" .null
  replace : r.replace = v.entry "replace" .null
  groups : ∃ members, r.groups = .set members ∧ SameMembers members (v.contents "groups")
  holes : ∃ members, r.holes = .set members ∧ SameMembers members (v.contents "holes")
  filters : r.filters.Perm ((v.contents "filters").map Filter.told)
  isSeed : r.isSeed = v.entry "is_seed_rule" (.bool true)

structure Edge.Tells (v : Value) (edge : Edge) : Prop where
  source : v.field? "from" = some edge.source
  targets : v.field? "to" = some edge.targets
  scope : v.field? "scope" = some edge.scope

structure Graph.Tells (v : Value) (e : Graph) : Prop where
  rules : List.Forall₂ Rule.Tells (v.contents "rules") e.rules
  edges : List.Forall₂ Edge.Tells (v.contents "edges") e.edges

end Engine

theorem Filter.engine_of_ok {f : Filter} (made : Filter.ofTable v = .ok f) : f.engine = Engine.Filter.told v := by
  cases v with
  | dict entries =>
    cases made
    rfl
  | _ => cases made

theorem filterSet_told {fs : List Filter} (made : Rule.filterSet (v.entry "filters" (.list [])) = .ok fs) :
    (fs.map Filter.engine).Perm ((v.contents "filters").map Engine.Filter.told) := by
  obtain ⟨items, listed, made⟩ := bind_cases made
  obtain ⟨filters, read, made⟩ := bind_cases made
  cases made
  rw [contents_of_each listed]
  have told : items.map Engine.Filter.told = filters.map Filter.engine := by
    rw [← forall₂_eq_eq_eq, forall₂_map_left_iff, forall₂_map_right_iff]
    exact (mapM_ok_iff.mp read).imp fun _ _ made => (Filter.engine_of_ok made).symm
  exact told ▸ (mergeSort_perm _ _).map _

theorem Rule.Made.tells (made : Rule.Made v r) : Engine.Rule.Tells v r.engine where
  name := made.name
  query := made.query
  replaceNode := made.replaceNode
  replace := made.replace
  groups := names_cases made.groups
  holes := names_cases made.holes
  filters := filterSet_told made.filters
  isSeed := made.isSeed

theorem Engine.edge_ok_iff {edge : Engine.Edge} : Engine.Edge.ofTable v = .ok edge ↔ Engine.Edge.Tells v edge := by
  obtain ⟨source, targets, scope⟩ := edge
  simp only [Engine.Edge.ofTable, bind_ok_iff, demand_field, pure, Except.pure, Except.ok.injEq, Engine.Edge.mk.injEq]
  constructor
  · rintro ⟨_, starts, _, ends, _, within, rfl, rfl, rfl⟩
    exact ⟨starts, ends, within⟩
  · rintro ⟨starts, ends, within⟩
    exact ⟨_, starts, _, ends, _, within, rfl, rfl, rfl⟩

theorem Engine.edge_succeeds_iff : Succeeds (Engine.Edge.ofTable v) ↔ Graph.IsSoundEdge v := by
  simp only [Engine.Edge.ofTable, succeeds_bind_iff, demand_field, succeeds_pure, and_true, soundEdge_iff]
  constructor
  · rintro ⟨source, starts, targets, ends, scope, within⟩
    exact ⟨scope, within, source, starts, targets, ends⟩
  · rintro ⟨scope, within, source, starts, targets, ends⟩
    exact ⟨source, starts, targets, ends, scope, within⟩

theorem Graph.engine_ok_iff (made : ofTable v = .ok g) :
    Succeeds g.engine ↔ ∀ edge ∈ v.contents "edges", Graph.IsSoundEdge edge := by
  have joined := (ofTable_cases made).2
  have listed : v.contents "edges" = g.edges := contents_of_each (by rw [joined]; rfl)
  rw [listed]
  simp only [← Engine.edge_succeeds_iff, ← succeeds_mapM_iff]
  exact succeeds_map_iff

theorem Graph.engine_tells {e : Engine.Graph} (made : ofTable v = .ok g) (given : g.engine = .ok e) :
    Engine.Graph.Tells v e := by
  obtain ⟨rules, joined⟩ := ofTable_cases made
  obtain ⟨edges, read, given⟩ := bind_cases given
  cases given
  have listed : v.contents "edges" = g.edges := contents_of_each (by rw [joined]; rfl)
  refine ⟨?_, ?_⟩
  · rw [forall₂_map_right_iff]
    exact rules.imp fun _ _ => Rule.Made.tells
  · rw [listed]
    exact (mapM_ok_iff.mp read).imp fun _ _ => Engine.edge_ok_iff.mp

/-- Of the texts that are accepted as rules, exactly those can be applied whose edges all say from where to where they go and in what
scope. Then the engine gets what the text says; otherwise the failure is that of an edge, not of the engine. -/
theorem accepted_text_applies_iff {text : String} (accepted : Graph.isText (.str text) = true) :
    ∃ v, Toml.read text = .ok v ∧ Graph.IsReadable v ∧
      ((∃ e, (Graph.ofToml text >>= Graph.engine) = .ok e) ↔ ∀ edge ∈ v.contents "edges", Graph.IsSoundEdge edge) ∧
      (∀ e, (Graph.ofToml text >>= Graph.engine) = .ok e → Engine.Graph.Tells v e) ∧
      ∀ f, (Graph.ofToml text >>= Graph.engine) = .error f → ∃ edge ∈ v.contents "edges", Engine.Edge.ofTable edge = .error f := by
  obtain ⟨v, read, readable⟩ := Graph.isText_iff.mp accepted
  obtain ⟨g, made⟩ := Graph.readable_iff.mpr readable
  have whole : (Graph.ofToml text >>= Graph.engine) = g.engine := by
    rw [Graph.ofToml, read]
    exact congrArg (· >>= Graph.engine) made
  rw [whole]
  refine ⟨v, read, readable, Graph.engine_ok_iff made, fun e => Graph.engine_tells made, ?_⟩
  intro f failed
  have joined := (Graph.ofTable_cases made).2
  rw [@contents_of_each v "edges" g.edges (by rw [joined]; rfl)]
  cases told : g.edges.mapM Engine.Edge.ofTable with
  | ok edges =>
    rw [Graph.engine, told] at failed
    cases failed
  | error e =>
    rw [Graph.engine, told] at failed
    cases failed
    exact mapM_error told

def edgeText (rest : String) : String := "[[rules]]\nname = \"drop\"\n\n[[edges]]\nfrom = \"drop\"\n" ++ rest

theorem accepted_text_applies : Graph.isText (.str (edgeText "to = [\"drop\"]\nscope = \"File\"\n")) = true ∧
    ∃ v, Toml.read (edgeText "to = [\"drop\"]\nscope = \"File\"\n") = .ok v ∧
      ∃ e, (Graph.ofToml (edgeText "to = [\"drop\"]\nscope = \"File\"\n") >>= Graph.engine) = .ok e ∧ Engine.Graph.Tells v e := by
  have accepted : Graph.isText (.str (edgeText "to = [\"drop\"]\nscope = \"File\"\n")) = true := by decide +kernel
  refine ⟨accepted, ?_⟩
  obtain ⟨v, read, -, applies, tells, -⟩ := accepted_text_applies_iff accepted
  have known : (Toml.read (edgeText "to = [\"drop\"]\nscope = \"File\"\n")).toOption = some (.dict
      [("rules", .list [.dict [("name", .str "drop")]]),
        ("edges", .list [.dict [("from", .str "drop"), ("to", .list [.str "drop"]), ("scope", .str "File")]])]) := by
    decide +kernel
  cases read.symm.trans (toOption_eq_some known)
  have sound : ∀ edge ∈ [Value.dict [("from", .str "drop"), ("to", .list [.str "drop"]), ("scope", .str "File")]],
      Graph.IsSoundEdge edge := by
    intro edge inside
    cases mem_singleton.mp inside
    exact ⟨_, rfl, by decide⟩
  obtain ⟨e, given⟩ := applies.mpr sound
  exact ⟨_, read, e, given, tells e given⟩

/-- An edge without targets is accepted, and stops the rules from being applied. -/
theorem accepted_text_without_targets : Graph.isText (.str (edgeText "scope = \"File\"\n")) = true ∧
    (Graph.ofToml (edgeText "scope = \"File\"\n") >>= Graph.engine).toOption = none := by
  decide +kernel

def Filter.handedKeys : List (String × Value) :=
  [("enclosing_node", .null), ("not_enclosing_node", .null), ("not_contains", .list []), ("contains", .null), ("at_least", .int 1),
    ("at_most", unlimited)]

def Filter.countKeys : List (String × Value) := [("child_count", unlimited), ("sibling_count", unlimited)]

def Rule.plainKeys : List (String × Value) :=
  [("query", .null), ("replace_node", .null), ("replace", .null), ("is_seed_rule", .bool true)]

def Value.AgreeOn (keys : List (String × Value)) (v w : Value) : Prop := ∀ key ∈ keys, v.entry key.1 key.2 = w.entry key.1 key.2

structure Rule.Agree (keys : List (String × Value)) (v w : Value) : Prop where
  name : v.field? "name" = w.field? "name"
  plain : AgreeOn Rule.plainKeys v w
  groups : SameMembers (v.contents "groups") (w.contents "groups")
  holes : SameMembers (v.contents "holes") (w.contents "holes")
  filters : ∀ f ∈ v.contents "filters", ∃ g ∈ w.contents "filters", AgreeOn keys f g
  filters' : ∀ g ∈ w.contents "filters", ∃ f ∈ v.contents "filters", AgreeOn keys f g

def Graph.AgreeEdge (v w : Value) : Prop := ∀ key ∈ ["from", "to", "scope"], v.field? key = w.field? key

structure Graph.Agree (keys : List (String × Value)) (v w : Value) : Prop where
  rules : List.Forall₂ (Rule.Agree keys) (v.contents "rules") (w.contents "rules")
  edges : List.Forall₂ Graph.AgreeEdge (v.contents "edges") (w.contents "edges")

def Names.Same : Names → Names → Prop
  | .given v, .given w => v = w
  | .set xs, .set ys => SameMembers xs ys
  | _, _ => False

namespace Engine

structure Rule.Same (r s : Rule) : Prop where
  name : r.name = s.name
  query : r.query = s.query
  replaceNode : r.replaceNode = s.replaceNode
  replace : r.replace = s.replace
  groups : r.groups.Same s.groups
  holes : r.holes.Same s.holes
  filters : ∀ f, f ∈ r.filters ↔ f ∈ s.filters
  isSeed : r.isSeed = s.isSeed

structure Graph.Same (e f : Graph) : Prop where
  rules : List.Forall₂ Rule.Same e.rules f.rules
  edges : e.edges = f.edges

theorem told_eq_iff {v w : Value} : Filter.told v = Filter.told w ↔ AgreeOn Filter.handedKeys v w := by
  simp [Filter.told, AgreeOn, Filter.handedKeys]

theorem names_same_iff {a b : Names} {xs ys : List Value} (first : ∃ members, a = .set members ∧ SameMembers members xs)
    (second : ∃ members, b = .set members ∧ SameMembers members ys) : a.Same b ↔ SameMembers xs ys := by
  obtain ⟨members, rfl, same⟩ := first
  obtain ⟨members', rfl, same'⟩ := second
  constructor
  · intro both x
    rw [← same x, ← same' x, both x]
  · intro both x
    rw [same x, same' x, both x]

theorem filters_same_iff {fs gs : List Filter} {xs ys : List Value} (first : fs.Perm (xs.map Filter.told))
    (second : gs.Perm (ys.map Filter.told)) :
    (∀ f, f ∈ fs ↔ f ∈ gs) ↔
      (∀ x ∈ xs, ∃ y ∈ ys, AgreeOn Filter.handedKeys x y) ∧ ∀ y ∈ ys, ∃ x ∈ xs, AgreeOn Filter.handedKeys x y := by
  simp only [first.mem_iff, second.mem_iff, mem_map, ← told_eq_iff]
  constructor
  · intro same
    refine ⟨?_, ?_⟩
    · intro x inside
      obtain ⟨y, inside', told⟩ := (same _).mp ⟨x, inside, rfl⟩
      exact ⟨y, inside', told.symm⟩
    · intro y inside
      obtain ⟨x, inside', told⟩ := (same _).mpr ⟨y, inside, rfl⟩
      exact ⟨x, inside', told⟩
  · rintro ⟨ahead, back⟩ f
    constructor
    · rintro ⟨x, inside, rfl⟩
      obtain ⟨y, inside', told⟩ := ahead x inside
      exact ⟨y, inside', told.symm⟩
    · rintro ⟨y, inside, rfl⟩
      exact back y inside

theorem Rule.Tells.same_iff {v w : Value} {r s : Rule} (first : Rule.Tells v r) (second : Rule.Tells w s) :
    r.Same s ↔ Rule.Agree Filter.handedKeys v w := by
  have filters := filters_same_iff first.filters second.filters
  have groups := names_same_iff first.groups second.groups
  have holes := names_same_iff first.holes second.holes
  constructor
  · intro same
    obtain ⟨ahead, back⟩ := filters.mp same.filters
    refine ⟨?_, ?_, groups.mp same.groups, holes.mp same.holes, ahead, back⟩
    · rw [first.name, second.name, same.name]
    · simp [AgreeOn, Rule.plainKeys, ← first.query, ← second.query, same.query, ← first.replaceNode, ← second.replaceNode, same.replaceNode,
        ← first.replace, ← second.replace, same.replace, ← first.isSeed, ← second.isSeed, same.isSeed]
  · intro agree
    have name : some r.name = some s.name := by rw [← first.name, ← second.name, agree.name]
    have plain := agree.plain
    simp only [AgreeOn, Rule.plainKeys, forall_mem_cons, ← first.query, ← second.query, ← first.replaceNode, ← second.replaceNode,
      ← first.replace, ← second.replace, ← first.isSeed, ← second.isSeed] at plain
    obtain ⟨query, node, replace, seed, -⟩ := plain
    exact ⟨Option.some.inj name, query, node, replace, groups.mpr agree.groups, holes.mpr agree.holes,
      filters.mpr ⟨agree.filters, agree.filters'⟩, seed⟩

theorem Edge.Tells.eq_iff {v w : Value} {a b : Edge} (first : Edge.Tells v a) (second : Edge.Tells w b) :
    a = b ↔ Graph.AgreeEdge v w := by
  cases a
  cases b
  simp [Graph.AgreeEdge, first.source, second.source, first.targets, second.targets, first.scope, second.scope]

end Engine

theorem forall₂_iff {α β : Type} {R : α → β → Prop} {P : β → β → Prop} {Q : α → α → Prop} {xs ys : List α} {as bs : List β}
    (first : List.Forall₂ R xs as) (second : List.Forall₂ R ys bs) (each : ∀ {x y a b}, R x a → R y b → (P a b ↔ Q x y)) :
    List.Forall₂ P as bs ↔ List.Forall₂ Q xs ys := by
  induction first generalizing ys bs with
  | nil => cases second <;> simp
  | cons head tail ih =>
    cases second with
    | nil => simp
    | cons head' tail' => rw [forall₂_cons, forall₂_cons, each head head', ih tail']

theorem Engine.Graph.Tells.same_iff {w : Value} {e f : Engine.Graph} (first : Engine.Graph.Tells v e) (second : Engine.Graph.Tells w f) :
    e.Same f ↔ Graph.Agree Filter.handedKeys v w := by
  have rules := forall₂_iff first.rules second.rules fun a b => Engine.Rule.Tells.same_iff a b
  have edges := forall₂_iff first.edges second.edges fun a b => Engine.Edge.Tells.eq_iff a b
  rw [forall₂_eq_eq_eq] at edges
  exact ⟨fun same => ⟨rules.mp same.rules, edges.mp same.edges⟩, fun agree => ⟨rules.mpr agree.rules, edges.mpr agree.edges⟩⟩

def Graph.Uncounted (v : Value) : Prop :=
  ∀ rule ∈ v.contents "rules", ∀ f ∈ rule.contents "filters", ∀ key ∈ Filter.countKeys, f.entry key.1 key.2 = key.2

theorem Value.AgreeOn.append {keys more : List (String × Value)} {w : Value} (agree : AgreeOn keys v w)
    (first : ∀ key ∈ more, v.entry key.1 key.2 = key.2) (second : ∀ key ∈ more, w.entry key.1 key.2 = key.2) :
    AgreeOn (keys ++ more) v w := by
  intro key inside
  rcases mem_append.mp inside with inside | inside
  · exact agree key inside
  · rw [first key inside, second key inside]

theorem Graph.Agree.counted {w : Value} (agree : Graph.Agree Filter.handedKeys v w) (first : Graph.Uncounted v) (second : Graph.Uncounted w) :
    Graph.Agree (Filter.handedKeys ++ Filter.countKeys) v w := by
  refine ⟨?_, agree.edges⟩
  rw [forall₂_iff_zip]
  refine ⟨agree.rules.length_eq, ?_⟩
  intro r s inside
  have both : Rule.Agree Filter.handedKeys r s := (forall₂_iff_zip.mp agree.rules).2 inside
  obtain ⟨inside, inside'⟩ := of_mem_zip inside
  refine ⟨both.name, both.plain, both.groups, both.holes, ?_, ?_⟩
  · intro f member
    obtain ⟨g, member', same⟩ := both.filters f member
    exact ⟨g, member', same.append (first r inside f member) (second s inside' g member')⟩
  · intro g member
    obtain ⟨f, member', same⟩ := both.filters' g member
    exact ⟨f, member', same.append (first r inside f member') (second s inside' g member)⟩

/-- What the engine is given is the same for two tables exactly if they agree on every key but the numbers of children and siblings.
So tables whose filters leave those two alone are told apart by any key. -/
theorem arguments_same_iff {v w : Value} {g h : Graph} {e f : Engine.Graph} (first : Graph.ofTable v = .ok g) (second : Graph.ofTable w = .ok h)
    (given : g.engine = .ok e) (given' : h.engine = .ok f) :
    (e.Same f ↔ Graph.Agree Filter.handedKeys v w) ∧
      (Graph.Uncounted v → Graph.Uncounted w → ¬ Graph.Agree (Filter.handedKeys ++ Filter.countKeys) v w → ¬ e.Same f) := by
  have same := (Graph.engine_tells first given).same_iff (Graph.engine_tells second given')
  refine ⟨same, ?_⟩
  intro plain plain' different alike
  exact different ((same.mp alike).counted plain plain')

def filteredRule (filter : Entries) : Value :=
  .dict [("rules", .list [.dict [("name", .str "drop"), ("filters", .list [.dict filter])]])]

theorem Graph.Agree.filter {keys : List (String × Value)} {a b : Entries} (agree : Graph.Agree keys (filteredRule a) (filteredRule b)) :
    AgreeOn keys (.dict a) (.dict b) := by
  obtain ⟨both, -⟩ := forall₂_cons.mp agree.rules
  obtain ⟨g, inside, same⟩ := both.filters (.dict a) mem_cons_self
  cases mem_singleton.mp inside
  exact same

theorem arguments_tell_at_least :
    ∃ g h e f, Graph.ofTable (filteredRule [("at_least", .int 2)]) = .ok g ∧ Graph.ofTable (filteredRule []) = .ok h ∧
      g.engine = .ok e ∧ h.engine = .ok f ∧ ¬ e.Same f := by
  have first : (Graph.ofTable (filteredRule [("at_least", .int 2)])).toOption =
      some ⟨[{ name := .str "drop", filters := [{ atLeast := .int 2 }] }], []⟩ := by
    decide +kernel
  have second : (Graph.ofTable (filteredRule [])).toOption = some ⟨[{ name := .str "drop", filters := [{}] }], []⟩ := by decide +kernel
  refine ⟨_, _, _, _, toOption_eq_some first, toOption_eq_some second, rfl, rfl, ?_⟩
  apply (arguments_same_iff (toOption_eq_some first) (toOption_eq_some second) rfl rfl).2
  · simp [Graph.Uncounted, filteredRule, Filter.countKeys, Value.contents, Value.entry, Value.field?, Value.each, Entries.get?]
  · simp [Graph.Uncounted, filteredRule, Filter.countKeys, Value.contents, Value.entry, Value.field?, Value.each, Entries.get?]
  · intro agree
    exact absurd (agree.filter ("at_least", .int 1) (by decide)) (by decide)

/-- A filter for two children and one for any number of them are the same to the engine. -/
theorem arguments_blind_to_child_count :
    (Graph.ofTable (filteredRule [("child_count", .int 2)]) >>= Graph.engine).toOption =
        (Graph.ofTable (filteredRule []) >>= Graph.engine).toOption ∧
      (Graph.ofTable (filteredRule []) >>= Graph.engine).isOk = true ∧
      ¬ Graph.Agree (Filter.handedKeys ++ Filter.countKeys) (filteredRule [("child_count", .int 2)]) (filteredRule []) := by
  refine ⟨by decide +kernel, by decide +kernel, ?_⟩
  intro agree
  exact absurd (agree.filter ("child_count", unlimited) (by decide)) (by decide)

end Rulewright
