import Rulewright.Flag.Walk
import Rulewright.Proofs.Flag.Bare

/-!
The nodes that a walk reaches, with their parents, in visiting order. An analysis that answers is a
fold over them (`analyse_visits`), and `Everywhere` says that all of them have a property.
-/

open List

namespace Rulewright.Flag

variable {tree v : Value} {es : Entries}

open Value

theorem value_induction {P : Value → Prop} (leaf : ∀ v, (∀ es, v ≠ .dict es) → (∀ items, v ≠ .list items) → P v)
    (list : ∀ items, (∀ v ∈ items, P v) → P (.list items)) (dict : ∀ es : Entries, (∀ key v, (key, v) ∈ es → P v) → P (.dict es))
    (v : Value) : P v := by
  induction size : sizeOf v using Nat.strongRecOn generalizing v with
  | _ n ih =>
    subst size
    cases v with
    | list items =>
      refine list items fun v member => ih _ ?_ v rfl
      have := sizeOf_lt_of_mem member
      simp only [Value.list.sizeOf_spec]
      omega
    | dict es =>
      refine dict es fun key v member => ih _ ?_ v rfl
      have := sizeOf_lt_of_mem member
      simp only [Prod.mk.sizeOf_spec, Value.dict.sizeOf_spec] at this ⊢
      omega
    | _ => exact leaf _ (by simp) (by simp)

theorem node_induction {P : Value → Prop} (leaf : ∀ v, (∀ es, v ≠ .dict es) → P v)
    (node : ∀ es : Entries, (∀ key v, (key, v) ∈ es → P v) →
      (∀ key items, (key, .list items) ∈ es → ∀ v ∈ items, P v) → P (.dict es)) (v : Value) : P v := by
  suffices both : P v ∧ ∀ items, v = .list items → ∀ x ∈ items, P x from both.1
  induction v using value_induction with
  | leaf v other single => exact ⟨leaf v other, fun items whole => (single items whole).elim⟩
  | list items ih => exact ⟨leaf _ (by simp), by rintro _ ⟨⟩; exact fun x inside => (ih x inside).1⟩
  | dict es ih =>
    exact ⟨node es (fun key v held => (ih key v held).1) fun key items held => (ih key _ held).2 items rfl, by rintro _ ⟨⟩⟩

theorem isNode_eq (v : Value) : isNode v = (kind? v).isSome := by
  unfold isNode kind?
  cases v.field? "type" with
  | none => rfl
  | some type => cases type <;> rfl

theorem kind?_leaf (leaf : isNode v = false) : kind? v = none := by
  simpa [isNode_eq] using leaf

theorem isNode_of_kind? {kind : String} (known : kind? v = some kind) : isNode v := by
  rw [isNode_eq, known]
  rfl

theorem type_of_kind? {kind : String} (known : kind? v = some kind) : v.field? "type" = some (.str kind) := by
  unfold kind? at known
  obtain ⟨type, read, named⟩ := Option.bind_eq_some_iff.mp known
  cases type <;> cases named
  exact read

theorem isNode_dict (node : isNode v) : ∃ es, v = .dict es := by
  cases v with
  | dict es => exact ⟨es, rfl⟩
  | _ => simp [isNode, field?] at node

theorem dict_of_kind? {kind : String} (known : kind? v = some kind) : ∃ es, v = .dict es := isNode_dict (isNode_of_kind? known)

theorem mem_of_isNode_part {key : String} (node : isNode (part (.dict es) key)) :
    (key, part (.dict es) key) ∈ es := by
  simp only [part, field?] at node ⊢
  cases read : Entries.get? key es with
  | none => simp [read, isNode, field?] at node
  | some c => exact Entries.mem_of_get? read

abbrev Place := Option Value × Value

mutual

def nodesIn (stop : Value → Bool) (loose : Bool) (parent : Option Value) : Value → List Place
  | .dict es =>
    (parent, .dict es) ::
      if stop (.dict es) then []
      else fieldNodes stop (visitedKind loose es) (childFields (visitedKind loose es)) (.dict es) es
  | _ => []

def fieldNodes (stop : Value → Bool) (kind : String) (fields : Option (List String)) (parent : Value) :
    List (String × Value) → List Place
  | [] => []
  | (key, .list items) :: rest =>
    (if isChild fields key then itemNodes stop (isPropertyList kind key) parent items else []) ++
      fieldNodes stop kind fields parent rest
  | (key, v) :: rest =>
    (if isChild fields key && isNode v then nodesIn stop false (some parent) v else []) ++
      fieldNodes stop kind fields parent rest

def itemNodes (stop : Value → Bool) (loose : Bool) (parent : Value) : List Value → List Place
  | [] => []
  | v :: rest =>
    (if isVisited loose v then nodesIn stop loose (some parent) v else []) ++ itemNodes stop loose parent rest

end

def never (_ : Value) : Bool := false

def rowNodes (parent : Value) : List Value → List Place
  | [] => []
  | .list items :: rest => itemNodes never false parent items ++ rowNodes parent rest
  | v :: rest => (if isNode v then nodesIn never false (some parent) v else []) ++ rowNodes parent rest

def nodesOf (tree : Value) : List Place :=
  match tree with
  | .list items => rowNodes (.list items) items
  | v => nodesIn never false none v

inductive Below (loose : Bool) (es : Entries) : Bool → Value → Prop where
  | single {key : String} {v : Value} (held : (key, v) ∈ es)
      (child : isChild (childFields (visitedKind loose es)) key = true) (node : isNode v = true) : Below loose es false v
  | listed {key : String} {items : List Value} {v : Value} (held : (key, .list items) ∈ es)
      (child : isChild (childFields (visitedKind loose es)) key = true) (inside : v ∈ items)
      (visited : isVisited (isPropertyList (visitedKind loose es) key) v = true) :
      Below loose es (isPropertyList (visitedKind loose es) key) v

theorem below_induction {P : Bool → Value → Prop} (leaf : ∀ loose v, (∀ es, v ≠ .dict es) → P loose v)
    (node : ∀ loose es, (∀ l v, Below loose es l v → P l v) → P loose (.dict es)) (loose : Bool) (v : Value) : P loose v := by
  induction v using node_induction generalizing loose with
  | leaf v other => exact leaf loose v other
  | node es single listed =>
    refine node loose es fun l v below => ?_
    cases below with
    | single held => exact single _ v held _
    | listed held _ inside => exact listed _ _ held v inside _

theorem Below.dict {loose l : Bool} (below : Below loose es l v) : ∃ fields, v = .dict fields := by
  cases below with
  | single _ _ node => exact isNode_dict node
  | listed _ _ _ visited =>
    cases v with
    | dict fields => exact ⟨fields, rfl⟩
    | _ => simp [isVisited, isNode, field?, dict?] at visited

/-- Where a value stands: alone in a field, or in a list, which is walked loosely or not. -/
inductive Spot where
  | only
  | row (loose : Bool)

@[simp] def Spot.loose : Spot → Bool
  | .only => false
  | .row loose => loose

inductive Within (kind key : String) : Value → Spot → Value → Prop where
  | only {v : Value} (child : isChild (childFields kind) key = true) (node : isNode v = true) : Within kind key v .only v
  | row {items : List Value} {x : Value} (child : isChild (childFields kind) key = true) (inside : x ∈ items) :
      Within kind key (.list items) (.row (isPropertyList kind key)) x

theorem Within.below {loose : Bool} {key : String} {x : Value} {spot : Spot} (within : Within (visitedKind loose es) key v spot x) (held : (key, v) ∈ es)
    (visited : isVisited spot.loose x) : Below loose es spot.loose x := by
  cases within with
  | only child node => exact .single held child node
  | row child inside => exact .listed held child inside visited

section Reached

variable {stop : Value → Bool} {kind key : String} {fields : Option (List String)} {loose : Bool}
  {parent v : Value} {items : List Value} {es : Entries} {n : Place}

theorem nodesIn_self {parent : Option Value} (node : isNode v) : (parent, v) ∈ nodesIn stop loose parent v := by
  obtain ⟨es, rfl⟩ := isNode_dict node
  exact mem_cons_self

theorem itemNodes_eq (items : List Value) :
    itemNodes stop loose parent items =
      items.flatMap fun v => if isVisited loose v then nodesIn stop loose (some parent) v else [] := by
  induction items with
  | nil => rfl
  | cons v rest ih => rw [itemNodes, ih, flatMap_cons]

def nodesInField (stop : Value → Bool) (kind : String) (fields : Option (List String)) (parent : Value)
    (key : String) : Value → List Place
  | .list items => if isChild fields key then itemNodes stop (isPropertyList kind key) parent items else []
  | v => if isChild fields key && isNode v then nodesIn stop false (some parent) v else []

theorem fieldNodes_cons (stop : Value → Bool) (v : Value) (rest : Entries) :
    fieldNodes stop kind fields parent ((key, v) :: rest) =
      nodesInField stop kind fields parent key v ++ fieldNodes stop kind fields parent rest := by
  cases v <;> rw [fieldNodes, nodesInField] <;> rintro _ ⟨⟩

theorem fieldNodes_eq (es : Entries) :
    fieldNodes stop kind fields parent es = es.flatMap fun e => nodesInField stop kind fields parent e.1 e.2 := by
  induction es with
  | nil => rfl
  | cons e rest ih => rw [fieldNodes_cons, ih, flatMap_cons]

theorem nodesInField_node (child : isChild fields key) (node : isNode v) :
    nodesInField stop kind fields parent key v = nodesIn stop false (some parent) v := by
  obtain ⟨es, rfl⟩ := isNode_dict node
  simp [nodesInField, child, node]

theorem mem_itemNodes :
    n ∈ itemNodes stop loose parent items ↔
      ∃ v ∈ items, isVisited loose v ∧ n ∈ nodesIn stop loose (some parent) v := by
  rw [itemNodes_eq, mem_flatMap]
  refine exists_congr fun v => and_congr_right fun _ => ?_
  split <;> simp_all

theorem mem_fieldNodes :
    n ∈ fieldNodes stop (visitedKind loose es) (childFields (visitedKind loose es)) parent es ↔
      ∃ l v, Below loose es l v ∧ n ∈ nodesIn stop l (some parent) v := by
  rw [fieldNodes_eq, mem_flatMap]
  constructor
  · rintro ⟨⟨key, v⟩, held, inside⟩
    cases v with
    | list items =>
      simp only [nodesInField] at inside
      split at inside
      · obtain ⟨v, element, visited, inside⟩ := mem_itemNodes.mp inside
        exact ⟨_, v, .listed held ‹_› element visited, inside⟩
      · cases inside
    | _ =>
      simp only [nodesInField] at inside
      split at inside
      · rename_i both
        obtain ⟨child, node⟩ := Bool.and_eq_true_iff.mp both
        exact ⟨_, _, .single held child node, inside⟩
      · cases inside
  · rintro ⟨l, v, below, inside⟩
    cases below with
    | single held child node => exact ⟨_, held, by rwa [nodesInField_node child node]⟩
    | listed held child element visited =>
      refine ⟨_, held, ?_⟩
      rw [nodesInField, if_pos child]
      exact mem_itemNodes.mpr ⟨v, element, visited, inside⟩

theorem mem_nodesIn {parent : Option Value} :
    n ∈ nodesIn stop loose parent (.dict es) ↔
      n = (parent, .dict es) ∨ stop (.dict es) = false ∧ ∃ l v, Below loose es l v ∧ n ∈ nodesIn stop l (some (.dict es)) v := by
  rw [nodesIn, mem_cons]
  cases stop (.dict es) with
  | true => simp
  | false => simp [mem_fieldNodes]

theorem segment {α β : Type} {x : α} {xs : List α} {f : α → List β} (member : x ∈ xs) : f x <:+: xs.flatMap f := by
  exact infix_of_mem_flatten (mem_map_of_mem member)

theorem itemNodes_segment (element : v ∈ items) (visited : isVisited loose v) :
    nodesIn stop loose (some parent) v <:+: itemNodes stop loose parent items := by
  have outer := segment (f := fun v => if isVisited loose v then nodesIn stop loose (some parent) v else []) element
  rwa [if_pos visited, ← itemNodes_eq] at outer

theorem Below.stretch {l : Bool} (below : Below loose es l v) :
    nodesIn stop l (some parent) v <:+: fieldNodes stop (visitedKind loose es) (childFields (visitedKind loose es)) parent es := by
  rw [fieldNodes_eq]
  have field {e : String × Value} (held : e ∈ es) :=
    segment (f := fun e : String × Value => nodesInField stop (visitedKind loose es) (childFields (visitedKind loose es)) parent e.1 e.2) held
  cases below with
  | single held child node =>
    rw [← nodesInField_node child node]
    exact field held
  | listed held child element visited =>
    have outer := field held
    rw [nodesInField, if_pos child] at outer
    exact (itemNodes_segment element visited).trans outer

theorem nodesIn_infix {parent : Option Value} (reached : n ∈ nodesIn stop loose parent v) :
    ∃ loose', nodesIn stop loose' n.1 n.2 <:+: nodesIn stop loose parent v := by
  induction loose, v using below_induction generalizing parent with
  | leaf loose v leaf => cases v <;> first | exact (leaf _ rfl).elim | simp [nodesIn] at reached
  | node loose es ih =>
    rcases mem_nodesIn.mp reached with rfl | ⟨goes, l, v, below, inside⟩
    · exact ⟨loose, infix_rfl⟩
    · obtain ⟨loose', inner⟩ := ih l v below inside
      rw [nodesIn, goes]
      exact ⟨loose', inner.trans (below.stretch.trans (suffix_cons _ _).isInfix)⟩

theorem nodesInField_infix (reached : n ∈ nodesInField stop kind fields parent key v) :
    ∃ loose', nodesIn stop loose' n.1 n.2 <:+: nodesInField stop kind fields parent key v := by
  cases v with
  | list items =>
    simp only [nodesInField] at reached ⊢
    split at reached
    · rename_i child
      rw [if_pos child]
      obtain ⟨v, element, visited, inside⟩ := mem_itemNodes.mp reached
      obtain ⟨loose', inner⟩ := nodesIn_infix inside
      exact ⟨loose', inner.trans (itemNodes_segment element visited)⟩
    · cases reached
  | _ =>
    simp only [nodesInField] at reached ⊢
    split at reached
    · rename_i child
      rw [if_pos child]
      exact nodesIn_infix reached
    · cases reached

theorem rowNodes_eq (items : List Value) :
    rowNodes parent items = items.flatMap (nodesInField never "" none parent "") := by
  induction items with
  | nil => rfl
  | cons v rest ih => cases v <;> rw [rowNodes, ih] <;> first | rfl | rintro _ ⟨⟩

theorem nodesOf_infix (reached : n ∈ nodesOf tree) : ∃ loose, nodesIn never loose n.1 n.2 <:+: nodesOf tree := by
  unfold nodesOf at reached ⊢
  split at reached
  · rw [rowNodes_eq] at reached ⊢
    obtain ⟨v, element, inside⟩ := mem_flatMap.mp reached
    obtain ⟨loose, inner⟩ := nodesInField_infix inside
    exact ⟨loose, inner.trans (segment element)⟩
  · exact nodesIn_infix reached

end Reached

def Everywhere (P : Value → Prop) (loose : Bool) (v : Value) : Prop :=
  ∀ parent, ∀ n ∈ nodesIn never loose parent v, P n.2

section Everywhere

variable {P Q : Value → Prop} {loose : Bool} {es : Entries} {v : Value}

theorem everywhere_leaf (leaf : ∀ es, v ≠ .dict es) : Everywhere P loose v := by
  intro parent n member
  cases v <;> first | exact (leaf _ rfl).elim | simp [nodesIn] at member

theorem Everywhere.imp (everywhere : Everywhere P loose v) (weaker : ∀ v, P v → Q v) :
    Everywhere Q loose v :=
  fun parent n member => weaker _ (everywhere parent n member)

theorem everywhere_and (first : Everywhere P loose v) (second : Everywhere Q loose v) :
    Everywhere (fun v => P v ∧ Q v) loose v :=
  fun parent n reached => ⟨first parent n reached, second parent n reached⟩

theorem everywhere_of_parent (parent : Option Value) (all : ∀ n ∈ nodesIn never loose parent v, P n.2) :
    Everywhere P loose v := by
  intro other n member
  cases v with
  | dict es =>
    rcases mem_cons.mp member with rfl | later
    · exact all (parent, .dict es) mem_cons_self
    · exact all n (mem_cons_of_mem _ later)
  | _ => simp [nodesIn] at member

theorem everywhere_below :
    Everywhere P loose (.dict es) ↔ P (.dict es) ∧ ∀ l v, Below loose es l v → Everywhere P l v := by
  constructor
  · intro all
    refine ⟨all none _ mem_cons_self, fun l v below => everywhere_of_parent (some (.dict es)) fun n reached => ?_⟩
    exact all none n (mem_nodesIn.mpr (Or.inr ⟨rfl, l, v, below, reached⟩))
  · rintro ⟨here, below⟩ parent n reached
    rcases mem_nodesIn.mp reached with rfl | ⟨-, l, v, inside, reached⟩
    · exact here
    · exact below l v inside _ n reached

end Everywhere

def visitPlace (visit : Visit σ) (s : σ) (n : Place) : Except Fault σ := do
  let (s, _) ← visit s n.1 n.2
  return s

/-- The fold is one over some of the places in their order, all of them if no visit passes over what is inside. -/
def Visits (visit : Visit σ) (places : List Place) (s : σ) (r : Except Fault σ) : Prop :=
  ∃ visited, visited.Sublist places ∧
    ((∀ s parent node, Gives (visit s parent node) (·.2 = false)) → visited = places) ∧
    visited.foldlM (visitPlace visit) s = r

section Analyses

variable {visit : Visit σ} {kind key : String} {fields : Option (List String)} {loose reached : Bool}
  {parent v : Value} {items : List Value} {es : Entries} {s s' : σ} {r : Except Fault σ} {places : List Place}

theorem Visits.refl (s : σ) : Visits visit [] s (.ok s) := ⟨[], .slnil, fun _ => rfl, rfl⟩

theorem Visits.bind {first second : List Place} {f : σ → Except Fault σ} (before : Visits visit first s r)
    (after : ∀ s, Visits visit second s (f s)) : Visits visit (first ++ second) s (r >>= f) := by
  obtain ⟨l₁, sub₁, all₁, run₁⟩ := before
  cases r with
  | error fault => exact ⟨l₁ ++ second, sub₁.append_right second, fun h => by rw [all₁ h], by rw [foldlM_append, run₁]; rfl⟩
  | ok s₁ =>
    obtain ⟨l₂, sub₂, all₂, run₂⟩ := after s₁
    exact ⟨l₁ ++ l₂, sub₁.append sub₂, fun h => by rw [all₁ h, all₂ h], by rw [foldlM_append, run₁]; exact run₂⟩

theorem Visits.ite (inside : Visits visit places s r) : Visits visit (if reached then places else []) s (if reached then r else .ok s) := by
  cases reached with
  | true => exact inside
  | false => exact .refl s

theorem foldItems_cons (v : Value) (rest : List Value) :
    foldItems visit loose parent s (v :: rest) =
      (if isVisited loose v then foldNode visit loose (some parent) s v else .ok s) >>= fun s =>
        foldItems visit loose parent s rest := by
  rw [foldItems]
  split <;> rfl

def foldField (visit : Visit σ) (kind : String) (fields : Option (List String)) (parent : Value) (s : σ)
    (key : String) : Value → Except Fault σ
  | .list items => if isChild fields key then foldItems visit (isPropertyList kind key) parent s items else .ok s
  | v => if isChild fields key && isNode v then foldNode visit false (some parent) s v else .ok s

theorem foldEntries_cons (v : Value) (rest : Entries) :
    foldEntries visit kind fields parent s ((key, v) :: rest) =
      foldField visit kind fields parent s key v >>= fun s => foldEntries visit kind fields parent s rest := by
  cases v <;> rw [foldEntries, foldField] <;> first | (split <;> rfl) | rintro _ ⟨⟩

theorem foldItems_visits (elements : ∀ v ∈ items, ∀ s, Visits visit (nodesIn never loose (some parent) v) s (foldNode visit loose (some parent) s v))
    (s : σ) : Visits visit (itemNodes never loose parent items) s (foldItems visit loose parent s items) := by
  induction items generalizing s with
  | nil => exact .refl s
  | cons v rest ih =>
    rw [foldItems_cons]
    exact (Visits.ite (elements v mem_cons_self s)).bind (ih fun v member => elements v (mem_cons_of_mem _ member))

theorem foldEntries_visits (kind : String) (fields : Option (List String))
    (single : ∀ key v, (key, v) ∈ es → ∀ s, Visits visit (nodesIn never false (some parent) v) s (foldNode visit false (some parent) s v))
    (listed : ∀ key items, (key, .list items) ∈ es → ∀ v ∈ items, ∀ loose s,
      Visits visit (nodesIn never loose (some parent) v) s (foldNode visit loose (some parent) s v)) (s : σ) :
    Visits visit (fieldNodes never kind fields parent es) s (foldEntries visit kind fields parent s es) := by
  induction es generalizing s with
  | nil => exact .refl s
  | cons e rest ih =>
    obtain ⟨key, v⟩ := e
    rw [foldEntries_cons, fieldNodes_cons]
    refine Visits.bind ?_ (ih (fun key v member => single key v (mem_cons_of_mem _ member))
      fun key items member => listed key items (mem_cons_of_mem _ member))
    cases v with
    | list items => exact .ite (foldItems_visits (fun v element => listed key items mem_cons_self v element _) s)
    | _ => exact .ite (single key _ mem_cons_self s)

theorem foldNode_visits {parent : Option Value} (s : σ) : Visits visit (nodesIn never loose parent v) s (foldNode visit loose parent s v) := by
  induction v using node_induction generalizing loose parent s with
  | leaf v leaf => cases v <;> first | exact (leaf _ rfl).elim | exact .refl s
  | node es single listed =>
    rw [foldNode, nodesIn, never, if_neg Bool.false_ne_true]
    cases seen : visit s parent (.dict es) with
    | error fault => exact ⟨_, .refl _, fun _ => rfl, by simp [visitPlace, seen, bind, Except.bind]⟩
    | ok answer =>
      obtain ⟨s₁, pass⟩ := answer
      have step : visitPlace visit s (parent, .dict es) = .ok s₁ := by
        simp only [visitPlace, seen, bind, Except.bind]
        rfl
      cases pass with
      | true =>
        refine ⟨[(parent, .dict es)], List.Sublist.cons_cons _ (nil_sublist _), fun never => ?_, ?_⟩
        · exact absurd (never _ _ _ _ seen) (by simp)
        · simp [step]
          rfl
      | false =>
        obtain ⟨visited, sub, all, rest⟩ := foldEntries_visits (visitedKind loose es) (childFields (visitedKind loose es))
          (fun key v member => single key v member) (fun key items member v element loose => listed key items member v element) s₁
        refine ⟨(parent, .dict es) :: visited, sub.cons_cons _, fun h => by rw [all h], ?_⟩
        rw [foldlM_cons, step]
        exact rest

theorem foldRows_visits (s : σ) : Visits visit (rowNodes parent items) s (foldRows visit parent s items) := by
  induction items generalizing s with
  | nil => exact .refl s
  | cons v rest ih =>
    cases v with
    | list items => exact (foldItems_visits (fun _ _ => foldNode_visits) s).bind ih
    | dict es =>
      have folded : foldRows visit parent s (.dict es :: rest) =
          (if isNode (.dict es) then foldNode visit false (some parent) s (.dict es) else .ok s) >>= fun s =>
            foldRows visit parent s rest := by
        simp only [foldRows]
        split <;> rfl
      rw [folded, rowNodes]
      · exact (Visits.ite (foldNode_visits s)).bind ih
      · rintro _ ⟨⟩
    | _ => exact ih s

theorem analyse_visits (visit : Visit σ) (s : σ) (tree : Value) : Visits visit (nodesOf tree) s (analyse visit s tree) := by
  cases tree with
  | list items => exact foldRows_visits s
  | _ => exact foldNode_visits s

theorem analyse_invariant {P : σ → Prop} (start : P s) (step : ∀ n ∈ nodesOf tree, ∀ s, P s → Gives (visit s n.1 n.2) (P ·.1)) :
    Gives (analyse visit s tree) P := by
  obtain ⟨visited, sub, -, folded⟩ := analyse_visits visit s tree
  rw [← folded]
  replace step (n : Place) (member : n ∈ visited) := step n (sub.subset member)
  clear sub folded
  induction visited generalizing s with
  | nil => exact gives_pure start
  | cons n visited ih =>
    have first : Gives (visitPlace visit s n) P := .bind fun r seen => gives_pure (step n mem_cons_self s start r seen)
    rw [foldlM_cons]
    exact .bind fun s' seen => ih (first s' seen) fun n member => step n (mem_cons_of_mem _ member)

theorem analyse_foldl {g : σ → Place → σ} (step : ∀ s n, Gives (visit s n.1 n.2) (· = (g s n, false))) :
    Gives (analyse visit s tree) (· = (nodesOf tree).foldl g s) := by
  obtain ⟨visited, -, all, folded⟩ := analyse_visits visit s tree
  rw [← folded, all fun s parent node r seen => by rw [step s (parent, node) r seen]]
  clear folded
  generalize nodesOf tree = places
  induction places generalizing s with
  | nil => exact gives_pure rfl
  | cons n places ih =>
    have first : Gives (visitPlace visit s n) (· = g s n) := .bind fun r seen => gives_pure (by rw [step s n r seen])
    rw [foldlM_cons, foldl_cons]
    exact .bind fun s' seen => first s' seen ▸ ih

end Analyses

end Rulewright.Flag
