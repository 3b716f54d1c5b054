import Mathlib.Algebra.GroupWithZero.Nat
import Mathlib.Algebra.Order.BigOperators.Group.List
import Mathlib.Algebra.Order.Group.Nat
import Rulewright.Proofs.Flag.Meaning
import Rulewright.Proofs.Flag.Remains
import Rulewright.Proofs.Flag.Silence

/-!
The weight of a tree. Every pass lowers it or leaves it as it is. A pass that leaves the weight of a flat tree as it
is has left every node alone (`Edits.walk_silent`), and a flattening that does so was given a flat tree
(`flattenNode_still`).
-/

open List

namespace Rulewright.Flag

open Value Entries

mutual

def tables (comments : Bool) : Value → List Value
  | .dict es => .dict es :: fieldTables comments es
  | .list items => itemTables comments items
  | _ => []

def itemTables (comments : Bool) : List Value → List Value
  | [] => []
  | v :: rest => tables comments v ++ itemTables comments rest

def fieldTables (comments : Bool) : List (String × Value) → List Value
  | [] => []
  | (key, v) :: rest => (if key == "comments" && !comments then [] else tables comments v) ++ fieldTables comments rest

end

def size (v : Value) : Nat := (tables false v).length

def cost (v : Value) : Nat := if hasKind v "Literal" then 1 else 2

def weight (v : Value) : Nat := ((tables false v).map cost).sum

def weightAt (e : String × Value) : Nat := if e.1 == "comments" then 0 else weight e.2

def Thoroughly (P : Value → Prop) (v : Value) : Prop := ∀ w ∈ tables false v, P w

instance (P : Value → Prop) [DecidablePred P] (v : Value) : Decidable (Thoroughly P v) :=
  inferInstanceAs (Decidable (∀ w ∈ tables false v, P w))

section Tables

variable {P : Value → Prop} {v w : Value} {es es' : Entries} {items : List Value} {key : String}

theorem cost_pos (v : Value) : 0 < cost v := by
  unfold cost
  split <;> omega

theorem cost_le (v : Value) : cost v ≤ 2 := by
  unfold cost
  split <;> omega

theorem weight_le_size (v : Value) : weight v ≤ 2 * size v := by
  have each : ((tables false v).map cost).sum ≤ ((tables false v).map fun _ => 2).sum := sum_le_sum fun w _ => cost_le w
  have total : ((tables false v).map fun _ => 2).sum = (tables false v).length * 2 := by simp
  unfold weight size
  omega

theorem fieldTables_weight (es : Entries) : ((fieldTables false es).map cost).sum = (es.map weightAt).sum := by
  induction es with
  | nil => rfl
  | cons e rest ih =>
    rw [fieldTables, map_append, sum_append, ih, map_cons, weightAt, Bool.not_false,
      Bool.and_true]
    split <;> rfl

theorem weight_dict (es : Entries) : weight (.dict es) = cost (.dict es) + (es.map weightAt).sum := by
  rw [weight, tables, map_cons, sum_cons, fieldTables_weight]

theorem weight_list (items : List Value) : weight (.list items) = (items.map weight).sum := by
  rw [weight, tables]
  induction items with
  | nil => rfl
  | cons v rest ih => rw [itemTables, map_append, sum_append, ih, map_cons, sum_cons, weight]

theorem weight_field (held : (key, v) ∈ es) (other : key ≠ "comments") : weight v < weight (.dict es) := by
  have member : weightAt (key, v) ∈ es.map weightAt := mem_map_of_mem held
  have below := le_sum_of_mem member
  have positive := cost_pos (.dict es)
  rw [weightAt, if_neg (by simpa using other)] at below
  rw [weight_dict]
  dsimp only at below
  omega

theorem weight_part (other : key ≠ "comments") : weight (part (.dict es) key) < weight (.dict es) := by
  unfold part
  cases held : (dict es).field? key with
  | none =>
    have positive := cost_pos (.dict es)
    rw [weight_dict, Option.getD_none, show weight .null = 0 from rfl]
    omega
  | some v => exact weight_field (mem_of_get? held) other

theorem thoroughly_dict :
    Thoroughly P (.dict es) ↔ P (.dict es) ∧ ∀ key v, (key, v) ∈ es → key ≠ "comments" → Thoroughly P v := by
  have fields : (∀ w ∈ fieldTables false es, P w) ↔ ∀ key v, (key, v) ∈ es → key ≠ "comments" → Thoroughly P v := by
    induction es with
    | nil => simp [fieldTables]
    | cons e rest ih =>
      obtain ⟨key, v⟩ := e
      rw [fieldTables, forall_mem_append, ih]
      constructor
      · rintro ⟨head, tail⟩ key' v' member other
        rcases mem_cons.mp member with same | later
        · cases same
          rwa [if_neg (by simpa using other)] at head
        · exact tail key' v' later other
      · intro all
        refine ⟨?_, fun key' v' member => all key' v' (mem_cons_of_mem _ member)⟩
        split
        · simp
        · rename_i other
          exact all key v mem_cons_self (by simpa using other)
  rw [Thoroughly, tables, forall_mem_cons, fields]

theorem thoroughly_list : Thoroughly P (.list items) ↔ ∀ v ∈ items, Thoroughly P v := by
  rw [Thoroughly, tables]
  induction items with
  | nil => simp [itemTables]
  | cons v rest ih => rw [itemTables, forall_mem_append, ih, forall_mem_cons, Thoroughly]

theorem thoroughly_leaf (leaf : ∀ es, v ≠ .dict es) (single : ∀ items, v ≠ .list items) : Thoroughly P v := by
  cases v with
  | dict es => exact (leaf es rfl).elim
  | list items => exact (single items rfl).elim
  | _ => simp [Thoroughly, tables]

theorem thoroughly_part (thorough : Thoroughly P (.dict es)) (other : key ≠ "comments") :
    Thoroughly P (part (.dict es) key) := by
  unfold part
  cases held : (dict es).field? key with
  | none => exact thoroughly_leaf (by rintro _ ⟨⟩) (by rintro _ ⟨⟩)
  | some v => exact (thoroughly_dict.mp thorough).2 key v (mem_of_get? held) other

theorem fieldTables_erase (es : Entries) : fieldTables false (erase "comments" es) = fieldTables false es := by
  induction es with
  | nil => rfl
  | cons e rest ih =>
    obtain ⟨key, v⟩ := e
    by_cases comments : key = "comments"
    · subst comments
      have gone : erase "comments" (("comments", v) :: rest) = erase "comments" rest := by
        simp [erase]
      rw [gone, ih]
      rfl
    · have kept : erase "comments" ((key, v) :: rest) = (key, v) :: erase "comments" rest := by
        simp [erase, comments]
      rw [kept, fieldTables, ih, fieldTables]

theorem weight_of_bare (same : bare v = bare w) : weight v = weight w := by
  cases w with
  | dict es =>
    obtain ⟨es', rfl, alike⟩ := bare_eq_dict same
    have heads : cost (.dict es') = cost (.dict es) := by rw [cost, cost, hasKind_of_bare same]
    rw [weight, weight, tables, tables, ← fieldTables_erase es', alike, fieldTables_erase, map_cons, map_cons, heads]
  | _ => cases v <;> simp_all [bare, unset]

theorem thoroughly_of_bare (same : bare v = bare w) (blind : ∀ v w, bare v = bare w → P v → P w)
    (thorough : Thoroughly P v) : Thoroughly P w := by
  cases v with
  | dict es =>
    obtain ⟨es', rfl, alike⟩ := bare_eq_dict same.symm
    rw [Thoroughly, tables, forall_mem_cons, ← fieldTables_erase] at thorough ⊢
    rw [alike]
    exact ⟨blind _ _ same thorough.1, thorough.2⟩
  | _ => cases w <;> simp_all [bare, unset]

theorem weights_of_bare {xs ys : List Value} (alike : xs.map bare = ys.map bare) : xs.map weight = ys.map weight :=
  map_of_bare (fun _ _ => weight_of_bare) alike

theorem thoroughly_map_bare {xs ys : List Value} (alike : xs.map bare = ys.map bare)
    (blind : ∀ v w, bare v = bare w → P v → P w) (all : ∀ y ∈ ys, Thoroughly P y) : ∀ x ∈ xs, Thoroughly P x := by
  intro x member
  obtain ⟨y, inside, same⟩ := mem_map.mp (alike ▸ mem_map_of_mem member)
  exact thoroughly_of_bare same blind (all y inside)

theorem fields_lighten {R : String × Value → String × Value → Prop} (related : List.Forall₂ R es es')
    (lighter : ∀ e ∈ es, ∀ e', R e e' → weightAt e' ≤ weightAt e) :
    (es'.map weightAt).sum ≤ (es.map weightAt).sum ∧
      ((es.map weightAt).sum ≤ (es'.map weightAt).sum → ∀ e ∈ es, ∃ e', R e e' ∧ weightAt e ≤ weightAt e') := by
  induction related with
  | nil => simp
  | @cons e e' rest rest' head tail ih =>
    obtain ⟨tailLighter, tailEqual⟩ := ih fun e member => lighter e (mem_cons_of_mem _ member)
    have headLighter := lighter e mem_cons_self e' head
    simp only [map_cons, sum_cons]
    refine ⟨by omega, fun equal => forall_mem_cons.mpr ⟨⟨e', head, by omega⟩, tailEqual (by omega)⟩⟩

end Tables

section Regular

variable {v w : Value} {loose : Bool} {es es' : Entries} {out : Spot → Value → List Value}

theorem regular_leaf (leaf : ∀ es, v ≠ .dict es) : Regular v := by
  cases v with
  | dict es => exact (leaf es rfl).elim
  | _ => constructor <;> simp [kind?, field?, entriesOf, dict?, isMark, hasKind]

theorem thoroughly_self (thorough : Thoroughly Regular v) : Regular v := by
  cases v with
  | dict es => exact (thoroughly_dict.mp thorough).1
  | _ => exact regular_leaf (by rintro _ ⟨⟩)

theorem Regular.of_frame (regular : Regular v) (typed : w.field? "type" = v.field? "type")
    (once : ((entriesOf w).map Prod.fst).count "body" ≤ 1)
    (present : ∀ key, key ≠ "comments" → (v.field? key).isSome → (w.field? key).isSome)
    (frame : SameFrame v w) : Regular w := by
  have kind := frame.kind
  refine ⟨by rw [typed, kind]; exact regular.typed, once, fun logical => ?_, fun logical => ?_, fun conditional => ?_,
    fun marked => ?_⟩
  · rw [kind] at logical
    rw [frame.field _ "operator" logical (by decide) (by decide) (by decide)]
    exact regular.operator logical
  · rw [kind] at logical
    obtain ⟨left, right⟩ := regular.operands logical
    exact ⟨present "left" (by decide) left, present "right" (by decide) right⟩
  · rw [kind] at conditional
    exact present "consequent" (by decide) (regular.branch conditional)
  · rw [frame.isMark] at marked
    rw [frame.truth? (isMark_kind? marked)]
    exact regular.truth marked

theorem regular_of_bare (same : bare v = bare w) (regular : Regular v) : Regular w := by
  refine regular.of_frame (field?_of_bare same (by decide)).symm (bodies_of_bare same ▸ regular.once) (fun key other present => ?_)
    ⟨(kind?_of_bare same).symm, fun _ key _ _ _ other => (field?_of_bare same other).symm⟩
  rwa [← field?_of_bare same other]

theorem Regular.leaves (regular : Regular (.dict es)) (leaves : Leaves bare out loose es es') : Regular (.dict es') := by
  have type := leaves.type regular.typed
  refine regular.of_frame type ?_ (fun key _ present => ?_) ⟨by rw [kind?, kind?, type], fun kind key known other different _ => ?_⟩
  · have once := regular.once
    simp only [entriesOf, dict?, Option.getD_some] at once ⊢
    rwa [leaves.keys]
  · rcases leaves.read key with ⟨missing, -⟩ | ⟨v, w, -, left, -⟩
    · simp [missing] at present
    · simp [left]
  · exact leaves.field? (isChild_visitedKind known other loose) different

end Regular

section Left

variable {P : Value → Prop} {out : Spot → Value → List Value} {R : Spot → Value → List Value → Prop} {loose : Bool} {es es' : Entries}
  {kind key : String} {v w x : Value} {spot : Spot} {items ys : List Value}

theorem flatMap_weight (g : Value → List Value) (items : List Value) :
    ((items.flatMap g).map weight).sum = (items.map fun x => ((g x).map weight).sum).sum := by
  induction items with
  | nil => rfl
  | cons x rest ih => rw [flatMap_cons, map_append, sum_append, ih, map_cons, sum_cons]

theorem FieldLeft.lighter (field : FieldLeft bare out kind key v w)
    (lighter : ∀ spot x, Within kind key v spot x → ((out spot x).map weight).sum ≤ weight x) :
    weight w ≤ weight v ∧ (weight v ≤ weight w → ∀ spot x, Within kind key v spot x → weight x ≤ ((out spot x).map weight).sum) := by
  cases field with
  | only child node =>
    have slot : weight ((out .only v).head?.getD .null) ≤ ((out .only v).map weight).sum := by
      cases out .only v with
      | nil => exact Nat.zero_le _
      | cons x rest => simp
    have own := lighter _ _ (.only child node)
    refine ⟨by omega, fun equal spot x within => ?_⟩
    cases within with
    | only => omega
    | row => cases node
  | @row items left child kept =>
    have each (x : Value) (inside : x ∈ items) := lighter _ x (.row child inside)
    rw [weight_list, weight_list, weights_of_bare kept, flatMap_weight]
    refine ⟨sum_le_sum each, fun equal spot x within => ?_⟩
    cases within with
    | only _ node => cases node
    | row _ inside =>
      by_contra lighter
      have less := sum_lt_sum _ _ each ⟨x, inside, Nat.lt_of_not_le lighter⟩
      omega
  | same untouched =>
    refine ⟨Nat.le_refl _, fun _ spot x within => ?_⟩
    cases within with
    | only child node => simp [child, node] at untouched
    | row child => simp [child] at untouched
  | aside _ other kept =>
    rw [weight_list, weight_list, weights_of_bare kept]
    refine ⟨Nat.le_refl _, fun _ spot x within => ?_⟩
    cases within with
    | only child => simp [child] at other
    | row child => simp [child] at other

theorem Leaves.cost_le (leaves : Leaves bare out loose es es') : cost (.dict es') ≤ cost (.dict es) := by
  unfold cost
  cases literal : hasKind (.dict es) "Literal" with
  | false => split <;> simp
  | true =>
    rw [hasKind, leaves.kind?_of (known_of literal)]
    rfl

theorem Leaves.lighter (leaves : Leaves bare out loose es es')
    (lighter : ∀ spot x, Child loose es spot x → ((out spot x).map weight).sum ≤ weight x) :
    weight (.dict es') ≤ weight (.dict es) ∧
      (weight (.dict es) ≤ weight (.dict es') → ∀ spot x, Child loose es spot x → weight x ≤ ((out spot x).map weight).sum) := by
  have field {key : String} {v w : Value} (held : (key, v) ∈ es) (other : key ≠ "comments")
      (field : FieldLeft bare out (visitedKind loose es) key v w) :=
    field.lighter fun spot x within => lighter spot x ⟨key, v, held, other, within⟩
  obtain ⟨total, equal⟩ := fields_lighten leaves fun e held e' related => by
    obtain ⟨key, v⟩ := e
    obtain ⟨rfl, related⟩ := related
    unfold weightAt
    split
    · exact Nat.le_refl _
    · rename_i other
      exact (field held (by simpa using other) related).1
  have head := leaves.cost_le
  rw [weight_dict, weight_dict]
  refine ⟨by omega, ?_⟩
  rintro still spot x ⟨key, v, held, other, within⟩
  obtain ⟨⟨_, w⟩, ⟨rfl, related⟩, weighs⟩ := equal (by omega) (key, v) held
  rw [weightAt, weightAt, if_neg (by simpa using other), if_neg (by simpa using other)] at weighs
  exact (field held other related).2 weighs spot x within

theorem Remains.lighter (remains : Remains R spot v ys) (light : ∀ spot v ys, R spot v ys → (ys.map weight).sum ≤ weight v) :
    (ys.map weight).sum ≤ weight v := by
  induction remains with
  | acts does => exact light _ _ _ does
  | node _ _ leaves same does ih =>
    have below := (leaves.lighter ih).1
    have own := light _ _ _ does
    rw [weight_of_bare same] at own
    omega

theorem Child.thoroughly (child : Child loose es spot x) (thorough : Thoroughly P (.dict es)) : Thoroughly P x := by
  obtain ⟨key, v, held, other, within⟩ := child
  have below := (thoroughly_dict.mp thorough).2 key v held other
  cases within with
  | only => exact below
  | row _ inside => exact thoroughly_list.mp below x inside

theorem FieldLeft.thoroughly (field : FieldLeft bare out kind key v w) (blind : ∀ v w, bare v = bare w → P v → P w)
    (thorough : Thoroughly P v) (left : ∀ spot x, Within kind key v spot x → ∀ y ∈ out spot x, Thoroughly P y) : Thoroughly P w := by
  cases field with
  | only child node =>
    have each := left _ _ (.only child node)
    cases rest : out .only v with
    | nil => exact thoroughly_leaf (by rintro _ ⟨⟩) (by rintro _ ⟨⟩)
    | cons x others => exact each x (by simp [rest])
  | row child kept =>
    refine thoroughly_list.mpr (thoroughly_map_bare kept blind fun y inside => ?_)
    obtain ⟨x, member, inside⟩ := mem_flatMap.mp inside
    exact left _ x (.row child member) y inside
  | same => exact thorough
  | aside _ _ kept => exact thoroughly_list.mpr (thoroughly_map_bare kept blind (thoroughly_list.mp thorough))

theorem Leaves.thoroughly (leaves : Leaves bare out loose es es') (blind : ∀ v w, bare v = bare w → P v → P w) (own : P (.dict es'))
    (thorough : Thoroughly P (.dict es)) (left : ∀ spot x, Child loose es spot x → ∀ y ∈ out spot x, Thoroughly P y) :
    Thoroughly P (.dict es') := by
  refine thoroughly_dict.mpr ⟨own, fun key w held other => ?_⟩
  obtain ⟨⟨_, v⟩, member, rfl, field⟩ := forall₂_mem_right leaves held
  exact field.thoroughly blind ((thoroughly_dict.mp thorough).2 _ v member other)
    fun spot x within => left spot x ⟨_, v, member, other, within⟩

theorem statements_lighter (stated : statementsOf v = .ok items) :
    (items.map weight).sum < weight v ∧ (Thoroughly P v → ∀ x ∈ items, Thoroughly P x) := by
  unfold statementsOf at stated
  cases v with
  | dict es =>
    split at stated
    · rename_i read
      cases stated
      have held := mem_of_get? read
      refine ⟨?_, fun thorough => ?_⟩
      · rw [← weight_list]
        exact weight_field held (by decide)
      · exact thoroughly_list.mp ((thoroughly_dict.mp thorough).2 _ _ held (by decide))
    · rename_i text read
      cases stated
      have letter (x : Value) (member : x ∈ characters text) : ∃ c, x = .str c := by
        obtain ⟨c, -, rfl⟩ := mem_map.mp member
        exact ⟨_, rfl⟩
      refine ⟨?_, fun _ x member => ?_⟩
      · have positive := cost_pos (.dict es)
        have nothing : ((characters text).map weight).sum ≤ ((characters text).map fun _ => 0).sum := by
          refine sum_le_sum fun x member => ?_
          obtain ⟨c, rfl⟩ := letter x member
          exact Nat.le_refl _
        have zero : ((characters text).map fun _ => 0).sum = 0 := by simp
        rw [weight_dict]
        omega
      · obtain ⟨c, rfl⟩ := letter x member
        exact thoroughly_leaf (by rintro _ ⟨⟩) (by rintro _ ⟨⟩)
    · cases stated
  | _ => cases stated

theorem weight_replaceable (known : kind? (.dict es) = some kind) (listed : kind ∈ replaceable) (b : Bool) :
    weight (literal b) < weight (.dict es) := by
  have other : hasKind (.dict es) "Literal" = false := by
    rw [hasKind, known]
    revert listed
    simp only [replaceable, mem_cons, not_mem_nil, or_false]
    rintro (rfl | rfl | rfl | rfl) <;> decide
  have heavy : cost (.dict es) = 2 := by rw [cost, other]; rfl
  have light : weight (literal b) = 1 := by cases b <;> rfl
  rw [weight_dict]
  omega

theorem weight_branch (listed : key ∈ fieldsIn branches (.dict es)) (taken : bare w = bare (part (.dict es) key)) :
    weight w < weight (.dict es) := by
  rw [weight_of_bare taken]
  exact weight_part (branches_child listed).2

theorem Remnant.lighter (remnant : Remnant spot v ys) : (ys.map weight).sum ≤ weight v := by
  cases remnant with
  | stays => simp
  | gone => exact Nat.zero_le _
  | literal known listed b => simpa using Nat.le_of_lt (weight_replaceable known listed b)
  | branch listed taken => simpa using Nat.le_of_lt (weight_branch listed taken)
  | spilled _ stated alike =>
    rw [weights_of_bare alike]
    exact Nat.le_of_lt (statements_lighter (P := Regular) stated).1

theorem Remains.regular (remains : Remains Remnant spot v ys) (regular : Thoroughly Regular v) : ∀ y ∈ ys, Thoroughly Regular y := by
  have blind (v w : Value) : bare v = bare w → Regular v → Regular w := regular_of_bare
  refine remains.keeps (Q := fun _ => Thoroughly Regular) (fun _ _ _ _ _ regular child => child.thoroughly regular)
    (fun _ _ _ _ _ regular leaves left => leaves.thoroughly blind ((thoroughly_self regular).leaves leaves) regular left)
    (fun _ _ _ same => thoroughly_of_bare same blind) (fun spot v ys regular remnant => ?_) regular
  cases remnant with
  | stays => simpa using regular
  | gone => simp
  | literal _ _ b => cases b <;> decide
  | branch listed taken =>
    simpa using thoroughly_of_bare taken.symm blind (thoroughly_part regular (branches_child listed).2)
  | spilled _ stated alike => exact thoroughly_map_bare alike blind ((statements_lighter stated).2 regular)

theorem weight_erase_marker (es : Entries) : weight (.dict (erase marker es)) ≤ weight (.dict es) := by
  have fewer : (erase marker es).Sublist es := filter_sublist
  have same : cost (.dict (erase marker es)) = cost (.dict es) := by
    rw [cost, cost, hasKind, hasKind, kind?, field?, get?_erase_ne _ (by decide)]
    rfl
  have sums := (fewer.map weightAt).sum_le_sum fun _ _ => Nat.zero_le _
  rw [weight_dict, weight_dict]
  omega

end Left

section Walk

variable {p : Pass} {loose : Bool} {v : Value} {es : Entries} {spot : Spot}

theorem Edit.lighter {up : Bool} {r : Reply} (edit : Edit (.dict es) up r) (regular : Thoroughly Regular (.dict es)) :
    r = .keep (.dict es) ∨ r.action ≠ .keep ∧ (r.left.map weight).sum < weight (.dict es) := by
  cases edit with
  | keep => exact Or.inl rfl
  | stir irregular =>
    have parts (key : String) (listed : key ∈ fieldsIn branches (.dict es)) : Regular (part (.dict es) key) :=
      thoroughly_self (thoroughly_part regular (branches_child listed).2)
    exact (irregular ⟨thoroughly_self regular, parts⟩).elim
  | literal known listed b =>
    exact Or.inr ⟨by rintro ⟨⟩, by simpa using weight_replaceable known listed b⟩
  | branch branch =>
    exact Or.inr ⟨by rintro ⟨⟩, by simpa using weight_branch branch.listed branch.taken⟩
  | drop =>
    refine Or.inr ⟨by rintro ⟨⟩, ?_⟩
    have positive := cost_pos (.dict es)
    show 0 < weight (.dict es)
    rw [weight_dict]
    omega

theorem frames_regular : Frames fun _ => Thoroughly Regular := fun _ _ regular =>
  ⟨(thoroughly_self regular).once, fun _ _ child => child.thoroughly regular⟩

theorem Edits.walk_silent {P : Value → Prop} (edits : Edits p) (regular : Thoroughly Regular v) (flat : Flat P loose v)
    (finished : (walkNode p loose v).fault = none) (still : weight v ≤ ((walkNode p loose v).value.left?.toList.map weight).sum) :
    Everywhere (Silent p) loose v := by
  induction flat with
  | leaf leaf => exact everywhere_leaf leaf
  | @node loose es known here below apart ih =>
    have once : (es.map Prod.fst).count "body" ≤ 1 := (thoroughly_self regular).once
    obtain ⟨fault, ⟨acts, value⟩ | ⟨action, -, es', after, left, value⟩⟩ :=
      walkNode_cases (Or.inr ⟨coarse_bare, Or.inr once⟩) finished
    · rcases (edits.enter fault).lighter regular with kept | ⟨-, lighter⟩
      · exact (acts (by rw [kept]; rfl)).elim
      · rw [value] at still
        exact (Nat.not_lt.mpr still lighter).elim
    · have enter := (edits.enter fault).lighter regular |>.resolve_right fun acts => acts.1 action
      obtain ⟨-, equal⟩ := after.leaves.lighter fun spot x child =>
        (edits.remains frames_regular (child.thoroughly regular) (after.inner child)).lighter
          fun _ _ _ => Remnant.lighter
      have kept : weight (.dict es) ≤ weight (.dict es') := by
        rw [value] at still
        exact Nat.le_trans still ((edits.leave left).remnant .only).lighter
      have children (l : Bool) (v : Value) (reached : Below loose es l v) : Everywhere (Silent p) l v := by
        obtain ⟨spot, rfl, child⟩ := reached.child known
        have weighs := equal kept spot v child
        rw [walkAt_visited reached.visited] at weighs
        exact ih _ v reached (child.thoroughly regular) (after.below reached) weighs
      -- with the children left alone, the visit on the way up sees the node as it was
      rw [walkNode_untouched (by simp [edits.lenient]) enter fun l v inside => walkNode_silent edits.lenient (children l v inside)]
        at finished still
      obtain ⟨clean, value⟩ := reply_walked finished
      have leave : p.leave (.dict es) = .keep (.dict es) := by
        refine (edits.leave clean).lighter regular |>.resolve_right ?_
        rw [value] at still
        exact fun lighter => Nat.not_lt.mpr still lighter.2
      exact everywhere_below.mpr ⟨⟨enter, leave⟩, children⟩

end Walk

section Flatten

variable {f : Flattening} {loose keepComments : Bool} {v : Value} {es : Entries}

theorem flattenNode_lighter (visited : isVisited loose v) (finished : (flattenNode keepComments loose v).fault = none) :
    weight (flattenNode keepComments loose v).value ≤ weight v := by
  have remains : Remains Remnant (.row loose) v [(flattenNode keepComments loose v).value] := flattenNode_remains visited finished .stays
  simpa using remains.lighter fun _ _ _ => Remnant.lighter

theorem flattenNode_still (finished : (flattenNode keepComments loose v).fault = none)
    (still : weight v ≤ weight (flattenNode keepComments loose v).value) : Flat (fun _ => True) loose v := by
  induction loose, v using below_induction with
  | leaf loose v leaf => exact .leaf leaf
  | node loose es ih =>
    obtain ⟨fields, f, rfl, flat⟩ := flattenNode_finished finished
    have known : (childFields (visitedKind loose es)).isSome := by rw [flat.known]; rfl
    obtain ⟨-, equal⟩ := flat.leaves.lighter fun spot x child =>
      (flat.remains child).lighter fun _ _ _ => Remnant.lighter
    have kept : weight (.dict es) ≤ weight (.dict (flatFields f loose fields es)) := weight_of_bare flat.alike ▸ still
    have each (l : Bool) (x : Value) (reached : Below loose es l x) : (flattenNode f.keepComments l x).fault = none ∧
        weight x ≤ weight (flattenNode f.keepComments l x).value ∧ (f.scope → hasKind x "BlockStatement" = false) := by
      obtain ⟨spot, rfl, child⟩ := reached.child known
      have weighs := equal kept spot x child
      have fine := flat.fine child
      cases spot with
      | only =>
        obtain ⟨key, v, held, -, within⟩ := child
        cases within with
        | only child node =>
          exact ⟨fine, by simpa [flattenAt, Outcome.map] using weighs,
            fun inScope => flattenNode_apart finished (flat.scope ▸ inScope) held child node⟩
      | row l =>
        rcases flatItem_cases fine with ⟨hidden, -⟩ | ⟨-, clean, ⟨apart, same⟩ | ⟨-, -, statements, stated, alike⟩⟩
        · exact absurd reached.visited (by simp [hidden])
        · refine ⟨clean, by simpa [flattenAt, Outcome.map, same] using weighs, fun inScope => ?_⟩
          rw [hasKind, ← flattenNode_kind? clean]
          exact apart inScope
        · -- a block that gives way takes its own weight with it
          have less := (statements_lighter (P := Regular) stated).1
          have lighter : weight (flattenNode f.keepComments l x).value ≤ weight x := flattenNode_lighter reached.visited clean
          rw [show (flattenAt f (.row l) x).value.map weight = _ from weights_of_bare alike] at weighs
          exact absurd weighs (by omega)
    refine .node known trivial (fun l v reached => ?_) fun scope l v reached => (each l v reached).2.2 (flat.scope ▸ scope)
    obtain ⟨fine, weighs, -⟩ := each l v reached
    exact ih l v reached fine weighs

end Flatten

end Rulewright.Flag
