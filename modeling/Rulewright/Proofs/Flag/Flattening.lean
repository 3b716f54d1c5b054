import Mathlib.Data.List.Basic
import Rulewright.Flag.Simplify
import Rulewright.Proofs.Flag.Nodes

/-!
The code of a node: the node without the comments at it and below it, and with every block that stands
directly in a block or a program replaced by its statements. Flattening that finishes keeps the
code of a node (`flattenNode_code`).
-/

open List

namespace Rulewright.Flag

open Value Entries

variable {kind key name : String} {fields : List String} {loose keepComments : Bool} {es es' : Entries} {v tree w block : Value} {f : Flattening} {items : List Value}

theorem childFields_contains (known : childFields kind = some fields) (unused : kinds.all (fun e => !e.2.contains key))
    (named : key ≠ "undefined") : fields.contains key = false := by
  unfold childFields at known
  split at known
  · rename_i listed
    cases known
    simpa using all_eq_true.mp unused _ (mem_of_lookup listed)
  · split at known
    · cases known
      simpa using named
    · split at known
      · cases known
        rfl
      · cases known

theorem visitedKind_of_kind? (known : kind? (.dict es) = some name) (named : name ≠ "") : visitedKind loose es = name := by
  simp only [kind?, Value.field?] at known
  unfold visitedKind
  cases read : get? "type" es with
  | none => simp [read] at known
  | some v =>
    cases v <;> simp [read, str?] at known
    subst known
    simp [truthy, display, named]

theorem visitedKind_of_get? (same : get? "type" es' = get? "type" es) (loose : Bool) :
    visitedKind loose es' = visitedKind loose es := by
  rw [visitedKind, visitedKind, same]

theorem nodesOf_child {n : Place} (reached : n ∈ nodesOf tree) (known : kind? n.2 = some kind)
    (child : isChild (childFields kind) key) (named : kind ≠ "") (node : isNode (part n.2 key)) : (some n.2, part n.2 key) ∈ nodesOf tree := by
  obtain ⟨loose, below⟩ := nodesOf_infix reached
  obtain ⟨parent, v⟩ := n
  obtain ⟨es, rfl⟩ := dict_of_kind? known
  have inside : Below loose es false (part (.dict es) key) :=
    .single (mem_of_isNode_part node) (by rwa [visitedKind_of_kind? known named]) node
  exact below.subset (mem_nodesIn.mpr (Or.inr ⟨rfl, _, _, inside, nodesIn_self node⟩))

def opened (v : Value) : List Value :=
  if hasKind v "BlockStatement" then (statementsOf v).toOption.getD [v] else [v]

mutual

def codeNode (loose : Bool) : Value → Value
  | .dict es => .dict (codeEntries (visitedKind loose es) ((childFields (visitedKind loose es)).getD []) es)
  | v => v

def codeEntries (kind : String) (fields : List String) : List (String × Value) → List (String × Value)
  | [] => []
  | (key, .list items) :: rest =>
    if key != "comments" then
      let code := if fields.contains key then codeItems (isScope kind) (isPropertyList kind key) items else items
      (key, .list code) :: codeEntries kind fields rest
    else codeEntries kind fields rest
  | (key, v) :: rest =>
    if key != "comments" then
      (key, if fields.contains key && isNode v then codeNode false v else v) :: codeEntries kind fields rest
    else codeEntries kind fields rest

def codeItems (scope loose : Bool) : List Value → List Value
  | [] => []
  | v :: rest =>
    let code := if isVisited loose v then codeNode loose v else bare v
    (if scope then opened code else [code]) ++ codeItems scope loose rest

end

def codeField (kind : String) (fields : List String) (key : String) : Value → Value
  | .list items =>
    .list (if fields.contains key then codeItems (isScope kind) (isPropertyList kind key) items else items)
  | v => if fields.contains key && isNode v then codeNode false v else v

def codeItem (scope loose : Bool) (v : Value) : List Value :=
  let code := if isVisited loose v then codeNode loose v else bare v
  if scope then opened code else [code]

theorem codeEntries_eq (kind : String) (fields : List String) (es : Entries) :
    codeEntries kind fields es =
      (erase "comments" es).map fun e => (e.1, codeField kind fields e.1 e.2) := by
  induction es with
  | nil => rfl
  | cons e rest ih =>
    obtain ⟨key, v⟩ := e
    have head : codeEntries kind fields ((key, v) :: rest) =
        if key != "comments" then (key, codeField kind fields key v) :: codeEntries kind fields rest
        else codeEntries kind fields rest := by
      cases v <;> rw [codeEntries, codeField] <;> rintro _ ⟨⟩
    rw [head, ih, erase, erase, filter_cons]
    split <;> rfl

theorem codeItems_eq (scope loose : Bool) (items : List Value) :
    codeItems scope loose items = items.flatMap (codeItem scope loose) := by
  induction items with
  | nil => rfl
  | cons v rest ih => rw [codeItems, ih, flatMap_cons, codeItem]

theorem codeNode_of_bare (same : bare v = bare w) (loose : Bool) : codeNode loose v = codeNode loose w := by
  cases w with
  | dict es =>
    obtain ⟨es', rfl, alike⟩ := bare_eq_dict same
    have kind : visitedKind loose es' = visitedKind loose es := by
      refine visitedKind_of_get? ?_ loose
      rw [← get?_erase_ne es' (by decide : "type" ≠ "comments"), alike, get?_erase_ne _ (by decide)]
    rw [codeNode, codeNode, kind, codeEntries_eq, codeEntries_eq, alike]
  | _ => cases v <;> simp_all [bare, unset]

theorem isVisited_of_bare (same : bare v = bare w) (loose : Bool) : isVisited loose v = isVisited loose w := by
  have tables : v.dict?.isSome = w.dict?.isSome := by
    cases v <;> cases w <;> simp_all [bare, unset, dict?]
  rw [isVisited, isVisited, isNode_of_bare same, tables]

theorem codeItem_of_bare (same : bare v = bare w) (scope loose : Bool) : codeItem scope loose v = codeItem scope loose w := by
  rw [codeItem, codeItem, isVisited_of_bare same, codeNode_of_bare same, same]

theorem flatMap_of_bare {f : Value → List Value} (blind : ∀ v w, bare v = bare w → f v = f w) {xs ys : List Value}
    (alike : xs.map bare = ys.map bare) : xs.flatMap f = ys.flatMap f := by
  rw [flatMap_def, flatMap_def, map_of_bare blind alike]

theorem spill_finished (finished : (spill f block).fault = none) :
    ∃ items, statementsOf block = .ok items ∧ (spill f block).value.parts.map bare = items.map bare := by
  unfold spill at finished ⊢
  dsimp only at finished ⊢
  split at finished
  · cases finished
  · cases finished
  · rename_i empty
    refine ⟨[], empty, ?_⟩
    generalize (if f.keepComments then listedComments (some block) else []) = comments at finished ⊢
    split at finished
    · rename_i fine
      rw [if_pos fine]
      rfl
    · cases finished
  · rename_i cs first rest _ stated
    refine ⟨first :: rest, stated, ?_⟩
    split at finished
    · cases finished
    · rename_i first' front
      split at finished
      · cases finished
      · rename_i last back
        obtain ⟨x, rfl, alike⟩ := Option.map_eq_some_iff.mp (attachBeginning_bare front)
        have ends := attachEnd_bare back
        have whole : ((first :: rest).map bare).dropLast ++ ((first :: rest).map bare).getLast?.toList =
            (first :: rest).map bare := by
          exact dropLast_concat_getLast (by simp)
        have same : (x :: rest).map bare = (first :: rest).map bare := by simp [alike]
        rw [← whole, ← same, getLast?_map, ← map_dropLast]
        simp only [Outcome.done, map_append, Option.toList_some, cons_append, nil_append] at ends ⊢
        rw [← ends]
        cases last <;> rfl

def flatField (f : Flattening) (kind : String) (fields : List String) (key : String) : Value → Value
  | .list items =>
    if fields.contains key then .list (flattenItems f (isPropertyList kind key) items).value.parts else .list items
  | v => if fields.contains key && isNode v then (flattenNode f.keepComments false v).value else v

def flatItem (f : Flattening) (loose : Bool) (v : Value) : Outcome (Flattened Value) :=
  if isVisited loose v then asElement f (flattenNode f.keepComments loose v) else .done { parts := [v] }

theorem asElement_plain (plain : f.scope = false) (o : Outcome Value) : asElement f o = o.map fun v => { parts := [v] } := by
  simp [asElement, plain]

theorem flattened_cons {α : Type} {head tail : Outcome (Flattened α)} {raw : List α}
    (finished : (Flattened.cons head raw tail).fault = none) :
    head.fault = none ∧ tail.fault = none ∧
      (Flattened.cons head raw tail).value.parts = head.value.parts ++ tail.value.parts := by
  unfold Flattened.cons at finished ⊢
  cases fault : head.fault with
  | some f => simp [fault, Outcome.stop] at finished
  | none =>
    simp only [fault] at finished ⊢
    exact ⟨trivial, finished, trivial⟩

theorem flattenItems_finished (finished : (flattenItems f loose items).fault = none) :
    (∀ v ∈ items, (flatItem f loose v).fault = none) ∧
      (flattenItems f loose items).value.parts = items.flatMap fun v => (flatItem f loose v).value.parts := by
  induction items with
  | nil => exact ⟨by rintro _ ⟨⟩, rfl⟩
  | cons v rest ih =>
    rw [flattenItems] at finished ⊢
    obtain ⟨head, tail, parts⟩ := flattened_cons finished
    obtain ⟨clean, others⟩ := ih tail
    exact ⟨forall_mem_cons.mpr ⟨head, clean⟩, by rw [parts, others]; rfl⟩

theorem flattenItems_plain (plain : f.scope = false) (finished : (flattenItems f loose items).fault = none) :
    (∀ v ∈ items, isVisited loose v → (flattenNode f.keepComments loose v).fault = none) ∧
      (flattenItems f loose items).value.parts =
        items.map fun v => if isVisited loose v then (flattenNode f.keepComments loose v).value else v := by
  obtain ⟨clean, parts⟩ := flattenItems_finished finished
  refine ⟨fun v element visited => ?_, ?_⟩
  · have fine := clean v element
    rw [flatItem, if_pos visited, asElement_plain plain] at fine
    exact fine
  · rw [parts, ← flatMap_pure_eq_map]
    refine flatMap_congr fun v _ => ?_
    rw [Function.comp_apply, flatItem, asElement_plain plain]
    split <;> rfl

def FieldFlat (f : Flattening) (kind : String) (fields : List String) (e : String × Value) : Prop :=
  fields.contains e.1 = true →
    (isNode e.2 = true → (flattenNode f.keepComments false e.2).fault = none) ∧
      ∀ items, e.2 = .list items → (flattenItems f (isPropertyList kind e.1) items).fault = none

theorem asOnly_finished {o : Outcome Value} (finished : (asOnly f key o).fault = none) :
    o.fault = none ∧ (asOnly f key o).value.parts = [(key, o.value)] ∧ (f.scope → hasKind o.value "BlockStatement" = false) := by
  unfold asOnly at finished ⊢
  split at finished
  · dsimp only at finished
    split at finished <;> cases finished
  · rename_i other
    rw [if_neg other]
    have clean : o.fault = none := finished
    exact ⟨clean, rfl, fun scope => by simpa [clean, scope] using other⟩

def flatEntry (f : Flattening) (kind : String) (fields : List String) (key : String) : Value → Outcome (Flattened (String × Value))
  | .list items =>
    if fields.contains key then
      (flattenItems f (isPropertyList kind key) items).map fun g => { parts := [(key, .list g.parts)], toParent := g.toParent }
    else .done { parts := [(key, .list items)] }
  | v =>
    if fields.contains key && isNode v then asOnly f key (flattenNode f.keepComments false v) else .done { parts := [(key, v)] }

theorem flattenEntries_cons (e : String × Value) (rest : Entries) : flattenEntries f kind fields (e :: rest) =
    Flattened.cons (flatEntry f kind fields e.1 e.2) rest (flattenEntries f kind fields rest) := by
  obtain ⟨key, v⟩ := e
  cases v <;> rw [flattenEntries, flatEntry] <;> rintro _ ⟨⟩

theorem flatEntry_finished (finished : (flatEntry f kind fields key v).fault = none) :
    FieldFlat f kind fields (key, v) ∧ (flatEntry f kind fields key v).value.parts = [(key, flatField f kind fields key v)] ∧
      (f.scope → fields.contains key → isNode v → hasKind (flattenNode f.keepComments false v).value "BlockStatement" = false) := by
  cases v with
  | list items =>
    simp only [flatEntry, flatField] at finished ⊢
    split at finished
    · rename_i child
      rw [if_pos child, if_pos child]
      exact ⟨fun _ => ⟨by rintro ⟨⟩, by rintro _ ⟨⟩; exact finished⟩, rfl, by rintro - - ⟨⟩⟩
    · rename_i other
      rw [if_neg other, if_neg other]
      exact ⟨fun child => (other child).elim, rfl, fun _ child => (other child).elim⟩
  | _ =>
    simp only [flatEntry, flatField] at finished ⊢
    split at finished
    · rename_i child
      obtain ⟨clean, parts, apart⟩ := asOnly_finished finished
      rw [if_pos child, if_pos child]
      exact ⟨fun _ => ⟨fun _ => clean, by rintro _ ⟨⟩⟩, parts, fun scope _ _ => apart scope⟩
    · rename_i other
      rw [if_neg other, if_neg other]
      have aside (child : fields.contains key) (node : isNode _) := other (Bool.and_eq_true_iff.mpr ⟨child, node⟩)
      exact ⟨fun child => ⟨fun node => (aside child node).elim, by rintro _ ⟨⟩⟩, rfl, fun _ child node => (aside child node).elim⟩

theorem flattenEntries_entries (finished : (flattenEntries f kind fields es).fault = none) :
    (∀ e ∈ es, (flatEntry f kind fields e.1 e.2).fault = none) ∧
      (flattenEntries f kind fields es).value.parts = es.map fun e => (e.1, flatField f kind fields e.1 e.2) := by
  induction es with
  | nil => exact ⟨by rintro _ ⟨⟩, rfl⟩
  | cons e rest ih =>
    rw [flattenEntries_cons] at finished ⊢
    obtain ⟨head, tail, parts⟩ := flattened_cons finished
    obtain ⟨clean, others⟩ := ih tail
    exact ⟨forall_mem_cons.mpr ⟨head, clean⟩, by rw [parts, (flatEntry_finished head).2.1, others]; rfl⟩

theorem flatField_cases (flat : FieldFlat f kind fields (key, v)) :
    flatField f kind fields key v = v ∧ (fields.contains key → isNode v = false ∧ ∀ items, v ≠ .list items) ∨
      fields.contains key ∧
        (isNode v ∧ (flattenNode f.keepComments false v).fault = none ∧
            flatField f kind fields key v = (flattenNode f.keepComments false v).value ∨
          ∃ items, v = .list items ∧ (flattenItems f (isPropertyList kind key) items).fault = none ∧
            flatField f kind fields key v = .list (flattenItems f (isPropertyList kind key) items).value.parts) := by
  unfold flatField
  split
  · split
    · rename_i child
      exact Or.inr ⟨child, Or.inr ⟨_, rfl, (flat child).2 _ rfl, rfl⟩⟩
    · rename_i other
      exact Or.inl ⟨rfl, fun child => (other child).elim⟩
  · rename_i single
    split
    · rename_i both
      obtain ⟨child, node⟩ := Bool.and_eq_true_iff.mp both
      exact Or.inr ⟨child, Or.inl ⟨node, (flat child).1 node, rfl⟩⟩
    · rename_i other
      exact Or.inl ⟨rfl, fun child => ⟨Bool.eq_false_iff.mpr fun node => other (Bool.and_eq_true_iff.mpr ⟨child, node⟩), single⟩⟩

theorem finishNode_finished {o : Outcome (Flattened (String × Value))} (finished : (finishNode o).fault = none) :
    o.fault = none ∧ ∃ gained, attachEnd gained (some (.dict o.value.parts)) = .ok (some (finishNode o).value) := by
  unfold finishNode at finished ⊢
  dsimp only at finished ⊢
  split at finished
  · rename_i v attached
    obtain ⟨w, rfl, alike⟩ := Option.map_eq_some_iff.mp (attachEnd_bare attached)
    exact ⟨finished, _, attached⟩
  · cases finished
  · cases finished

theorem get?_map_fields (h : String → Value → Value) (key : String) (es : Entries) :
    get? key (es.map fun e => (e.1, h e.1 e.2)) = (get? key es).map (h key) := by
  induction es with
  | nil => rfl
  | cons e rest ih =>
    obtain ⟨k, v⟩ := e
    by_cases hit : k = key
    · subst hit
      simp [get?]
    · simpa [get?, hit] using ih

def flatFields (f : Flattening) (loose : Bool) (fields : List String) (es : Entries) : Entries :=
  es.map fun e => (e.1, flatField f (visitedKind loose es) fields e.1 e.2)

theorem flatField_other (other : fields.contains key = false) (v : Value) : flatField f kind fields key v = v := by
  unfold flatField
  split <;> simp_all

theorem get?_flatFields (other : fields.contains key = false) : get? key (flatFields f loose fields es) = get? key es := by
  rw [flatFields, get?_map_fields]
  cases get? key es with
  | none => rfl
  | some v => rw [Option.map_some, flatField_other other]

theorem isChild_type (known : childFields kind = some fields) : fields.contains "type" = false :=
  childFields_contains known (by decide) (by decide)

theorem visitedKind_flat (known : childFields (visitedKind loose es) = some fields) :
    visitedKind loose (flatFields f loose fields es) = visitedKind loose es :=
  visitedKind_of_get? (get?_flatFields (isChild_type known)) loose

theorem comments_flatFields (known : childFields kind = some fields) :
    (dict (flatFields f loose fields es)).field? "comments" = (dict es).field? "comments" :=
  get?_flatFields (childFields_contains known (by decide) (by decide))

theorem flatField_null : flatField f kind fields key .null = .null := by
  simp [flatField, isNode, field?]

theorem part_flatFields (key : String) :
    part (.dict (flatFields f loose fields es)) key = flatField f (visitedKind loose es) fields key (part (.dict es) key) := by
  simp only [part, field?, flatFields]
  rw [get?_map_fields]
  cases get? key es with
  | none => exact flatField_null.symm
  | some v => rfl

structure NodeFlat (f : Flattening) (fields : List String) (loose : Bool) (es : Entries) (w : Value) : Prop where
  known : childFields (visitedKind loose es) = some fields
  scope : f.scope = isScope (visitedKind loose es)
  entries : ∀ e ∈ es, (flatEntry f (visitedKind loose es) fields e.1 e.2).fault = none
  attached : ∃ gained, attachEnd gained (some (.dict (flatFields f loose fields es))) = .ok (some w)

theorem flattenNode_finished (finished : (flattenNode keepComments loose (.dict es)).fault = none) :
    ∃ fields f, f.keepComments = keepComments ∧ NodeFlat f fields loose es (flattenNode keepComments loose (.dict es)).value := by
  rw [flattenNode] at finished ⊢
  split at finished
  · cases finished
  · rename_i fields known
    obtain ⟨walked, gained, attached⟩ := finishNode_finished finished
    obtain ⟨clean, parts⟩ := flattenEntries_entries walked
    exact ⟨fields, _, rfl, known, rfl, clean, gained, by rw [flatFields, ← parts]; exact attached⟩

section

variable (flat : NodeFlat f fields loose es w)
include flat

theorem NodeFlat.clean (e : String × Value) (member : e ∈ es) : FieldFlat f (visitedKind loose es) fields e :=
  (flatEntry_finished (flat.entries e member)).1

theorem NodeFlat.alike : bare w = bare (.dict (flatFields f loose fields es)) := by
  obtain ⟨gained, attached⟩ := flat.attached
  simpa using attachEnd_bare attached

theorem NodeFlat.reads (different : key ≠ "comments") :
    w.field? key = ((dict es).field? key).map (flatField f (visitedKind loose es) fields key) :=
  (field?_of_bare flat.alike different).trans (get?_map_fields _ key es)

theorem NodeFlat.field? (other : fields.contains key = false) (different : key ≠ "comments") : w.field? key = (dict es).field? key :=
  (field?_of_bare flat.alike different).trans (get?_flatFields other)

theorem NodeFlat.field (key : String) : FieldFlat f (visitedKind loose es) fields (key, part (.dict es) key) := by
  simp only [part, Value.field?]
  cases read : get? key es with
  | none => exact fun _ => ⟨by rintro ⟨⟩, by rintro _ ⟨⟩⟩
  | some v => exact flat.clean _ (mem_of_get? read)

theorem NodeFlat.part_eq (different : key ≠ "comments") :
    part w key = flatField f (visitedKind loose es) fields key (part (.dict es) key) :=
  (part_of_bare flat.alike different).trans (part_flatFields key)

theorem NodeFlat.comments :
    w.field? "comments" = (dict es).field? "comments" ∨
      (∃ items, w.field? "comments" = some (.list items)) ∧ ∀ v, (dict es).field? "comments" = some v → v.dict? = none := by
  obtain ⟨gained, attached⟩ := flat.attached
  have read : (dict (flatFields f loose fields es)).field? "comments" = _ := comments_flatFields flat.known
  unfold attachEnd at attached
  split at attached
  · simp only [Except.ok.injEq, Option.some.injEq] at attached
    exact Or.inl (by rw [← attached, read])
  · obtain ⟨old, opened, attached⟩ := bind_cases attached
    simp only [pure, Except.pure, Except.ok.injEq, Option.some.injEq] at attached
    refine Or.inr ⟨⟨_, by rw [← attached, Value.set, Value.field?, Entries.get?_put_self]⟩, fun v held => ?_⟩
    rw [openComments] at opened
    cases v <;> first | rfl | (simp [commentsOf, read, held] at opened)

end

theorem flattenNode_field? (finished : (flattenNode keepComments loose (.dict es)).fault = none)
    (other : isChild (childFields (visitedKind loose es)) key = false) (different : key ≠ "comments") :
    (flattenNode keepComments loose (.dict es)).value.field? key = (dict es).field? key := by
  obtain ⟨fields, f, -, flat⟩ := flattenNode_finished finished
  rw [flat.known] at other
  exact flat.field? other different

theorem flattenNode_type (finished : (flattenNode keepComments loose v).fault = none) :
    (flattenNode keepComments loose v).value.field? "type" = v.field? "type" := by
  cases v with
  | dict es =>
    obtain ⟨fields, f, -, flat⟩ := flattenNode_finished finished
    exact flat.field? (isChild_type flat.known) (by decide)
  | _ => rfl

theorem flattenNode_kind? (finished : (flattenNode keepComments loose v).fault = none) :
    kind? (flattenNode keepComments loose v).value = kind? v := by
  rw [kind?, kind?, flattenNode_type finished]

theorem flattenNode_dict (finished : (flattenNode keepComments loose (.dict es)).fault = none) :
    ∃ es', (flattenNode keepComments loose (.dict es)).value = .dict es' := by
  obtain ⟨fields, f, -, flat⟩ := flattenNode_finished finished
  obtain ⟨es', whole, -⟩ := bare_eq_dict flat.alike
  exact ⟨es', whole⟩

theorem flattenNode_isVisited (finished : (flattenNode keepComments loose v).fault = none) :
    isVisited loose (flattenNode keepComments loose v).value = isVisited loose v := by
  rw [isVisited, isNode, flattenNode_type finished]
  cases v with
  | dict es =>
    obtain ⟨es', whole⟩ := flattenNode_dict finished
    rw [whole]
    rfl
  | _ => rfl

theorem codeNode_field? (loose : Bool) (es : Entries) (different : key ≠ "comments") :
    (codeNode loose (.dict es)).field? key =
      ((dict es).field? key).map
        (codeField (visitedKind loose es) ((childFields (visitedKind loose es)).getD []) key) := by
  simp only [codeNode, Value.field?]
  rw [codeEntries_eq, get?_map_fields, get?_erase_ne _ different]

theorem opened_code (block : hasKind v "BlockStatement") (stated : statementsOf v = .ok items) : opened (codeNode false v) = items.flatMap (codeItem true false) := by
  cases v with
  | dict es =>
    have kind : kind? (.dict es) = some "BlockStatement" := by simpa [hasKind] using block
    have visited : visitedKind false es = "BlockStatement" := visitedKind_of_kind? kind (by decide)
    have fields : (childFields (visitedKind false es)).getD [] = ["body"] := by rw [visited]; decide
    have still : hasKind (codeNode false (.dict es)) "BlockStatement" := by
      rw [hasKind, kind?, codeNode_field? _ _ (by decide)]
      simp only [kind?] at kind
      cases read : (dict es).field? "type" with
      | none => simp [read] at kind
      | some v => cases v <;> simp_all [codeField, str?]
    have inside : statementsOf (codeNode false (.dict es)) = .ok (items.flatMap (codeItem true false)) := by
      simp only [statementsOf] at stated ⊢
      rw [codeNode_field? _ _ (by decide), visited]
      split at stated
      · rename_i read
        cases stated
        rw [read, ← codeItems_eq]
        rfl
      · rename_i text read
        cases stated
        have letters (c : Value) (member : c ∈ characters text) : codeItem true false c = [c] := by
          obtain ⟨x, -, rfl⟩ := mem_map.mp member
          rfl
        rw [read, flatMap_congr letters, flatMap_singleton']
        rfl
      · cases stated
    simp [opened, still, inside, Except.toOption]
  | _ => simp [hasKind, kind?, Value.field?] at block

theorem flatItem_cases (finished : (flatItem f loose v).fault = none) :
    isVisited loose v = false ∧ (flatItem f loose v).value.parts = [v] ∨
      isVisited loose v ∧ (flattenNode f.keepComments loose v).fault = none ∧
        ((f.scope → hasKind (flattenNode f.keepComments loose v).value "BlockStatement" = false) ∧
            (flatItem f loose v).value.parts = [(flattenNode f.keepComments loose v).value] ∨
          f.scope ∧ hasKind (flattenNode f.keepComments loose v).value "BlockStatement" ∧
            ∃ items, statementsOf (flattenNode f.keepComments loose v).value = .ok items ∧
              (flatItem f loose v).value.parts.map bare = items.map bare) := by
  unfold flatItem at finished ⊢
  cases visited : isVisited loose v with
  | false => exact Or.inl ⟨rfl, rfl⟩
  | true =>
    simp only [visited, if_true, asElement] at finished ⊢
    refine Or.inr ⟨trivial, ?_⟩
    split at finished
    · rename_i block
      rw [if_pos block]
      simp only [Bool.and_eq_true, Option.isNone_iff_eq_none] at block
      exact ⟨block.1.1, Or.inr ⟨block.1.2, block.2, spill_finished finished⟩⟩
    · rename_i whole
      rw [if_neg whole]
      have clean : (flattenNode f.keepComments loose v).fault = none := finished
      exact ⟨clean, Or.inl ⟨fun scope => by simpa [clean, scope] using whole, rfl⟩⟩

theorem flatItem_code (plain : f.scope → loose = false) (inside : (flattenNode f.keepComments loose v).fault = none →
      codeNode loose (flattenNode f.keepComments loose v).value = codeNode loose v)
    (finished : (flatItem f loose v).fault = none) :
    (flatItem f loose v).value.parts.flatMap (codeItem f.scope loose) = codeItem f.scope loose v := by
  rcases flatItem_cases finished with ⟨-, same⟩ | ⟨visited, clean, ⟨-, same⟩ | ⟨scope, block, items, stated, alike⟩⟩
  · simp [same]
  · have still : isVisited loose (flattenNode f.keepComments loose v).value := by
      rw [flattenNode_isVisited clean, visited]
    simp [same, codeItem, still, visited, inside clean]
  · obtain rfl := plain scope
    rw [flatMap_of_bare (fun _ _ same => codeItem_of_bare same _ _) alike, scope]
    simp only [codeItem, visited, if_true]
    rw [← inside clean, opened_code block stated]
    rfl

theorem isPropertyList_scope (scope : isScope kind) : isPropertyList kind key = false := by
  simp only [isScope, Bool.or_eq_true, beq_iff_eq] at scope
  rcases scope with rfl | rfl <;> simp [isPropertyList]

theorem flattenNode_code (finished : (flattenNode keepComments loose v).fault = none) :
    codeNode loose (flattenNode keepComments loose v).value = codeNode loose v := by
  induction v using node_induction generalizing loose with
  | leaf v leaf => cases v <;> first | rfl | exact (leaf _ rfl).elim
  | node es single listed =>
    obtain ⟨fields, f, rfl, flat⟩ := flattenNode_finished finished
    have field (key : String) (v : Value) (member : (key, v) ∈ es) :
        codeField (visitedKind loose es) fields key (flatField f (visitedKind loose es) fields key v) =
          codeField (visitedKind loose es) fields key v := by
      rcases flatField_cases (flat.clean _ member) with ⟨same, -⟩ | ⟨child, ⟨node, fine, same⟩ | ⟨items, rfl, fine, same⟩⟩
      · rw [same]
      · obtain ⟨es', rfl⟩ := isNode_dict node
        obtain ⟨es'', whole⟩ := flattenNode_dict fine
        have still : isNode (.dict es'') := by
          rw [← whole, isNode, flattenNode_type fine]
          exact node
        have code := single key _ member fine
        rw [same]
        rw [whole] at code ⊢
        simp only [codeField, child, node, still, code, Bool.and_self, if_true]
      · obtain ⟨elements, parts⟩ := flattenItems_finished fine
        rw [same]
        simp only [codeField, child, if_true, parts, codeItems_eq, flatMap_assoc]
        rw [← flat.scope]
        congr 1
        refine flatMap_congr fun v element => flatItem_code ?_ (listed key items member v element) (elements v element)
        exact fun inScope => isPropertyList_scope (flat.scope ▸ inScope)
    rw [codeNode_of_bare flat.alike, codeNode, codeNode, visitedKind_flat flat.known, flat.known, Option.getD_some, codeEntries_eq, codeEntries_eq]
    simp only [flatFields, erase, filter_map, map_map, Function.comp_def]
    congr 1
    refine map_congr_left fun e member => ?_
    rw [field e.1 e.2 (mem_of_mem_filter member)]

end Rulewright.Flag
