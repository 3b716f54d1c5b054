import Rulewright.Flag.Comment

/-!
Walking a tree. A `Pass` looks at every node on the way down (`enter`) and on the way up (`leave`),
and may put another value in its place or take it out. An analysis folds a visit over the nodes on
the way down. Both visit the children of a node in the order of its fields.
-/

namespace Rulewright.Flag

inductive Action where
  | keep
  | put (v : Value)
  | drop (carry : Carry)
  deriving Repr

structure Reply where
  node : Value
  action : Action := .keep
  changed : Bool := false
  fault : Option Fault := none

namespace Reply

def keep (node : Value) : Reply := { node }

def stop (node : Value) (fault : Fault) : Reply := { node, fault := some fault }

def put (node v : Value) : Reply := { node, action := .put v, changed := true }

def drop (node : Value) (carry : Carry) : Reply := { node, action := .drop carry }

def ofExcept (node : Value) : Except Fault Reply → Reply
  | .ok reply => reply
  | .error fault => stop node fault

end Reply

structure Pass where
  strict : Bool := false
  enter : Value → Reply := Reply.keep
  leave : Value → Reply := Reply.keep

inductive Fate where
  | stays
  | becomes (v : Value)
  | goes (carry : Carry)
  deriving Repr

def Fate.ofAction : Action → Fate
  | .keep => .stays
  | .put v => .becomes v
  | .drop carry => .goes carry

structure Walked where
  node : Value
  fate : Fate

def Walked.value (w : Walked) : Value :=
  match w.fate with
  | .becomes v => v
  | _ => w.node

def Reply.walked (r : Reply) : Outcome Walked :=
  { value := { node := r.node, fate := if r.fault.isSome then .stays else .ofAction r.action }
    changed := r.changed
    fault := r.fault }

def Walked.untouched (node : Value) : Walked := { node, fate := .stays }

def asField (home : Home) (o : Outcome Walked) : Outcome (Value × Home) :=
  match o.fault, o.value.fate with
  | none, .goes carry =>
    let moved := home.takeOver carry o.value.node
    match moved.fault with
    | some fault => { value := moved.value, changed := o.changed, fault := some fault }
    | none => { value := (.null, moved.value.2), changed := true }
  | fault, _ => { value := (o.value.value, home), changed := o.changed, fault }

def moveOut (isOwn : Bool) (carry : Carry) (body : List Value) (i : Nat) (home : Home) :
    Outcome (List Value × Home) :=
  if isOwn then (carry.move body i).map fun body => (body, home)
  else
    match body[i]? with
    | some node => (home.takeOver carry node).map fun (node, home) => (body.set i node, home)
    | none => .done (body, home)

/-- Settles the walked elements of a list front to back: what a visit puts in place of an element takes
its place, and an element that goes is taken out after its comments were moved. Where that fails, the
elements behind it are as they were. -/
def settle (isOwn : Bool) (raw : List Value) :
    List (Outcome Walked) → Nat → List Value → Home → Outcome (List Value × Home)
  | [], _, body, home => .done (body, home)
  | o :: os, i, body, home =>
    match o.fault, o.value.fate with
    | some fault, _ => { value := (body, home), changed := o.changed, fault := some fault }
    | none, .stays =>
      let rest := settle isOwn raw os (i + 1) body home
      { rest with changed := o.changed || rest.changed }
    | none, .becomes v =>
      let rest := settle isOwn raw os (i + 1) (body.set i v) home
      { rest with changed := o.changed || rest.changed }
    | none, .goes carry =>
      let moved := moveOut isOwn carry body i home
      match moved.fault with
      | some fault =>
        { value := (moved.value.1.take (i + 1) ++ raw.drop (raw.length - os.length), moved.value.2)
          changed := o.changed
          fault := some fault }
      | none => { settle isOwn raw os i (moved.value.1.eraseIdx i) moved.value.2 with changed := true }

/-- A field that holds a list, from its elements and what became of them. The statement list shows what
its first statement has gained by now. -/
def asListField (home : Home) (isOwn : Bool) (raw : List Value) (os : List (Outcome Walked)) :
    Outcome (Value × Home) :=
  let nodes := os.map fun o => o.value.node
  if isOwn then
    (settle true raw os 0 (Home.enrich home.gained nodes) home).map fun (items, _) =>
      (.list items, { statements := some items })
  else (settle false raw os 0 nodes home).map fun (items, home) => (.list items, home)

def fieldThen (key : String) (head : Outcome (Value × Home)) (raw : Entries)
    (tail : Home → Outcome (Entries × Home)) : Outcome (Entries × Home) :=
  match head.fault with
  | some fault =>
    { value := ((key, head.value.1) :: raw, head.value.2), changed := head.changed, fault := some fault }
  | none =>
    let rest := tail head.value.2
    { value := ((key, head.value.1) :: rest.value.1, rest.value.2)
      changed := head.changed || rest.changed
      fault := rest.fault }

def leaveNode (p : Pass) (o : Outcome Entries) : Outcome Walked :=
  match o.fault with
  | some fault => { value := .untouched (.dict o.value), changed := o.changed, fault := some fault }
  | none =>
    let r := (p.leave (.dict o.value)).walked
    { r with changed := o.changed || r.changed }

mutual

def walkNode (p : Pass) (loose : Bool) : Value → Outcome Walked
  | .dict entries =>
    let r := p.enter (.dict entries)
    match r.fault, r.action with
    | none, .keep =>
      let kind := visitedKind loose entries
      let fields := childFields kind
      if p.strict && fields.isNone then
        { value := .untouched (.dict entries), changed := r.changed, fault := some (.unknownKind kind) }
      else
        let children := walkEntries p kind fields (Home.ofEntries entries) entries
        let o := leaveNode p (children.map fun (entries, home) => home.settleIn entries)
        { o with changed := r.changed || o.changed }
    | _, _ => r.walked
  | v => .done (.untouched v)

def walkEntries (p : Pass) (kind : String) (fields : Option (List String)) (home : Home) :
    List (String × Value) → Outcome (List (String × Value) × Home)
  | [] => .done ([], home)
  | (key, .list items) :: rest =>
    let head :=
      if isChild fields key then asListField home (key == "body") items (walkItems p (isPropertyList kind key) items)
      else .done (.list items, home)
    fieldThen key head rest fun home => walkEntries p kind fields home rest
  | (key, v) :: rest =>
    let head :=
      if isChild fields key && isNode v then asField home (walkNode p false v) else .done (v, home)
    fieldThen key head rest fun home => walkEntries p kind fields home rest

def walkItems (p : Pass) (loose : Bool) : List Value → List (Outcome Walked)
  | [] => []
  | v :: rest =>
    let head := if isVisited loose v then walkNode p loose v else .done (.untouched v)
    if head.fault.isSome then head :: rest.map fun v => .done (.untouched v)
    else head :: walkItems p loose rest

end

def walkRows (p : Pass) : List Value → List (Outcome Walked)
  | [] => []
  | v :: rest =>
    let head : Outcome Walked :=
      match v with
      | .list items => (asListField {} false items (walkItems p false items)).map fun (v, _) => .untouched v
      | v => if isNode v then walkNode p false v else .done (.untouched v)
    if head.fault.isSome then head :: rest.map fun v => .done (.untouched v)
    else head :: walkRows p rest

/-- The root, once it was walked. It stands beside its own statements, and it is neither replaced nor
taken out. -/
def settleRoot (o : Outcome Walked) : Outcome Value :=
  match o.fault, o.value.fate, o.value.node with
  | none, .goes carry, .dict entries =>
    let moved := (Home.ofEntries entries).takeOver carry (.dict entries)
    let node :=
      match moved.value.1 with
      | .dict entries => .dict (moved.value.2.settleIn entries)
      | v => v
    { value := node, changed := o.changed || moved.fault.isNone, fault := moved.fault }
  | fault, _, node => { value := node, changed := o.changed, fault }

def Pass.run (p : Pass) (tree : Value) : Outcome Value :=
  match tree with
  | .dict entries => settleRoot (walkNode p false (.dict entries))
  | v =>
    if p.strict then if truthy v then .stop v (.unknownKind "null") else .done v
    else
      match (p.enter v).fault, v with
      | some fault, v => .stop v fault
      | none, .list items => (asListField {} false items (walkRows p items)).map fun (v, _) => v
      | none, v => .done v

abbrev Visit (σ : Type) := σ → Option Value → Value → Except Fault (σ × Bool)

mutual

def foldNode (visit : Visit σ) (loose : Bool) (parent : Option Value) (s : σ) : Value → Except Fault σ
  | .dict entries => do
    let (s, pass) ← visit s parent (.dict entries)
    if pass then return s
    else
      let kind := visitedKind loose entries
      foldEntries visit kind (childFields kind) (.dict entries) s entries
  | _ => .ok s

def foldEntries (visit : Visit σ) (kind : String) (fields : Option (List String)) (parent : Value) (s : σ) :
    List (String × Value) → Except Fault σ
  | [] => .ok s
  | (key, .list items) :: rest => do
    let s ← if isChild fields key then foldItems visit (isPropertyList kind key) parent s items else .ok s
    foldEntries visit kind fields parent s rest
  | (key, v) :: rest => do
    let s ← if isChild fields key && isNode v then foldNode visit false (some parent) s v else .ok s
    foldEntries visit kind fields parent s rest

def foldItems (visit : Visit σ) (loose : Bool) (parent : Value) (s : σ) : List Value → Except Fault σ
  | [] => .ok s
  | v :: rest => do
    let s ← if isVisited loose v then foldNode visit loose (some parent) s v else .ok s
    foldItems visit loose parent s rest

end

def foldRows (visit : Visit σ) (parent : Value) (s : σ) : List Value → Except Fault σ
  | [] => .ok s
  | v :: rest => do
    let s ←
      match v with
      | .list items => foldItems visit false parent s items
      | v => if isNode v then foldNode visit false (some parent) s v else .ok s
    foldRows visit parent s rest

def analyse (visit : Visit σ) (start : σ) (tree : Value) : Except Fault σ :=
  match tree with
  | .list items => foldRows visit (.list items) start items
  | v => foldNode visit false none start v

end Rulewright.Flag
