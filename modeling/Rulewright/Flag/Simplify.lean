import Rulewright.Flag.Literal

/-!
Simplifying around marked literals: logical operators, then conditionals, then blocks that stand
directly in a block.
-/

namespace Rulewright.Flag

def reduceOperator (node : Value) : Except Fault Reply := do
  if hasKind node "LogicalExpression" then
    let left := node.field? "left"
    let right := node.field? "right"
    let operator := node.field? "operator"
    if ← isMarked left then
      return match reduceLogical left right operator with
        | some v => .put node v
        | none => { node, changed := true }
    else if ← isMarked right then
      return match reduceLogical right left operator with
        | some v => .put node v
        | none => { node, changed := true }
    else return .keep node
  else if hasKind node "UnaryExpression" && node.field? "operator" == some (.str "!") then
    let argument := node.field? "argument"
    if ← isMarked argument then
      return match truth? argument with
        | some b => .put node (literal !b)
        | none => .keep node
    else return .keep node
  else return .keep node

def operators : Pass where
  leave node := Reply.ofExcept node (reduceOperator node)

def simplifyOperators (tree : Value) : Outcome Value := operators.run tree

def takeBranch (branch : String) (node : Value) : Reply :=
  match moveToBranch branch (some node) with
  | .error fault => { node, changed := true, fault := some fault }
  | .ok moved =>
    let node := moved.getD node
    match node.field? branch with
    | some v => .put node v
    | none => { node, changed := true }

/-- Replaces a conditional whose test is a marked literal by the branch taken; one without that branch
goes away. -/
def reduceConditional (node : Value) : Except Fault Reply := do
  if hasKind node "IfStatement" || hasKind node "ConditionalExpression" then
    let test := node.field? "test"
    if ← isMarked test then
      match truth? test with
      | some true => return takeBranch "consequent" node
      | some false =>
        match node.field? "alternate" with
        | none => return .drop node .nothing
        | some .null => return .drop node .nothing
        | some _ => return takeBranch "alternate" node
      | none => return .keep node
    else return .keep node
  else return .keep node

def conditionals : Pass where
  leave node := Reply.ofExcept node (reduceConditional node)

def isScope (kind : String) : Bool := kind == "BlockStatement" || kind == "Program"

def statementsOf (block : Value) : Except Fault (List Value) :=
  match block.field? "body" with
  | some (.list items) => .ok items
  | some (.str s) => .ok (characters s)
  | _ => .error .malformed

structure Flattened (α : Type) where
  parts : List α
  toParent : List Value := []

def Flattened.cons (head : Outcome (Flattened α)) (raw : List α) (tail : Outcome (Flattened α)) :
    Outcome (Flattened α) :=
  match head.fault with
  | some fault => .stop { head.value with parts := head.value.parts ++ raw } fault
  | none =>
    { value := { parts := head.value.parts ++ tail.value.parts, toParent := head.value.toParent ++ tail.value.toParent }
      fault := tail.fault }

structure Flattening where
  keepComments : Bool
  scope : Bool
  takes : Bool

/-- What a block leaves behind when its statements move out: the statements, which take its comments
at the two ends, and the comments that its parent takes over from an empty block. -/
def spill (f : Flattening) (block : Value) : Outcome (Flattened Value) :=
  let whole (block : Value) : Flattened Value := { parts := [block] }
  match collate (some block), statementsOf block with
  | .error fault, _ => .stop (whole block) fault
  | _, .error fault => .stop (whole block) fault
  | .ok _, .ok [] =>
    let comments := if f.keepComments then listedComments (some block) else []
    if f.takes || comments.isEmpty then .done { parts := [], toParent := comments }
    else .stop (whole block) .malformed
  | .ok cs, .ok (first :: rest) =>
    match attachBeginning cs.leading (some first) with
    | .error fault => .stop (whole block) fault
    | .ok first =>
      let statements := first.toList ++ rest
      match attachEnd cs.trailing statements.getLast? with
      | .error fault =>
        .stop (whole (if cs.leading.isEmpty then block else block.set "body" (.list statements))) fault
      | .ok last => .done { parts := statements.dropLast ++ last.toList }

def asElement (f : Flattening) (o : Outcome Value) : Outcome (Flattened Value) :=
  if o.fault.isNone && f.scope && hasKind o.value "BlockStatement" then spill f o.value
  else o.map fun v => { parts := [v] }

/-- A field that holds one node. A scope whose body is no list cannot take statements in, so a block
there keeps them, with its comments moved to them. -/
def asOnly (f : Flattening) (key : String) (o : Outcome Value) : Outcome (Flattened (String × Value)) :=
  if o.fault.isNone && f.scope && hasKind o.value "BlockStatement" then
    let spilled := spill f o.value
    match spilled.fault with
    | some fault => .stop { parts := spilled.value.parts.map fun v => (key, v) } fault
    | none =>
      let block :=
        match o.value.field? "body" with
        | some (.list _) => o.value.set "body" (.list spilled.value.parts)
        | _ => o.value
      .stop { parts := [(key, block)], toParent := spilled.value.toParent } .malformed
  else o.map fun v => { parts := [(key, v)] }

def finishNode (o : Outcome (Flattened (String × Value))) : Outcome Value :=
  let node := Value.dict o.value.parts
  match attachEnd o.value.toParent (some node), o.fault with
  | .ok v, fault => { value := v.getD node, fault }
  | .error fault, none => .stop node fault
  | .error _, some fault => .stop node fault

mutual

def flattenNode (keepComments loose : Bool) : Value → Outcome Value
  | .dict entries =>
    let kind := visitedKind loose entries
    match childFields kind with
    | none => .stop (.dict entries) (.unknownKind kind)
    | some fields =>
      let takes := (commentsOf (.dict entries)).isOk
      finishNode (flattenEntries { keepComments, scope := isScope kind, takes } kind fields entries)
  | v => .done v

def flattenEntries (f : Flattening) (kind : String) (fields : List String) :
    List (String × Value) → Outcome (Flattened (String × Value))
  | [] => .done { parts := [] }
  | (key, .list items) :: rest =>
    let head :=
      if fields.contains key then
        (flattenItems f (isPropertyList kind key) items).map fun g =>
          { parts := [(key, .list g.parts)], toParent := g.toParent }
      else .done { parts := [(key, .list items)] }
    Flattened.cons head rest (flattenEntries f kind fields rest)
  | (key, v) :: rest =>
    let head :=
      if fields.contains key && isNode v then asOnly f key (flattenNode f.keepComments false v)
      else .done { parts := [(key, v)] }
    Flattened.cons head rest (flattenEntries f kind fields rest)

def flattenItems (f : Flattening) (loose : Bool) : List Value → Outcome (Flattened Value)
  | [] => .done { parts := [] }
  | v :: rest =>
    let head :=
      if isVisited loose v then asElement f (flattenNode f.keepComments loose v)
      else .done { parts := [v] }
    Flattened.cons head rest (flattenItems f loose rest)

end

def flattenBlocks (keepComments : Bool) (tree : Value) : Outcome Value :=
  match tree with
  | .dict entries =>
    let o := flattenNode keepComments false (.dict entries)
    -- a block at the root has no parent to move into
    if o.fault.isNone && hasKind o.value "BlockStatement" then .stop o.value .malformed else o
  | v => if truthy v then .stop v (.unknownKind "null") else .done v

def reduceConditionals (keepComments : Bool) (tree : Value) : Outcome Value :=
  (conditionals.run tree).andThen (flattenBlocks keepComments)

end Rulewright.Flag
