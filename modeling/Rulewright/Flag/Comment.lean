import Rulewright.Flag.Outcome

/-!
Comments attached to nodes, and moving them to a neighbour before a node goes away. A comment stands
before its node (`leading`), after it (`trailing`), or inside it. A comment that goes to the other
side of a gap is turned, so that it keeps its place in the text. One comment may stand at several places;
its copies then carry one number, and what happens to one of them happens to all.
-/

namespace Rulewright.Flag

structure Collated where
  leading : List Value
  trailing : List Value
  remaining : List Value
  deriving Repr

namespace Comment

def isLeading (c : Value) : Bool := ((c.field? "leading").map truthy).getD false

def isTrailing (c : Value) : Bool := ((c.field? "trailing").map truthy).getD false

def turn (c : Value) : Value :=
  if isLeading c || isTrailing c then
    (c.set "leading" (.bool (!isLeading c))).set "trailing" (.bool (!isTrailing c))
  else c

def numberKey : String := "\u0000number"

def number? (c : Value) : Option Value := c.field? numberKey

def isCopy (a b : Value) : Bool := (number? a).isSome && number? a == number? b

def turnTimes : Nat → Value → Value
  | 0, c => c
  | n + 1, c => turnTimes n (turn c)

/-- Turns a comment when all comments of a list are turned, so a comment that is listed twice is turned
twice. -/
def turnAmong (cs : List Value) (c : Value) : Value :=
  turnTimes (if (number? c).isSome then cs.countP (isCopy c) else 1) c

def turnAll (cs : List Value) : List Value := cs.map (turnAmong cs)

def refresh (fresh : List Value) (c : Value) : Value := (fresh.find? (isCopy c)).getD c

end Comment

open Comment

def commentsOf (v : Value) : Except Fault (List Value) :=
  match v.field? "comments" with
  | none => .ok []
  | some .null => .ok []
  | some (.list items) => .ok items
  | some _ => .error .malformed

def collate (v : Option Value) : Except Fault Collated :=
  match v with
  | none => .error .malformed
  | some .null => .error .malformed
  | some v => do
    let comments ← commentsOf v
    if comments.any (fun c => c == .null) then .error .malformed
    else
      return {
        leading := comments.filter isLeading
        trailing := comments.filter fun c => !isLeading c && isTrailing c
        remaining := comments.filter fun c => !isLeading c && !isTrailing c }

def turnComments (leads trails : Bool) (v : Value) : Value :=
  match v.field? "comments" with
  | some (.list items) =>
    let isTurned (c : Value) : Bool := (leads && isLeading c) || (trails && !isLeading c && isTrailing c)
    v.set "comments" (.list (items.map fun c => if isTurned c then turnAmong (items.filter isTurned) c else c))
  | _ => v

def refreshComments (fresh : List Value) (v : Value) : Value :=
  match v.field? "comments" with
  | some (.list items) => v.set "comments" (.list (items.map (refresh fresh)))
  | _ => v

def openComments (spread : Bool) (v : Value) : Except Fault (List Value) :=
  match v.field? "comments" with
  | some (.str s) => if spread then .ok (characters s) else .error .malformed
  | _ => commentsOf v

def attachBeginning (new : List Value) (v : Option Value) : Except Fault (Option Value) :=
  if new.isEmpty then .ok v
  else
    match v with
    | some (.dict entries) => do
      let old ← openComments true (.dict entries)
      return some ((Value.dict entries).set "comments" (.list (new ++ old)))
    | some (.list items) => .ok (some (.list items))
    | _ => .error .malformed

def attachEnd (new : List Value) (v : Option Value) : Except Fault (Option Value) :=
  if new.isEmpty then .ok v
  else
    match v with
    | some (.dict entries) => do
      let old ← openComments false (.dict entries)
      return some ((Value.dict entries).set "comments" (.list (old ++ new)))
    | some (.list items) => .ok (some (.list items))
    | _ => .error .malformed

def changeAt (body : List Value) (i : Nat) (f : Option Value → Except Fault (Option Value)) :
    Outcome (List Value) :=
  match f body[i]? with
  | .ok (some v) => .done (body.set i v)
  | .ok none => .done body
  | .error fault => .stop body fault

/-- Moves the leading and trailing comments of an element to its neighbours. The first element gives
all to the next one and the last gives all to the one before; one in between gives its leading
comments backward and its trailing ones forward. What crosses over is turned. -/
def moveAll (body : List Value) (i : Nat) : Outcome (List Value) :=
  let first := i == 0
  let last := i + 1 == body.length
  let turned (leads trails : Bool) : List Value := body.modify i (turnComments leads trails)
  match collate body[i]? with
  | .error fault => .stop body fault
  | .ok cs =>
    let toPrevious := turnAll cs.leading ++ if last then cs.trailing else []
    let toNext := (if first then cs.leading else []) ++ turnAll cs.trailing
    match first, last with
    | true, true => .done body
    | true, false => changeAt (turned false true) (i + 1) (attachBeginning toNext)
    | false, true => changeAt (turned true false) (i - 1) (attachEnd toPrevious)
    | false, false =>
      match attachEnd toPrevious body[i - 1]? with
      | .error fault => .stop (turned true false) fault
      | .ok previous =>
        (changeAt (turned true true) (i + 1) (attachBeginning toNext)).map fun body =>
          (previous.map (body.set (i - 1) ·)).getD body

def moveLeading (body : List Value) (i : Nat) : Outcome (List Value) :=
  let first := i == 0
  let last := i + 1 == body.length
  match collate body[i]? with
  | .error fault => .stop body fault
  | .ok cs =>
    if !last then changeAt body (i + 1) (attachBeginning cs.leading)
    else if first then .done body
    else changeAt (body.modify i (turnComments true false)) (i - 1) (attachEnd (turnAll cs.leading))

inductive Carry where
  | nothing
  | leading
  | all
  deriving DecidableEq, Repr

def Carry.ofOption (keepComments : Bool) : Carry := if keepComments then .all else .leading

def Carry.moveFrom : Carry → List Value → Nat → Outcome (List Value)
  | .nothing, body, _ => .done body
  | .leading, body, i => moveLeading body i
  | .all, body, i => moveAll body i

def listedComments (v : Option Value) : List Value :=
  match v.bind (·.field? "comments") with
  | some (.list items) => items
  | _ => []

def Carry.move (carry : Carry) (body : List Value) (i : Nat) : Outcome (List Value) :=
  (carry.moveFrom body i).map fun body => body.map (refreshComments (listedComments body[i]?))

/-- What a node that goes away hands to the first statement of a list to which it does not belong. The
node has no statement before it, so comments that would have to go backward cannot be placed; they
are turned before that shows. -/
def strayComments (carry : Carry) (isEmpty : Bool) (node : Value) : Outcome (Value × List Value) :=
  match carry, collate (some node) with
  | .nothing, _ => .done (node, [])
  | _, .error fault => .stop (node, []) fault
  | .leading, .ok cs =>
    if !isEmpty then .done (node, cs.leading)
    else if cs.leading.isEmpty then .done (node, [])
    else .stop (turnComments true false node, []) .malformed
  | .all, .ok cs =>
    if !cs.leading.isEmpty || (isEmpty && !cs.trailing.isEmpty) then
      .stop (turnComments true false node, []) .malformed
    else if isEmpty then .done (node, [])
    else .done (turnComments false true node, turnAll cs.trailing)

/-- The statement list of a node, if it has one, and the comments that its first statement has gained
from other children of the node and does not show yet. -/
structure Home where
  statements : Option (List Value) := none
  gained : List Value := []

namespace Home

def ofEntries (entries : Entries) : Home :=
  { statements := (Entries.get? "body" entries).bind Value.list? }

def takeOver (home : Home) (carry : Carry) (node : Value) : Outcome (Value × Home) :=
  match home.statements with
  | none => .done (node, home)
  | some body =>
    let stray := strayComments carry body.isEmpty node
    match stray.fault, attachBeginning stray.value.2 body.head? with
    | some fault, _ => .stop (stray.value.1, home) fault
    | none, .error fault => .stop (stray.value.1, home) fault
    | none, .ok _ => .done (stray.value.1, { home with gained := stray.value.2 ++ home.gained })

def enrich (gained : List Value) : List Value → List Value
  | [] => []
  | first :: rest =>
    match attachBeginning gained (some first) with
    | .ok (some first) => first :: rest
    | _ => first :: rest

def settleIn (home : Home) (entries : Entries) : Entries :=
  match home.statements with
  | some body => if home.gained.isEmpty then entries else Entries.put "body" (.list (enrich home.gained body)) entries
  | none => entries

end Home

def moveToBranch (branch : String) (v : Option Value) : Except Fault (Option Value) := do
  let cs ← collate v
  match v with
  | none => .error .malformed
  | some v =>
    let child ← attachBeginning cs.leading (v.field? branch)
    let child ← attachEnd cs.trailing child
    match child with
    | some child => return some (v.set branch child)
    | none => return some v

end Rulewright.Flag
