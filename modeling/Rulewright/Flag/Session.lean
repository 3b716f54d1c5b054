import Rulewright.Flag.Cleanup
import Rulewright.Flag.Copies

/-!
A clean-up run step by step: a session holds the tree and whether anything was changed, and each
request runs one pass, one analysis or one movement of comments.
-/

namespace Rulewright.Flag

def positionIn (parent node : Path) (body : List Value) : Option Nat :=
  match node.drop parent.length with
  | ["body", key] =>
    (indexKey? key).filter fun i => node.take parent.length == parent && i < body.length
  | _ => none

def moveStray (carry : Carry) (node parent : Path) (tree : Value) : Outcome Value :=
  match at? node tree, at? parent tree with
  | some v, some (.dict entries) =>
    let moved := (Home.ofEntries entries).takeOver carry v
    -- the node may stand in the first element, which therefore changes last
    let first := parent ++ ["body", "0"]
    let tree := modifyAt (fun _ => moved.value.1) node tree
    let tree :=
      modifyAt (fun v => ((attachBeginning moved.value.2.gained (some v)).toOption.bind id).getD v) first tree
    { value := tree, fault := moved.fault }
  | _, _ => .stop tree .malformed

def moveToSiblings (carry : Carry) (node parent : Path) (tree : Value) : Outcome Value :=
  match at? parent tree with
  | some (.dict entries) =>
    match Entries.get? "body" entries with
    | some (.list body) =>
      match positionIn parent node body with
      | some i => (carry.move body i).map fun body => modifyAt (·.set "body" (.list body)) parent tree
      | none => moveStray carry node parent tree
    | _ => .done tree
  | some (.list _) => .done tree
  | _ => .stop tree .malformed

def changeNode (node : Path) (f : Option Value → Except Fault (Option Value)) (tree : Value) : Outcome Value :=
  match f (at? node tree) with
  | .ok (some v) => .done (modifyAt (fun _ => v) node tree)
  | .ok none => .done tree
  | .error fault => .stop tree fault

def lastKey (length : Option Value) : String :=
  match length.map numeric with
  | some (.int n) => toString (n - 1)
  | _ => "NaN"

/-- Moves the comments of a block to its first and last statement; an empty block gives them to the
parent on request. -/
def moveToExtremes (keepComments : Bool) (node parent : Path) (tree : Value) : Outcome Value :=
  let block := at? node tree
  match collate block, block.bind (·.field? "body") with
  | .error fault, _ => .stop tree fault
  | _, none => .stop tree .malformed
  | _, some .null => .stop tree .malformed
  | .ok cs, some body =>
    let length := member? body "length"
    if length == some (.int 0) then
      if keepComments then changeNode parent (attachEnd (listedComments block)) tree else .done tree
    else
      (changeNode (node ++ ["body", "0"]) (attachBeginning cs.leading) tree).andThen
        (changeNode (node ++ ["body", lastKey length]) (attachEnd cs.trailing))

def turnFront (v : Option Value) : Outcome (Option Value) :=
  match v, (v.bind (·.field? "comments")).bind Value.list? with
  | none, _ => .stop v .malformed
  | some .null, _ => .stop v .malformed
  | some node, some items =>
    let front := items.takeWhile fun c => c != .null
    let turned := turnComments true true (node.set "comments" (.list front))
    let node := turned.set "comments" (.list (listedComments (some turned) ++ items.drop front.length))
    { value := some node, fault := if front.length < items.length then some .malformed else none }
  | _, none => .done v

inductive Request where
  | replaceChecks
  | simplifyOperators
  | reduceConditionals
  | unmark
  | cleanup
  | redundantVariables
  | singleReturns
  | redundantFunctions (single : Table)
  | pruneVariables (table : Table)
  | pruneFunctions (table : Table)
  | eliminateVariables
  | eliminateFunctions
  | collate (node : Path)
  | isMarked (node : Path)
  | turn (node : Path)
  | attachBeginning (node : Path) (comments : Value)
  | attachEnd (node : Path) (comments : Value)
  | moveToBranch (branch : String) (node : Path)
  | moveToSiblings (carry : Carry) (node parent : Path)
  | moveToExtremes (keepComments : Bool) (node parent : Path)
  | reduceLogical (literalOperand other operator : Option Value)

def Request.places : Request → List Path
  | .collate node => [node]
  | .isMarked node => [node]
  | .turn node => [node]
  | .attachBeginning node _ => [node]
  | .attachEnd node _ => [node]
  | .moveToBranch _ node => [node]
  | .moveToSiblings _ node parent => [node, parent]
  | .moveToExtremes _ node parent => [node, parent]
  | _ => []

def isReachable (tree : Value) (place : Path) : Bool :=
  match at? place.dropLast tree with
  | none => false
  | some .null => place.isEmpty
  | some _ => true

structure Session where
  tree : Value
  changed : Bool := false
  answered : Nat := 0

def Session.start (document : Value) : Session := { tree := labelAll "" (load document) }

def Session.shownTree (s : Session) : Value := shown s.tree

structure Answer where
  result : Except Fault Value
  said : List String := []

def Session.after (s : Session) (result : Value) (o : Outcome Value) : Session × Answer :=
  let next : Session := { s with tree := o.value, changed := s.changed || o.changed }
  match o.fault with
  | some fault => (next, { result := .error fault })
  | none => (next, { result := .ok result })

def Session.told (s : Session) (result : Except Fault Value) : Session × Answer := (s, { result })

def Table.pairs (t : Table) : Value := .list (t.sorted.map fun e => .list [.str e.1, e.2])

def Session.newComments (s : Session) (v : Value) : List Value :=
  labelItems (toString s.answered) (v.list?.getD [])

def asksLiteral (operator : Option Value) : Bool := operator == some (.str "&&") || operator == some (.str "||")

def Session.carryOut (settings : Settings) (s : Session) : Request → Session × Answer
  | .replaceChecks => s.after .null (Flag.replaceChecks settings s.tree)
  | .simplifyOperators => s.after .null (Flag.simplifyOperators s.tree)
  | .reduceConditionals => s.after .null (Flag.reduceConditionals settings.keepComments s.tree)
  | .unmark => s.after .null { Flag.unmark.run s.tree with changed := false }
  | .cleanup =>
    let f := Flag.cleanup settings s.tree
    ({ s with tree := f.tree, changed := f.changed },
      { result := match f.fault with
          | some fault => .error fault
          | none => .ok .null
        said := f.said })
  | .redundantVariables => s.told ((Flag.redundantVariables s.tree).map Table.pairs)
  | .singleReturns => s.told ((Flag.singleReturns s.tree).map Table.pairs)
  | .redundantFunctions single => s.told ((Flag.redundantFunctions single s.tree).map Table.pairs)
  | .pruneVariables t => s.after .null (Flag.pruneVariables settings.keepComments t s.tree)
  | .pruneFunctions t =>
    let o := Flag.pruneFunctions settings.keepComments t s.tree
    s.after (.bool (s.changed || o.changed)) o
  | .eliminateVariables => s.after .null (Flag.eliminateVariables settings.keepComments s.tree)
  | .eliminateFunctions =>
    let o := Flag.eliminateFunctions settings.keepComments s.tree
    s.after (.bool (s.changed || o.changed)) o
  | .collate node =>
    s.told ((Flag.collate (at? node s.tree)).map fun cs =>
      shown (.list [.list cs.leading, .list cs.trailing, .list cs.remaining]))
  | .isMarked node => s.told ((Flag.isMarked (at? node s.tree)).map .bool)
  | .turn node =>
    s.after .null ((turnFront (at? node s.tree)).map fun v =>
      (v.map fun v => modifyAt (fun _ => v) node s.tree).getD s.tree)
  | .attachBeginning node comments =>
    s.after .null (changeNode node (Flag.attachBeginning (s.newComments comments)) s.tree)
  | .attachEnd node comments => s.after .null (changeNode node (Flag.attachEnd (s.newComments comments)) s.tree)
  | .moveToBranch branch node => s.after .null (changeNode node (Flag.moveToBranch branch) s.tree)
  | .moveToSiblings carry node parent => s.after .null (Flag.moveToSiblings carry node parent s.tree)
  | .moveToExtremes keep node parent => s.after .null (Flag.moveToExtremes keep node parent s.tree)
  | .reduceLogical literalOperand other operator =>
    s.told do
      if asksLiteral operator then let _ ← read literalOperand "value"
      return shown ((Flag.reduceLogical literalOperand other operator).getD .null)

def Session.answer (settings : Settings) (s : Session) (request : Request) : Session × Answer :=
  if request.places.all (isReachable s.tree) then
    let (next, answer) := s.carryOut settings request
    ({ next with tree := followCopies s.tree next.tree, answered := s.answered + 1 }, answer)
  else s.told (.error .malformed)

def Session.run (settings : Settings) : Session → List Request → List (Session × Answer)
  | _, [] => []
  | s, request :: rest =>
    let (next, answer) := s.answer settings request
    match answer.result with
    | .error _ => [(next, answer)]
    | .ok _ => (next, answer) :: Session.run settings next rest

end Rulewright.Flag
