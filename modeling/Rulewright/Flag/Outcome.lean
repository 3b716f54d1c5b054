import Rulewright.Flag.Tree

/-!
What a pass leaves behind: the tree as it stands, whether anything was changed, and what stopped
the pass, if something did. A pass that stops keeps what it changed before.
-/

namespace Rulewright.Flag

structure Outcome (α : Type) where
  value : α
  changed : Bool := false
  fault : Option Fault := none

namespace Outcome

def done (value : α) : Outcome α := { value }

def stop (value : α) (fault : Fault) : Outcome α := { value, fault := some fault }

def map (f : α → β) (o : Outcome α) : Outcome β := { o with value := f o.value }

def andThen (o : Outcome α) (next : α → Outcome α) : Outcome α :=
  match o.fault with
  | some _ => o
  | none =>
    let n := next o.value
    { value := n.value, changed := o.changed || n.changed, fault := n.fault }

def cons (head : Outcome α) (raw : List α) (tail : Outcome (List α)) : Outcome (List α) :=
  match head.fault with
  | some fault => { value := head.value :: raw, changed := head.changed, fault := some fault }
  | none => { value := head.value :: tail.value, changed := head.changed || tail.changed, fault := tail.fault }

def ofExcept (raw : α) (result : Except Fault α) : Outcome α :=
  match result with
  | .ok value => done value
  | .error fault => stop raw fault

end Outcome
end Rulewright.Flag
