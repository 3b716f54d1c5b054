import Rulewright.Source.Render

/-!
Finding what changed between two trees: as long as exactly one pair of named children differs, the
change is inside that pair.
-/

namespace Rulewright.Source

def Node.differs (n m : Node) : Except Error Bool := do return (← n.source) != (← m.source)

def countDiffering : List Node → List Node → Except Error Nat
  | n :: ns, m :: ms => do
    let here ← n.differs m
    let rest ← countDiffering ns ms
    return rest + (if here then 1 else 0)
  | _, _ => .ok 0

mutual

def findChange : Node → Node → Except Error (Node × Node)
  | ⟨label, children⟩, after => do
    let differing ←
      if label.kind == after.kind then countDiffering (children.filter Node.named) after.namedChildren
      else pure 0
    if differing == 1 && children.length == after.children.length then
      findChangeIn (⟨label, children⟩, after) children after.namedChildren
    else return (⟨label, children⟩, after)

def findChangeIn (whole : Node × Node) : List Node → List Node → Except Error (Node × Node)
  | n :: ns, m :: ms => do
    if n.named then
      if ← n.differs m then findChange n m else findChangeIn whole ns ms
    else findChangeIn whole ns (m :: ms)
  | _, _ => .ok whole

end

end Rulewright.Source
