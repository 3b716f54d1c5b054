import Rulewright.Source.Render
import Rulewright.Text.Search

/-!
Writing a tree query for nodes. Every node that is written out gets a capture `@tag<k>n`, and every
leaf a constraint on its text.
-/

namespace Rulewright.Query

open Source (Node Forest)

structure Writer where
  captures : List (String × Node) := []
  count : Nat := 0
  query : String := ""
  constraints : List String := []
  outermost : Option String := none
  deriving Inhabited

def captureName (k : Nat) : String := "@tag" ++ toString k ++ "n"

def equals (capture text : String) : String := "(#eq? " ++ capture ++ " \"" ++ text ++ "\")"

namespace Writer

def demand (w : Writer) (capture : String) (n : Node) : Except Source.Error Writer := do
  if n.children.isEmpty then
    return { w with constraints := w.constraints ++ [equals capture (← n.text)] }
  else return w

def capture (w : Writer) (n : Node) : Except Source.Error Writer := do
  let count := w.count + 1
  let name := captureName count
  let w ← { w with count, captures := w.captures ++ [(name, n)] }.demand name n
  return { w with outermost := some name }

mutual

def pattern (depth : Int) (mark : String) (w : Writer) : Node → Except Source.Error (String × Writer)
  | ⟨label, children⟩ => do
    let (inner, w) ← patterns (depth + 1) w children
    let w ← w.capture ⟨label, children⟩
    return (Source.indent depth ++ mark ++ "(" ++ label.kind ++ " " ++ inner ++ ") " ++ captureName w.count, w)

def patterns (depth : Int) (w : Writer) : List Node → Except Source.Error (String × Writer)
  | [] => .ok ("", w)
  | n :: rest =>
    if n.named then do
      let (first, w) ← pattern depth n.fieldMark w n
      let (others, w) ← patterns depth w rest
      return ("\n" ++ first ++ others, w)
    else patterns depth w rest

end

/-- The kinds of the named children only. A child is followed by the last capture name so far, and a
leaf among them constrains the next. -/
def shallow (depth : Int) (w : Writer) : List Node → Except Source.Error (String × Writer)
  | [] => .ok ("", w)
  | n :: rest =>
    if n.named then do
      let first := "\n" ++ Source.indent depth ++ "(" ++ n.kind ++ ") " ++ captureName w.count
      let w := { w with count := w.count + 1 }
      let w ← w.demand (captureName w.count) n
      let (others, w) ← shallow depth w rest
      return (first ++ others, w)
    else shallow depth w rest

def nodePattern (simplify : Bool) (w : Writer) (n : Node) : Except Source.Error (String × Writer) :=
  if simplify then do
    let (inner, w) ← w.shallow 1 n.children
    let w ← w.capture n
    return ("(" ++ n.kind ++ " " ++ inner ++ ") " ++ captureName w.count, w)
  else w.pattern 0 "" n

def sequence (simplify : Bool) (w : Writer) : List Node → Except Source.Error (List String × Writer)
  | [] => .ok ([], w)
  | n :: rest => do
    let (first, w) ← w.nodePattern simplify n
    let (others, w) ← w.sequence simplify rest
    return (first :: others, w)

def write (simplify : Bool) (nodes : List Node) : Except Source.Error Writer := do
  let (patterns, w) ← Writer.sequence simplify {} nodes
  return { w with
    query := "(" ++ Text.join "." patterns ++ "\n" ++ Text.join "\n" w.constraints ++ ")" }

def longestFirst (w : Writer) : List (String × Node) :=
  w.captures.mergeSort fun a b => b.2.label.size ≤ a.2.label.size

def tagAll : List (String × Node) → String → Except Source.Error String
  | [], text => .ok text
  | (name, n) :: rest, text => do tagAll rest (Text.replaceAll text (← n.source) name)

def tag (w : Writer) (text : String) : Except Source.Error String := tagAll w.longestFirst text

end Writer
end Rulewright.Query
