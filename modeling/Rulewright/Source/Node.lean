import Rulewright.Text.Utf8

/-!
Syntax trees of source code. A node knows its kind, the field of its parent it fills, where it
starts and ends, its text and its children; its place in the forest tells it from every other node.
-/

namespace Rulewright.Source

structure Point where
  row : Nat
  column : Nat
  deriving DecidableEq, Repr, Inhabited

namespace Point

def le (p q : Point) : Bool := p.row < q.row || (p.row == q.row && p.column ≤ q.column)

def lt (p q : Point) : Bool := p.row < q.row || (p.row == q.row && p.column < q.column)

end Point

abbrev Place := List Nat

structure Label where
  kind : String
  named : Bool
  field : Option String
  place : Place
  startByte : Nat
  start : Point
  stop : Point
  size : Nat
  content : Text.Decoded
  deriving DecidableEq, Repr, Inhabited

structure Node where
  label : Label
  children : List Node
  deriving Repr, Inhabited

namespace Node

def kind (n : Node) : String := n.label.kind

def named (n : Node) : Bool := n.label.named

def place (n : Node) : Place := n.label.place

def start (n : Node) : Point := n.label.start

def stop (n : Node) : Point := n.label.stop

def namedChildren (n : Node) : List Node := n.children.filter named

def fieldName? (n : Node) : Option String := n.label.field.filter (· != "")

end Node

abbrev Forest := List Node

namespace Forest

def below : Place → Node → Option Node
  | [], n => some n
  | i :: rest, n => n.children[i]?.bind (below rest)

def at? (f : Forest) : Place → Option Node
  | [] => none
  | i :: rest => f[i]?.bind (below rest)

end Forest

inductive Error where
  | undecodable (u : Text.Undecodable)
  | noNodes
  | noCommonAncestor
  deriving DecidableEq, Repr

def Node.text (n : Node) : Except Error String :=
  match n.label.content with
  | .text s => .ok s
  | .fault u => .error (.undecodable u)

structure Parsed where
  kind : String
  named : Bool
  field : Option String
  startByte : Nat
  stopByte : Nat
  children : List Parsed
  deriving Inhabited

def pointAt (bytes : List UInt8) (offset : Nat) : Point :=
  let before := bytes.take offset
  let lineStart := before.length - (before.reverse.takeWhile (· != 10)).length
  { row := before.count 10, column := offset - lineStart }

mutual

def Parsed.locate (bytes : List UInt8) (place : Place) : Parsed → Node
  | ⟨kind, named, field, startByte, stopByte, children⟩ =>
    let text := (bytes.take stopByte).drop startByte
    { label :=
        { kind, named, field, place, startByte, start := pointAt bytes startByte
          stop := pointAt bytes stopByte, size := text.length, content := Text.decode text }
      children := locateAll bytes place 0 children }

def locateAll (bytes : List UInt8) (place : Place) (i : Nat) : List Parsed → List Node
  | [] => []
  | p :: rest => p.locate bytes (place ++ [i]) :: locateAll bytes place (i + 1) rest

end

structure Tree where
  source : String
  root : Node

def Tree.load (source : String) (number : Nat) (parsed : Parsed) : Tree :=
  { source, root := parsed.locate source.toUTF8.toList [number] }

end Rulewright.Source
