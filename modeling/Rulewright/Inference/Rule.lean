import Rulewright.Inference.Change
import Rulewright.Query.Writer
import Rulewright.Rule.Basic
import Rulewright.Source.Ancestor

/-!
Inferring a rule from an example: nodes before and after a change. The query matches the nodes
before, and the replacement is the text after it with captures in place of what both have.
-/

namespace Rulewright.Inference

open Source (Node Forest)
open Query (Writer)

def replaceFirst (n : Nat) (old new text : String) : String :=
  String.ofList (new.toList.intercalate (Text.cutAtMost old.toList n text.toList))

def sources (nodes : List Node) : Except Failure String := do
  return " ".intercalate (← liftSource (nodes.mapM Node.source))

def ruleFor (name : String) (n : Node) (text : String) : Except Failure Rule := do
  let w ← liftSource (Writer.write false [n])
  let replace ← liftSource (w.tag text)
  return {
    name := .str name, query := .str w.query
    replaceNode := .str (String.ofList ((w.outermost.getD "").toList.drop 1)), replace := .str replace }

def create (forest : Forest) (name : String) (before after : List Node) : Except Failure Rule := do
  match before, after with
  | [n], [m] =>
    let (n, m) ← liftSource (Source.findChange n m)
    ruleFor name n (← sources [m])
  | [n], after => ruleFor name n (← sources after)
  | before, after =>
    let above ← liftSource (Source.lowestCommonAncestor forest before)
    let whole ← liftSource (above.unified before)
    let whole := replaceFirst (before.length - 1) Source.placeholder "" whole
    let text ← sources after
    ruleFor name above (replaceFirst 1 Source.placeholder text whole)

def infer (forest : Forest) (name : String) (before after : List Node) : Except Failure (Option Rule) := do
  match before, after with
  | [], [] => return none
  | [], _ => throw .notSupported
  | before, after => return some (← create forest name before after)

def ruleName (k : Nat) : String := "rule_" ++ toString k

end Rulewright.Inference
