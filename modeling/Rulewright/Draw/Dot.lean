import Rulewright.Draw.Run

/-!
A drawing as a text in the DOT language. Setting leaves apart is left to the program that lays the
graph out.
-/

namespace Rulewright.Draw

def dotQuoted (s : String) : String :=
  "\"" ++ String.ofList (s.toList.flatMap fun c => if c == '"' then ['\\', '"'] else [c]) ++ "\""

def dotAttributes (attributes : List (String × Option String)) : String :=
  let given := attributes.filterMap fun (key, value) => value.map fun v => key ++ "=" ++ dotQuoted v
  if given.isEmpty then "" else " [" ++ " ".intercalate given ++ "]"

def Node.dot (n : Node) : String :=
  dotQuoted n.name ++ dotAttributes [("label", n.label), ("shape", n.shape)]

def Arrow.dot (a : Arrow) : String :=
  dotQuoted a.tail ++ " -> " ++ dotQuoted a.head ++ dotAttributes [("label", some a.label)]

def Drawing.dot (d : Drawing) : String :=
  let title := dotAttributes [("fontsize", some "30"), ("label", some (d.title.getD "None")), ("labelloc", some "t")]
  let lines := ("graph" ++ title) :: d.nodes.map Node.dot ++ d.arrows.map Arrow.dot
  "digraph \x7b\n" ++ String.join (lines.map fun l => "\t" ++ l ++ "\n") ++ "\x7d\n"

end Rulewright.Draw
