import Rulewright.Text.Quoted
import Rulewright.Value.Basic

/-!
The text of data in messages: a text stands for itself at the top and in quotes inside a list or
table.
-/

namespace Rulewright.Value

mutual

def written : Value → String
  | .null => "None"
  | .bool b => if b then "True" else "False"
  | .int n => toString n
  | .real x => x.render .pointed
  | .str s => Text.quoted s
  | .moment m => m.written
  | .list items => "[" ++ writtenItems items ++ "]"
  | .dict entries => "\x7b" ++ writtenEntries entries ++ "\x7d"

def writtenItems : List Value → String
  | [] => ""
  | [v] => written v
  | v :: rest => written v ++ ", " ++ writtenItems rest

def writtenEntries : List (String × Value) → String
  | [] => ""
  | [(k, v)] => Text.quoted k ++ ": " ++ written v
  | (k, v) :: rest => Text.quoted k ++ ": " ++ written v ++ ", " ++ writtenEntries rest

end

def shown : Value → String
  | .str s => s
  | .moment m => m.text " "
  | v => written v

def isSomething : Value → Bool
  | .null => false
  | .bool b => b
  | .int n => n != 0
  | .real x => !x.isZero
  | .str s => s != ""
  | .moment _ => true
  | .list items => !items.isEmpty
  | .dict entries => !entries.isEmpty

end Rulewright.Value
