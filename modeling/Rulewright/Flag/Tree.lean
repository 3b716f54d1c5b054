import Rulewright.Flag.Member
import Rulewright.Text.Units

/-!
Syntax trees of scripts, as data: a node is a table whose `type` names its kind. Which fields hold
children, and in which order they are visited, follows from the kind; a node keeps its fields in
that order.
-/

namespace Rulewright.Flag

inductive Fault where
  | malformed
  | unknownKind (kind : String)
  deriving DecidableEq, Repr

def Fault.message? : Fault → Option String
  | .malformed => none
  | .unknownKind kind => some ("Unknown node type " ++ kind ++ ".")

def kinds : List (String × List String) :=
  [
    ("AssignmentExpression", ["left", "right"]), ("AssignmentPattern", ["left", "right"]),
    ("ArrayExpression", ["elements"]), ("ArrayPattern", ["elements"]),
    ("ArrowFunctionExpression", ["params", "body"]), ("AwaitExpression", ["argument"]),
    ("BlockStatement", ["body"]), ("BinaryExpression", ["left", "right"]), ("BreakStatement", ["label"]),
    ("CallExpression", ["callee", "arguments"]), ("CatchClause", ["param", "body"]),
    ("ChainExpression", ["expression"]), ("ClassBody", ["body"]),
    ("ClassDeclaration", ["id", "superClass", "body"]), ("ClassExpression", ["id", "superClass", "body"]),
    ("ComprehensionBlock", ["left", "right"]), ("ComprehensionExpression", ["blocks", "filter", "body"]),
    ("ConditionalExpression", ["test", "consequent", "alternate"]), ("ContinueStatement", ["label"]),
    ("DebuggerStatement", []), ("DirectiveStatement", []), ("DoWhileStatement", ["body", "test"]),
    ("EmptyStatement", []), ("ExportAllDeclaration", ["source"]),
    ("ExportDefaultDeclaration", ["declaration"]),
    ("ExportNamedDeclaration", ["declaration", "specifiers", "source"]),
    ("ExportSpecifier", ["exported", "local"]), ("ExpressionStatement", ["expression"]),
    ("ForStatement", ["init", "test", "update", "body"]), ("ForInStatement", ["left", "right", "body"]),
    ("ForOfStatement", ["left", "right", "body"]), ("FunctionDeclaration", ["id", "params", "body"]),
    ("FunctionExpression", ["id", "params", "body"]), ("GeneratorExpression", ["blocks", "filter", "body"]),
    ("Identifier", []), ("IfStatement", ["test", "consequent", "alternate"]),
    ("ImportExpression", ["source"]), ("ImportDeclaration", ["specifiers", "source"]),
    ("ImportDefaultSpecifier", ["local"]), ("ImportNamespaceSpecifier", ["local"]),
    ("ImportSpecifier", ["imported", "local"]), ("Literal", []), ("LabeledStatement", ["label", "body"]),
    ("LogicalExpression", ["left", "right"]), ("MemberExpression", ["object", "property"]),
    ("MetaProperty", ["meta", "property"]), ("MethodDefinition", ["key", "value"]), ("ModuleSpecifier", []),
    ("NewExpression", ["callee", "arguments"]), ("ObjectExpression", ["properties"]),
    ("ObjectPattern", ["properties"]), ("PrivateIdentifier", []), ("Program", ["body"]),
    ("Property", ["key", "value"]), ("PropertyDefinition", ["key", "value"]), ("RestElement", ["argument"]),
    ("ReturnStatement", ["argument"]), ("SequenceExpression", ["expressions"]),
    ("SpreadElement", ["argument"]), ("Super", []), ("SwitchStatement", ["discriminant", "cases"]),
    ("SwitchCase", ["test", "consequent"]), ("TaggedTemplateExpression", ["tag", "quasi"]),
    ("TemplateElement", []), ("TemplateLiteral", ["quasis", "expressions"]), ("ThisExpression", []),
    ("ThrowStatement", ["argument"]), ("TryStatement", ["block", "handler", "finalizer"]),
    ("UnaryExpression", ["argument"]), ("UpdateExpression", ["argument"]),
    ("VariableDeclaration", ["declarations"]), ("VariableDeclarator", ["id", "init"]),
    ("WhileStatement", ["test", "body"]), ("WithStatement", ["object", "body"]),
    ("YieldExpression", ["argument"])
  ]

def namelessKinds : List String :=
  ["constructor", "__defineGetter__", "__defineSetter__", "hasOwnProperty", "__lookupGetter__",
    "__lookupSetter__", "isPrototypeOf", "propertyIsEnumerable"]

def childFields (kind : String) : Option (List String) :=
  match kinds.lookup kind with
  | some fields => some fields
  | none =>
    if namelessKinds.contains kind then some ["undefined"]
    else if inheritedNames.contains kind then some []
    else none

def truthy : Value → Bool
  | .null => false
  | .bool b => b
  | .int n => n != 0
  | .real x => !(x.isZero || x == .nan)
  | .str s => s != ""
  | .moment _ => true
  | .list _ => true
  | .dict _ => true

mutual

def display : Value → String
  | .null => "null"
  | .bool b => if b then "true" else "false"
  | .int n => toString n
  | .real x => x.render .plain
  | .str s => s
  | .moment m => m.text "T"
  | .list items => displayItems items
  | .dict _ => "[object Object]"

def displayItems : List Value → String
  | [] => ""
  | [.null] => ""
  | [v] => display v
  | .null :: rest => "," ++ displayItems rest
  | v :: rest => display v ++ "," ++ displayItems rest

end

def displayOr : Option Value → String
  | none => "undefined"
  | some v => display v

def isNode (v : Value) : Bool :=
  match v.field? "type" with
  | some (.str _) => true
  | _ => false

def kind? (v : Value) : Option String := (v.field? "type").bind Value.str?

def hasKind (v : Value) (kind : String) : Bool := kind? v == some kind

/-- The kind under which a table is visited. An element of a property list that names no kind is a
property. -/
def visitedKind (loose : Bool) (entries : Entries) : String :=
  match Entries.get? "type" entries with
  | some v => if truthy v then display v else if loose then "Property" else "null"
  | none => if loose then "Property" else "null"

def isPropertyList (kind key : String) : Bool :=
  key == "properties" && (kind == "ObjectExpression" || kind == "ObjectPattern")

def isChild (fields : Option (List String)) (key : String) : Bool :=
  match fields with
  | some fields => fields.contains key
  | none => true

def isVisited (loose : Bool) (v : Value) : Bool := isNode v || (loose && v.dict?.isSome)

def present : Value → Except Fault Unit
  | .null => .error .malformed
  | _ => .ok ()

def read (v : Option Value) (key : String) : Except Fault (Option Value) :=
  match v with
  | none => .error .malformed
  | some .null => .error .malformed
  | some v => .ok (v.field? key)

def kindOf (v : Option Value) : Except Fault (Option Value) := read v "type"

def canonical : Value → Value
  | .int n => if n.natAbs ≤ Nat.pow 2 53 then .int n else .real (.ofInt n)
  | .real x =>
    match x.toInt? with
    | some n => if n.natAbs ≤ Nat.pow 2 53 then .int n else .real x
    | none => .real x
  | v => v

def identical : Value → Value → Bool
  | .null, .null => true
  | .bool a, .bool b => a == b
  | .str a, .str b => a == b
  | .int a, .int b => a == b
  | .real a, .real b => a == b && a != .nan
  | _, _ => false

def numbersFirst (entries : Entries) : Entries :=
  let numbered := entries.filterMap fun e => (indexKey? e.1).map fun n => (n, e)
  let sorted := numbered.mergeSort fun a b => a.1 ≤ b.1
  sorted.map (·.2) ++ entries.filter fun e => (indexKey? e.1).isNone

def arrange (entries : Entries) : Entries :=
  let entries := numbersFirst entries
  match childFields (visitedKind true entries) with
  | some fields =>
    fields.filterMap (fun key => (Entries.get? key entries).map fun v => (key, v)) ++
      entries.filter fun e => !fields.contains e.1
  | none => entries

mutual

def load : Value → Value
  | .list items => .list (loadItems items)
  | .dict entries => .dict (arrange (loadEntries entries))
  | v => canonical v

def loadItems : List Value → List Value
  | [] => []
  | v :: rest => load v :: loadItems rest

def loadEntries : List (String × Value) → List (String × Value)
  | [] => []
  | (key, v) :: rest => (key, load v) :: loadEntries rest

end

abbrev Path := List String

def at? : Path → Value → Option Value
  | [], v => some v
  | key :: rest, v => (member? v key).bind (at? rest)

def modifyAt (f : Value → Value) : Path → Value → Value
  | [], v => f v
  | key :: rest, .dict entries =>
    match Entries.get? key entries with
    | some child => .dict (Entries.put key (modifyAt f rest child) entries)
    | none => .dict entries
  | key :: rest, .list items =>
    match indexKey? key with
    | some i => .list (items.modify i (modifyAt f rest))
    | none => .list items
  | _ :: _, v => v

end Rulewright.Flag
