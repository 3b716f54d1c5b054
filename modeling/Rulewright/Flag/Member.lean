import Rulewright.Value.Basic

/-!
What can be read off a value by name: the fields of a table, the elements and the length of a list or a
text, and besides the names that every value of its shape answers to.
-/

namespace Rulewright.Flag

def indexKey? (key : String) : Option Nat :=
  match key.toList with
  | ['0'] => some 0
  | cs@(c :: _) =>
    if c != '0' && cs.all (fun c => '0' ≤ c && c ≤ '9') && cs.length ≤ 10 then
      let n := cs.foldl (fun n c => n * 10 + (c.toNat - '0'.toNat)) 0
      if n < 4294967295 then some n else none
    else none
  | [] => none

def inheritedNames : List String :=
  ["constructor", "__defineGetter__", "__defineSetter__", "hasOwnProperty", "__lookupGetter__",
    "__lookupSetter__", "isPrototypeOf", "propertyIsEnumerable", "toString", "valueOf", "__proto__",
    "toLocaleString"]

def listNames : List String :=
  ["at", "concat", "copyWithin", "fill", "find", "findIndex", "findLast", "findLastIndex", "lastIndexOf", "pop",
    "push", "reverse", "shift", "unshift", "slice", "sort", "splice", "includes", "indexOf", "join", "keys",
    "entries", "values", "forEach", "filter", "flat", "flatMap", "map", "every", "some", "reduce", "reduceRight",
    "toReversed", "toSorted", "toSpliced", "with"]

def textNames : List String :=
  ["anchor", "at", "big", "blink", "bold", "charAt", "charCodeAt", "codePointAt", "concat", "endsWith", "fontcolor",
    "fontsize", "fixed", "includes", "indexOf", "isWellFormed", "italics", "lastIndexOf", "link", "localeCompare",
    "match", "matchAll", "normalize", "padEnd", "padStart", "repeat", "replace", "replaceAll", "search", "slice",
    "small", "split", "strike", "sub", "substr", "substring", "sup", "startsWith", "toWellFormed", "trim",
    "trimStart", "trimLeft", "trimEnd", "trimRight", "toLocaleLowerCase", "toLocaleUpperCase", "toLowerCase",
    "toUpperCase"]

def numberNames : List String := ["toExponential", "toFixed", "toPrecision"]

def answeredNames : Value → List String
  | .list _ => listNames ++ inheritedNames
  | .str _ => textNames ++ inheritedNames
  | .int _ => numberNames ++ inheritedNames
  | .real _ => numberNames ++ inheritedNames
  | .null => []
  | _ => inheritedNames

def characters (s : String) : List Value := s.toList.map fun c => .str (String.singleton c)

def pieces (s : String) : List Value :=
  s.toList.flatMap fun c =>
    if c.toNat < 0x10000 then [.str (String.singleton c)] else [.str "\ufffd", .str "\ufffd"]

def ownMember? (v : Value) (key : String) : Option Value :=
  match v with
  | .dict entries => Entries.get? key entries
  | .list items => if key == "length" then some (.int items.length) else (indexKey? key).bind fun i => items[i]?
  | .str s =>
    let parts := pieces s
    if key == "length" then some (.int parts.length) else (indexKey? key).bind fun i => parts[i]?
  | _ => none

/-- What is read off a value under a name. A name that the value was not given reads as something
without fields. -/
def member? (v : Value) (key : String) : Option Value :=
  (ownMember? v key).or (if (answeredNames v).contains key then some (.dict []) else none)

end Rulewright.Flag
