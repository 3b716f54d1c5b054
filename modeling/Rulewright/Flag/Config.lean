import Rulewright.Flag.Tree
import Rulewright.Json.Printer
import Rulewright.Json.Reader
import Rulewright.Text.Search

/-!
Checking what the clean-up is given: the configuration with the methods that check flags, and the
name of the script.
-/

namespace Rulewright.Flag

inductive FileState where
  | missing
  | folder
  | text (contents : String)
  deriving Repr

inductive ConfigError where
  | notFound (name : String)
  | isFolder
  | notJson (name : String)
  | noMethods (name : String)
  | incomplete (name : String) (entry : Value) (key : String)
  | notScript (name : String)
  | malformed
  deriving Repr

mutual

def writtenOrder : Value → Value
  | .list items => .list (writtenOrderItems items)
  | .dict entries => .dict (numbersFirst (writtenOrderEntries entries))
  | v =>
    match canonical v with
    | .real (.infinite _) => .null
    | v => v

def writtenOrderItems : List Value → List Value
  | [] => []
  | v :: rest => writtenOrder v :: writtenOrderItems rest

def writtenOrderEntries : List (String × Value) → List (String × Value)
  | [] => []
  | (key, v) :: rest => (key, writtenOrder v) :: writtenOrderEntries rest

end

def ConfigError.message? : ConfigError → Option String
  | .notFound name => some ("File " ++ name ++ " not found")
  | .isFolder => some "EISDIR: illegal operation on a directory, read"
  | .notJson name => some (name ++ " does not follow JSON syntax")
  | .noMethods name => some ("The methodProperties property is missing in " ++ name)
  | .incomplete name entry key =>
    some (Json.render Json.compact (writtenOrder entry) ++ " in " ++ name ++ " doesn't have '" ++ key ++ "'")
  | .notScript name => some ("Input " ++ name ++ " is not a javascript file")
  | .malformed => none

def hasKey (key : String) : Value → Except ConfigError Bool
  | .dict entries => .ok (Entries.has key entries)
  | .list _ => .ok false
  | _ => .error .malformed

def requiredKeys : List String := ["methodName", "flagType", "argumentIndex"]

def firstIncomplete : List Value → Except ConfigError (Option Value)
  | [] => .ok none
  | m :: rest => do if ← hasKey "argumentIndex" m then firstIncomplete rest else return some m

def missingKey (entry : Value) : List String → Except ConfigError (Option String)
  | [] => .ok none
  | key :: rest => do if ← hasKey key entry then missingKey entry rest else return some key

def readConfig (name : String) (file : FileState) : Except ConfigError Value := do
  match file with
  | .missing => throw (.notFound name)
  | .folder => throw .isFolder
  | .text contents =>
    match Json.read false contents with
    | .error _ => throw (.notJson name)
    | .ok properties =>
      if ← hasKey "methodProperties" properties then
        match properties.field? "methodProperties" with
        | some (.list items) =>
          match ← firstIncomplete items with
          | none => return load properties
          | some entry => throw (.incomplete name entry ((← missingKey entry requiredKeys).getD "undefined"))
        | _ => throw .malformed
      else throw (.noMethods name)

def checkScript (name : String) (there : Bool) : Except ConfigError String :=
  if !there then .error (.notFound name)
  else if (Text.splitAt name ".").getLast? == some "js" then .ok name
  else .error (.notScript name)

end Rulewright.Flag
