import Rulewright.Rule.Graph
import Rulewright.Toml.Writer

/-!
What a client may send: each kind of request has its fields, and each field a check.
-/

namespace Rulewright.Service

inductive Check where
  | text
  | language
  | rules
  deriving DecidableEq, Repr

def languages : List String := ["kt", "java"]

def Check.run (c : Check) (field : String) (v : Value) : Except Failure Unit :=
  match c, v with
  | .text, .str _ => .ok ()
  | .text, _ => .error (.wrongType field)
  | .language, v => if languages.any fun l => v == .str l then .ok () else .error (.notAllowed field languages v)
  | .rules, v =>
    if Graph.isText v then .ok ()
    else .error (.badValue "Invalid rule format. Please refer to the rule format in the README")

inductive RequestKind where
  | infer
  | improve
  | refactor
  | snippet
  deriving DecidableEq, Repr

def RequestKind.fields : RequestKind → List (String × Check)
  | .infer => [("source_code", .text), ("target_code", .text), ("language", .language)]
  | .improve => [("language", .language), ("requirements", .text), ("rules", .rules)]
  | .refactor => [("language", .language), ("folder_path", .text), ("rules", .rules)]
  | .snippet => [("language", .language), ("source_code", .text), ("rules", .rules)]

def gather (data : Entries) : List (String × Check) → Except Failure Entries
  | [] => .ok []
  | (field, _) :: rest => do
    match Entries.get? field data with
    | none => throw .wrongFields
    | some v => return (field, v) :: (← gather data rest)

def checkAll (data : Entries) : List (String × Check) → Except Failure Unit
  | [] => .ok ()
  | (field, c) :: rest => do
    c.run field ((Entries.get? field data).getD .null)
    checkAll data rest

def tidyRules (data : Entries) : Except Failure Entries := do
  let rules := (Entries.get? "rules" data).getD .null
  return Entries.put "rules" (.str (← Toml.write (← Toml.read rules.shown))) data

def RequestKind.read (k : RequestKind) (data : Value) : Except Failure Entries := do
  match data with
  | .dict entries =>
    let fields ← gather entries k.fields
    if !entries.all fun e => k.fields.any (·.1 == e.1) then throw .wrongFields
    checkAll fields k.fields
    if k = .improve then tidyRules fields else return fields
  | _ => throw .wrongFields

end Rulewright.Service
