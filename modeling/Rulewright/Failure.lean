import Rulewright.Source.Node
import Rulewright.Value.Show

/-!
Why an operation on rules, documents or conversations fails, and the words it is reported with.
-/

namespace Rulewright

inductive Shape where
  | null
  | bool
  | int
  | real
  | str
  | day
  | clock
  | dayTime
  | list
  | dict
  | set
  deriving DecidableEq, Repr

def Shape.name : Shape → String
  | .null => "NoneType"
  | .bool => "bool"
  | .int => "int"
  | .real => "float"
  | .str => "str"
  | .day => "datetime.date"
  | .clock => "datetime.time"
  | .dayTime => "datetime.datetime"
  | .list => "list"
  | .dict => "dict"
  | .set => "set"

def Value.shape : Value → Shape
  | .null => .null
  | .bool _ => .bool
  | .int _ => .int
  | .real _ => .real
  | .str _ => .str
  | .moment (.day _) => .day
  | .moment (.clock _) => .clock
  | .moment (.both _ _ _) => .dayTime
  | .list _ => .list
  | .dict _ => .dict

inductive Failure where
  | missingKey (key : Value)
  | notIterable (shape : Shape)
  | notSubscriptable (shape : Shape)
  | wrongIndex (container index : Shape)
  | unhashable (shape : Shape)
  | notSerializable (shape : Shape)
  | noAttribute (shape : Shape) (name : String)
  | outOfRange (container : Shape)
  | wrongFields
  | wrongArguments (words : String)
  | wrongType (field : String)
  | notAllowed (field : String) (allowed : List String) (value : Value)
  | outOfBounds (words : String)
  | badValue (words : String)
  | overflow (words : String)
  | unbound
  | badToml (words : String)
  | source (e : Source.Error)
  | notSupported
  | assertion
  | exhausted
  | external (words : String)
  | timeout
  | agent (words : String)
  | chat (words : String)
  | controller (words : String)
  | refactoring (cause : Failure)
  | missingFile
  | isFolder
  | notFolder
  | system (words : String)
  | exit (code : Value)
  deriving Repr

def fieldCard (field options : String) : String :=
  "Attribute(name='" ++ field ++ "', default=NOTHING, validator=<in_ validator with options " ++ options ++
    ">, repr=True, eq=True, eq_key=None, order=True, order_key=None, hash=None, init=True, " ++
    "metadata=mappingproxy(\x7b\x7d), type=None, converter=None, kw_only=False, inherited=False, on_setattr=None)"

def Failure.words : Failure → String
  | .missingKey key => key.written
  | .notIterable s => "'" ++ s.name ++ "' object is not iterable"
  | .notSubscriptable s => "'" ++ s.name ++ "' object is not subscriptable"
  | .wrongIndex .str index => "string indices must be integers, not '" ++ index.name ++ "'"
  | .wrongIndex container index => container.name ++ " indices must be integers or slices, not " ++ index.name
  | .unhashable s => "unhashable type: '" ++ s.name ++ "'"
  | .notSerializable s => "Object of type " ++ s.name ++ " is not JSON serializable"
  | .noAttribute s name => "'" ++ s.name ++ "' object has no attribute '" ++ name ++ "'"
  | .outOfRange .str => "string index out of range"
  | .outOfRange container => container.name ++ " index out of range"
  | .wrongFields => "wrong fields"
  | .wrongArguments words => words
  | .wrongType field => "'" ++ field ++ "' has the wrong type"
  | .notAllowed field allowed value =>
    let options := (Value.list (allowed.map .str)).written
    let reason := "'" ++ field ++ "' must be in " ++ options ++ " (got " ++ value.written ++ ")"
    "(" ++ Text.quoted reason ++ ", " ++ fieldCard field options ++ ", " ++ options ++ ", " ++ value.written ++ ")"
  | .outOfBounds words => words
  | .badValue words => words
  | .overflow words => words
  | .unbound => "cannot access local variable 'value' where it is not associated with a value"
  | .badToml words => words
  | .source .noCommonAncestor => "Nodes have no common ancestor"
  | .source (.undecodable u) => u.words
  | .source .noNodes => ""
  | .notSupported => ""
  | .assertion => ""
  | .exhausted => ""
  | .external words => words
  | .timeout => ""
  | .agent words => words
  | .chat words => words
  | .controller words => words
  | .refactoring .timeout => "Piranha is likely in an infinite loop. Please check your rules."
  | .refactoring cause => cause.words
  | .missingFile => "No such file or directory"
  | .isFolder => "Is a directory"
  | .notFolder => "Not a directory"
  | .system words => words
  | .exit code => code.shown

def liftExcept [Monad m] (r : Except Failure α) : ExceptT Failure m α := ExceptT.mk (pure r)

def liftSource (r : Except Source.Error α) : Except Failure α :=
  match r with
  | .ok a => .ok a
  | .error e => .error (.source e)

end Rulewright
