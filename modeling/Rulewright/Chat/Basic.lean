import Rulewright.Chat.Prompt
import Rulewright.Value.Compare

/-!
Conversations with a chat model. The service behind them is asked for completions; it may be busy, and
then it is asked again, three times at most.
-/

namespace Rulewright.Chat

structure Message where
  role : String
  content : String
  deriving DecidableEq, Repr

inductive Reply where
  | choices (texts : List String)
  | busy
  | broken (words : String)
  deriving DecidableEq, Repr

structure Request where
  model : Value
  samples : Value
  messages : Nat
  last : String
  deriving DecidableEq, Repr

structure Service where
  replies : List Reply := []
  asked : List Request := []
  deriving DecidableEq, Repr

structure Conversation where
  messages : List Message
  model : Value
  deriving DecidableEq, Repr

namespace Conversation

def say (c : Conversation) (role content : String) : Conversation :=
  { c with messages := c.messages ++ [{ role, content }] }

def user (c : Conversation) (content : String) : Conversation := c.say "user" content

def assistant (c : Conversation) (content : String) : Conversation := c.say "assistant" content

end Conversation

def Holes.ofTable (v : Value) : Except Failure Holes := do
  match v with
  | .dict _ =>
    let sourceCode ← v.demand "source_code"
    let sourceTree ← v.demand "source_tree"
    let targetTree ← v.demand "target_tree"
    let diff ← v.demand "diff"
    let rules ← v.demand "rules"
    let hints ← v.demand "hints"
    return {
      sourceCode := sourceCode.shown, sourceTree := sourceTree.shown, targetTree := targetTree.shown
      diff := diff.shown, rules := rules.shown, hints := hints.shown }
  | _ => throw .wrongFields

def opening (examples : String) (h : Holes) : String := explanation ++ "\n" ++ examples ++ "\n" ++ taskPrompt h

def models : List String := ["gpt-4", "gpt-4-32k", "gpt-3.5-turbo-16k"]

def compareWith (sign : String) (bound : Int) (v : Value) (onInt : Int → Bool) (onReal : Double → Bool) :
    Except Failure Unit :=
  let verdict (ok : Bool) : Except Failure Unit :=
    if ok then .ok ()
    else .error (.outOfBounds ("'temperature' must be " ++ sign ++ " " ++ toString bound ++ ": " ++ v.shown))
  match v with
  | .int n => verdict (onInt n)
  | .bool b => verdict (onInt (if b then 1 else 0))
  | .real x => verdict (onReal x)
  | v => .error (.wrongArguments
      ("'" ++ sign ++ "' not supported between instances of '" ++ v.shape.name ++ "' and 'int'"))

def checkTemperature (v : Value) : Except Failure Unit := do
  compareWith ">=" 0 v (0 ≤ ·) fun x => x != .nan && !x.ltInt 0
  compareWith "<=" 1 v (· ≤ 1) fun x => x != .nan && !x.gtInt 1

def checkModel (v : Value) : Except Failure Unit :=
  if models.any fun m => v == .str m then .ok () else .error (.notAllowed "model" models v)

def defaultModel : Value := .str "gpt-4-32k"

def start (examples : String) (holes : Value) (earlier : List Message) (model : Value) :
    Except Failure Conversation := do
  let h ← Holes.ofTable holes
  return { messages := earlier ++ [{ role := "user", content := opening examples h }], model }

def startChecked (examples : String) (holes : Value) (earlier : List Message) (temperature model : Value) :
    Except Failure Conversation := do
  checkTemperature temperature
  checkModel model
  start examples holes earlier model

structure Dialogue where
  conversation : Conversation
  service : Service

abbrev DialogueM := ExceptT Failure (StateM Dialogue)

def request (samples : Value) : DialogueM Reply := do
  let d ← get
  let asked : Request :=
    { model := d.conversation.model, samples, messages := d.conversation.messages.length
      last := (d.conversation.messages.getLast?.map Message.content).getD "" }
  set { d with service := { replies := d.service.replies.drop 1, asked := d.service.asked ++ [asked] } }
  return d.service.replies.head?.getD .busy

def completion (samples : Value) : Nat → DialogueM (List String)
  | 0 => throw (.chat "Failed to get completion from GPT.")
  | tries + 1 => do
    match ← request samples with
    | .choices texts => return texts
    | .busy => completion samples tries
    | .broken words => throw (.external words)

def maxTries : Nat := 3

def respond : DialogueM String := do
  let d ← get
  match d.conversation.messages.getLast? with
  | none => throw (.outOfRange .list)
  | some last =>
    if last.role == "assistant" then return last.content
    else
      match ← completion (.int 1) maxTries with
      | [] => throw (.outOfRange .list)
      | text :: _ =>
        modify fun d => { d with conversation := d.conversation.assistant text }
        return text

end Rulewright.Chat
