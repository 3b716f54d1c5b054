import Rulewright.Chat.Basic
import Rulewright.Json.Reader

/-!
Letting the model choose: it is told the options and has to answer with a JSON object that names one.
An answer that is not JSON is returned to it with an explanation, three answers at most.
-/

namespace Rulewright.Chat

structure Partner (σ : Type) where
  tell : String → σ → σ
  answer : σ → Except Failure String × σ

def model : Partner Dialogue where
  tell text d := { d with conversation := d.conversation.user text }
  answer d := respond.run d

def answerForm : String :=
  "\x7b\x7b\"reasoning\": \"<your reasoning>\", \"answer\": \"\x7boptions\x7d\"\x7d\x7d"

def answerFormFor (options : String) : String :=
  "\x7b\"reasoning\": \"<your reasoning>\", \"answer\": \"" ++ options ++ "\"\x7d"

def chosen (options : List String) (v : Value) : Except Failure String := do
  let answer ← v.lookup "answer" .null
  match answer with
  | .str s => if options.contains s then return s else throw (invalid answer)
  | answer => throw (invalid answer)
where
  invalid (answer : Value) : Failure :=
    .controller ("Invalid answer: " ++ answer.shown ++ ". Expected one of: " ++ Text.join ", " options ++ ".")

def complaint (options : List String) (words : String) : String :=
  "Error: " ++ words ++ ". Please respond in format: " ++ answerForm ++ "\nValid 'answer' options: " ++
    (Value.list (options.map .str)).written

def selectWithin (p : Partner σ) (options : List String) (total : Nat) : Nat → σ → Except Failure String × σ
  | 0, s => (.error (.controller ("Failed to get valid answer after " ++ toString total ++ " tries.")), s)
  | tries + 1, s =>
    match p.answer s with
    | (.error f, s) => (.error f, s)
    | (.ok text, s) =>
      match Json.read true text with
      | .ok v => (chosen options v, s)
      | .error e =>
        if e.isLimit then (.error (.badValue e.problem.message), s)
        else selectWithin p options total tries (p.tell (complaint options (e.message text)) s)

def select (p : Partner σ) (task : String) (options : List String) (s : σ) : Except Failure String × σ :=
  selectWithin p options 3 3 (p.tell task s)

def shouldImprove (p : Partner σ) (task rule : String) (s : σ) : Except Failure String × σ :=
  select p
    ("User requests improvements for: '" ++ task ++ "'.\nDoes the rule below need changes?\n\n" ++ rule ++
      "\nResponse format: " ++ answerFormFor "yes/no" ++ ". ")
    ["yes", "no"] s

def improvements : List String := ["add filter", "change query", "change replacement", "give up"]

def howToImprove (p : Partner σ) (rule : String) (s : σ) : Except Failure String × σ :=
  select p
    ("You opted to improve this rule:\n" ++ rule ++
      "\nChoose an improvement option and state your reasoning and selection. Response format: " ++
      answerFormFor (Text.join "/" improvements) ++ ".")
    improvements s

end Rulewright.Chat
