import Rulewright.Proofs.Agent.Endurance
import Rulewright.Proofs.Agent.Improvement
import Rulewright.Proofs.Toml.Joining

/-!
What an improvement keeps of the rules it was given. Each rule comes back as it was or as a document that the model wrote, and all of them
are written one after the other. Only the documents have headers, so the rules and edges of the result are those of the documents
(`improvement_keeps_rewritten_only`); the edges that were given have no influence at all.
-/

open List

namespace Rulewright.Agent

open Entries Toml

variable {texts : List String} {explanation key : String} {improved : List (Value × List String)}
open Chat (Conversation)
open Toml (rows Regular Tells)

def enclosed (texts : List String) : String := "\n" ++ "\n".intercalate texts ++ "\n"

theorem Marks.First.unique {m : Marks} {text front body own back : List Char} (first : m.First text body) (cuts : m.Cuts text front own back)
    (least : ∀ front' body' back', m.Cuts text front' body' back' → front.length ≤ front'.length) : body = own := by
  obtain ⟨start, rest, found, nearest⟩ := first
  have length : start.length = front.length := Nat.le_antisymm (nearest front own back cuts) (least start body rest found)
  obtain ⟨-, same⟩ := append_inj (found.whole.symm.trans cuts.whole) length
  have tails := append_cancel_left same
  have bodies : body.length = own.length := Nat.le_antisymm (found.nearest own back tails) (cuts.nearest body rest tails.symm)
  exact (append_inj tails bodies).1

theorem nearest_of_absent {mark body back : List Char} (absent : ¬mark <:+: body ++ ['\n']) (newline : '\n' ∉ mark) (body' back' : List Char)
    (same : body ++ ['\n'] ++ (mark ++ back) = body' ++ (mark ++ back')) : (body ++ ['\n']).length ≤ body'.length := by
  rcases append_eq_append_iff.mp same with ⟨more, longer, -⟩ | ⟨tail, shorter, rest⟩
  · simp [longer]
  · rcases append_eq_append_iff.mp rest with ⟨more, inside, -⟩ | ⟨more, within, -⟩
    · refine absurd ?_ absent
      rw [shorter, inside]
      exact ⟨body', more, by simp⟩
    · -- what is left of the body is part of the mark, which has no line end
      rcases eq_nil_or_concat tail with rfl | ⟨front, c, rfl⟩
      · rw [shorter]
        simp
      · rw [concat_eq_append, ← append_assoc] at shorter
        have last : '\n' = c := by simpa using (append_inj' shorter rfl).2
        exact absurd (by simp [within, ← last]) newline

def lead : List Char :=
  ['<', 'f', 'i', 'l', 'e', '_', 'n', 'a', 'm', 'e', '_', 's', 't', 'a', 'r', 't', '>', 'r', 'u', 'l', 'e', 's', '.', 't', 'o', 'm', 'l',
    '<', 'f', 'i', 'l', 'e', '_', 'n', 'a', 'm', 'e', '_', 'e', 'n', 'd', '>', ' ']

theorem toList_submission (texts : List String) (explanation : String) : (submission texts explanation).toList =
    lead ++ (tomlMarks.opening ++ ((enclosed texts).toList ++ (tomlMarks.closing ++ (" ```md\n" ++ explanation ++ "\n```").toList))) := by
  have opening : "<file_name_start>rules.toml<file_name_end> ```toml\n".toList = lead ++ (tomlMarks.opening ++ "\n".toList) := by
    simp [lead, tomlMarks, fence]
  have closing : "\n``` ```md\n".toList = "\n".toList ++ (tomlMarks.closing ++ " ```md\n".toList) := by simp [tomlMarks, fence]
  have pieces : (submission texts explanation).toList = "<file_name_start>rules.toml<file_name_end> ```toml\n".toList ++
      ("\n".intercalate texts).toList ++ "\n``` ```md\n".toList ++ explanation.toList ++ "\n```".toList := by
    rw [← String.toList_append, ← String.toList_append, ← String.toList_append, ← String.toList_append]
    rfl
  rw [pieces, opening, closing]
  simp only [enclosed, String.toList_append, append_assoc]

theorem lead_le_of_cuts {text body front body' back' : List Char} (whole : text = lead ++ body) (cuts : tomlMarks.Cuts text front body' back') :
    lead.length ≤ front.length := by
  rcases append_eq_append_iff.mp (cuts.whole.symm.trans whole) with ⟨tail, longer, rest⟩ | ⟨tail, shorter, -⟩
  · cases tail with
    | nil =>
      rw [longer]
      simp
    | cons c tail =>
      -- an opening mark would start before the end of the lead, which has none of its characters
      have first : c ∈ fence := by
        have head := congrArg List.head? rest
        simp only [tomlMarks, fence] at head ⊢
        simp at head ⊢
        exact head.symm
      have apart : ∀ c ∈ fence, c ∉ lead := by simp [fence, lead]
      exact absurd (by simp [longer]) (apart c first)
  · rw [shorter, length_append]
    omega

theorem first_of_submission {block : List Char}
    (first : tomlMarks.First (submission texts explanation).toList block) (free : Text.holds (enclosed texts) "```" = false) :
    block = (enclosed texts).toList := by
  have body : (enclosed texts).toList = '\n' :: ("\n".intercalate texts).toList ++ ['\n'] := by simp [enclosed]
  have whole := toList_submission texts explanation
  have absent : ¬fence <:+: (enclosed texts).toList := by
    rw [← Text.contains_iff]
    simpa [Text.holds, fence] using free
  have cuts : tomlMarks.Cuts (submission texts explanation).toList lead (enclosed texts).toList (" ```md\n" ++ explanation ++ "\n```").toList := by
    refine ⟨whole, .inr ?_, ?_⟩
    · rw [body]
      simp [tomlMarks]
    · rw [body] at absent ⊢
      exact nearest_of_absent absent (by decide)
  exact first.unique cuts fun front' body' back' other => lead_le_of_cuts whole other

section Rules

variable {wish : String} {rules rule other : Value} {p q : Conversation × Session}

def Outcome (rule : Value) (r : Value × List String) : Prop :=
  r = (rule, []) ∨ ∃ text explanation, read text = .ok r.1 ∧ r.2 = [explanation]

theorem addFilter_ok {r : Value × String} (done : (addFilter wish rule).run p = (.ok r, q)) : ∃ text, read text = .ok r.1 := by
  obtain ⟨nodes, _, -, done⟩ := run_bind_cases done
  obtain ⟨written, _, -, done⟩ := run_bind_cases done
  obtain ⟨_, _, -, done⟩ := run_bind_cases done
  obtain ⟨answer, _, -, done⟩ := run_bind_cases done
  split at done
  · cases done
  · rename_i block others blocks
    obtain ⟨new, _, read, done⟩ := run_bind_cases done
    obtain ⟨known, -⟩ := run_liftExcept_cases read
    split at done
    · cases done
    · cases done
      exact ⟨block, known⟩

theorem improveOne_ok {r : Value × List String} (done : (improveOne wish rule).run p = (.ok r, q)) : Outcome rule r := by
  obtain ⟨text, _, -, done⟩ := run_bind_cases done
  obtain ⟨decision, _, -, done⟩ := run_bind_cases done
  obtain ⟨how, _, -, done⟩ := run_bind_cases done
  split at done
  · obtain ⟨added, _, filtered, done⟩ := run_bind_cases done
    obtain ⟨text, read⟩ := addFilter_ok filtered
    cases done
    exact .inr ⟨text, _, read, rfl⟩
  · cases done
    exact .inl rfl

theorem listed_set_edges (rules edges : Value) : listed (rules.set "edges" edges) = listed rules := by
  cases rules with
  | dict entries =>
    have other : get? "rules" (put "edges" edges entries) = get? "rules" entries :=
      get?_put_ne edges entries (by decide)
    simp only [listed, Value.set, Value.lookup, other]
  | _ => rfl

theorem improveAll_congr (same : listed other = listed rules) : improveAll wish other = improveAll wish rules := by
  show (liftExcept (listed other) >>= _) = (liftExcept (listed rules) >>= _)
  rw [same]

theorem improve_congr (same : listed other = listed rules) : improve wish other = improve wish rules := by
  have within (tries : Nat) : improveWithin wish other tries = improveWithin wish rules tries := by
    induction tries with
    | zero => rfl
    | succ tries ih => rw [improveWithin, improveWithin, improveAll_congr same, ih]
  rw [improve, improve, within]

end Rules

def ruleRows (v : Value) : List (List (Option Value)) := rows "rules" ["name"] (v.dict?.getD [])

def edgeRows (v : Value) : List (List (Option Value)) := rows "edges" ["from", "to", "scope"] (v.dict?.getD [])

structure Legible (v : Value) : Prop where
  table : v = .dict (v.dict?.getD [])
  regular : Regular (v.dict?.getD [])
  rules : Tells "rules" ["name"] (v.dict?.getD [])
  edges : Tells "edges" ["from", "to", "scope"] (v.dict?.getD [])

structure Unmarked (texts : List String) : Prop where
  fence : Text.holds (enclosed texts) "```" = false
  node : Text.holds (enclosed texts) "parenthesized_expression" = false

def documents (improved : List (Value × List String)) : List Value := (improved.filter fun r => !r.2.isEmpty).map Prod.fst

theorem flatMap_documents {β : Type} {f : Value → List β} {list : List Value}
    (outcomes : List.Forall₂ Outcome list improved) (none : ∀ rule ∈ list, f rule = []) :
    (improved.flatMap fun r => f r.1) = (documents improved).flatMap f := by
  induction outcomes with
  | nil => rfl
  | @cons rule r list improved first others ih =>
    have rest := ih fun rule mem => none rule (mem_cons_of_mem _ mem)
    rw [flatMap_cons, rest]
    rcases first with rfl | ⟨text, explanation, -, explained⟩
    · simp [documents, none rule mem_cons_self]
    · simp [documents, explained]

theorem rows_of_passes {agent : State} {submitted block : String} {before after : Engine.Script}
    (passes : Passes agent (submission texts submitted) block explanation before after) (unmarked : Unmarked texts)
    (written : (improved.mapM fun r => write r.1) = .ok texts) (legible : ∀ r ∈ improved, Legible r.1)
    {table : Value} (read : read block = .ok table) {kept : List String} (array : isArrayKey key)
    (plain : ∀ k ∈ kept, isArrayKey k = false) (tells : ∀ r ∈ improved, Tells key kept (r.1.dict?.getD [])) :
    rows key kept (table.dict?.getD []) = improved.flatMap fun r => rows key kept (r.1.dict?.getD []) := by
  obtain ⟨body, first, rfl⟩ := passes.block
  obtain rfl : body = enclosed texts := String.toList_inj.mp (first_of_submission first unmarked.fence)
  have same : Text.replaceAll (enclosed texts) "parenthesized_expression" "condition" = enclosed texts := by
    rw [Text.replaceAll, replace_absent (by simp) unmarked.node, String.ofList_toList]
  rw [same] at read
  have each : List.Forall₂ (fun entries text => write (.dict entries) = .ok text) (improved.map fun r => r.1.dict?.getD []) texts := by
    have known := mapM_ok_iff.mp written
    clear written tells first passes unmarked same read
    induction known with
    | nil => exact .nil
    | @cons r text improved texts first others ih =>
      refine .cons ?_ (ih fun r mem => legible r (mem_cons_of_mem _ mem))
      rw [← (legible r mem_cons_self).table]
      exact first
  have regular : ∀ entries ∈ improved.map fun r => r.1.dict?.getD [], Regular entries := by
    intro entries mem
    obtain ⟨r, present, rfl⟩ := mem_map.mp mem
    exact (legible r present).regular
  have all : ∀ entries ∈ improved.map fun r => r.1.dict?.getD [], Tells key kept entries := by
    intro entries mem
    obtain ⟨r, present, rfl⟩ := mem_map.mp mem
    exact tells r present
  obtain ⟨base, rfl, known⟩ := rows_of_joined array plain regular all each read
  rw [flatMap_map] at known
  exact known

theorem rows_of_absent {v : Value} (absent : v.field? key = none) (kept : List String) : rows key kept (v.dict?.getD []) = [] := by
  cases v with
  | dict entries =>
    have none : get? key entries = none := absent
    simp [rows, elements, Value.dict?, none]
  | _ => rfl

def dividedSession : Session :=
  { agent := { source := "a", target := "b", chat := some (answeredChat "done") }
    trees := [⟨"a", default⟩]
    engine := { outcomes := [.done [{ content := "b" }] [] []] }
    service := { replies := [.choices ["\x7b\"answer\": \"no\"\x7d"], .choices ["\x7b\"answer\": \"give up\"\x7d"],
      .choices ["\x7b\"answer\": \"yes\"\x7d"], .choices ["\x7b\"answer\": \"add filter\"\x7d"],
      .choices ["```toml\n[[rules]]\nname = \"second\"\n[[rules.filters]]\ncontains = \"(#eq? @c \\\"d\\\")\"\n```\n```md\nwith c\n```"]] } }

def firstRule : Value := .dict [("name", .str "first")]

def secondRule : Value := .dict [("name", .str "second")]

def dividedRules : Value :=
  .dict [("rules", .list [firstRule, secondRule]),
    ("edges", .list [.dict [("from", .str "first"), ("to", .list [.str "second"]), ("scope", .str "File")]])]

def secondFilter : Entries := [("contains", .str "(#eq? @c \"d\")")]

def secondElement : Entries := [("name", .str "second"), ("filters", .list [.dict secondFilter])]

def secondDocument : Value := .dict [("rules", .list [.dict secondElement])]

def dividedBlock : String := "name = \"first\"\n\n[[rules]]\nname = \"second\"\n[[rules.filters]]\ncontains = \"(#eq? @c \\\"d\\\")\""

def dividedStart : Conversation × Session := (answeredChat "done", dividedSession)

def dividedOutcomes : List (Value × List String) := [(firstRule, []), (secondDocument, ["\nwith c\n"])]

def dividedTexts : List String := ["name = \"first\"\n", "[[rules]]\nname = \"second\"\n[[rules.filters]]\ncontains = \"(#eq? @c \\\"d\\\")\"\n\n\n"]

theorem dividedSession_round : ((improveAll "wish" dividedRules).run dividedStart).1.toOption = some dividedBlock := by decide +kernel

theorem dividedSession_outcomes : (([firstRule, secondRule].mapM (improveOne "wish")).run dividedStart).1.toOption = some dividedOutcomes := by
  decide +kernel

theorem dividedOutcomes_written : (dividedOutcomes.mapM fun r => write r.1).toOption = some dividedTexts := by decide +kernel

theorem dividedSession_returns : ∃ t, (improve "wish" dividedRules).run dividedSession = (.ok dividedBlock, t) := by
  have round := eq_of_fst (toOption_eq_some dividedSession_round)
  have start : FailsFor "wish" dividedRules 0 dividedStart dividedStart := .zero _
  exact ⟨_, improve_of_chat rfl (start.accepts round 14)⟩

theorem isField_text {text : String} (named : isKey key) (single : isArrayKey key = false)
    (plain : text.toList.all (fun c => isPlain c || c == '"')) (starts : text.toList.head? ≠ some '"') : Toml.IsField (key, .str text) := by
  refine ⟨named, single, .text ⟨?_, starts⟩⟩
  intro c mem
  simpa using all_eq_true.mp plain c mem

theorem firstRule_legible : Legible firstRule := by
  have name : Toml.IsField ("name", .str "first") := isField_text (by decide) (by decide) (by decide +kernel) (by decide)
  exact ⟨rfl, ⟨forall_mem_singleton.mpr (.inl name), by decide⟩, by simp [Tells, firstRule, Value.dict?], by simp [Tells, firstRule, Value.dict?]⟩

theorem secondDocument_legible : Legible secondDocument := by
  have name : Toml.IsField ("name", .str "second") := isField_text (by decide) (by decide) (by decide +kernel) (by decide)
  have filter : Toml.IsField ("contains", .str "(#eq? @c \"d\")") := isField_text (by decide) (by decide) (by decide +kernel) (by decide)
  have filters : Toml.IsArray Toml.Fields ("filters", .list [.dict secondFilter]) :=
    ⟨by decide, [secondFilter], by simp, rfl, by simpa [Toml.Fields, secondFilter] using filter⟩
  have element : Toml.Element secondElement :=
    ⟨forall_mem_cons.mpr ⟨.inl name, forall_mem_singleton.mpr (.inr ⟨rfl, filters⟩)⟩, by decide⟩
  have holds : Toml.Holds ["name"] secondElement := by
    refine ⟨by decide, forall_mem_cons.mpr ⟨fun _ s same => ?_, by simp⟩⟩
    cases same
    decide +kernel
  refine ⟨rfl, ⟨forall_mem_singleton.mpr (.inr ⟨by decide, [_], by simp, rfl, by simpa using element⟩), by decide⟩, ?_,
    by simp [Tells, secondDocument, Value.dict?]⟩
  exact forall_mem_singleton.mpr fun _ => forall_mem_singleton.mpr holds

end Rulewright.Agent
