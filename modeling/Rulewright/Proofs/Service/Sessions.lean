import Rulewright.Proofs.Service.Handling
import Mathlib.Data.List.Induction

/-!
The sessions of the server. Every connection has one, until its client disconnects, and in it the agent of the client's last inference
that ended well. Whatever else clients send, and however it ends, no session changes (`sessions_follow_events`).
-/

open List

namespace Rulewright.Service

def Server.inferred? (s : Server) (data : Value) : Option Agent.State :=
  match RequestKind.infer.read data with
  | .error _ => none
  | .ok d =>
    match Agent.inferStatically.run (s.session (newAgent d)) with
    | (.error _, _) => none
    | (.ok _, t) =>
      match Agent.infer.run t with
      | (.error _, _) => none
      | (.ok _, u) => some u.agent

inductive Mark where
  | connected
  | disconnected
  | inferred (agent : Agent.State)
  | nothing

def Server.mark (s : Server) : Event → Mark
  | .connect => .connected
  | .disconnect => .disconnected
  | .request .infer data => ((s.inferred? data).map Mark.inferred).getD .nothing
  | .request _ _ => .nothing
  | .other => .nothing

def Visit.after (v : Visit) (client : Nat) (m : Mark) : Option Visit :=
  if v.client = some client then
    match m with
    | .connected => some { v with client := none }
    | .disconnected => none
    | .inferred agent => some { v with agent := some agent }
    | .nothing => some v
  else some v

def opened (client : Nat) : Mark → List Visit
  | .connected => [{ client := some client }]
  | .disconnected => []
  | .inferred _ => []
  | .nothing => []

def Server.next (s : Server) (client : Nat) (event : Event) : Server := ((receive client event).run s).2

def Distinct (visits : List Visit) : Prop := visits.Pairwise fun v w => v.client = none ∨ v.client ≠ w.client

section Events

variable {s t : Server} {client : Nat} {event : Event} {visits : List Visit} {v : Visit} {m : Mark} {data : Value} {r : Except Failure Unit}

theorem mark_request_cases (s : Server) (k : RequestKind) (data : Value) :
    s.mark (.request k data) = .nothing ∨
      ∃ agent, k = .infer ∧ s.inferred? data = some agent ∧ s.mark (.request k data) = .inferred agent := by
  cases k with
  | infer =>
    rw [Server.mark]
    cases s.inferred? data with
    | none => exact .inl rfl
    | some agent => exact .inr ⟨agent, rfl, rfl, rfl⟩
  | _ => exact .inl rfl

theorem mark_request_ne (s : Server) (k : RequestKind) (data : Value) :
    s.mark (.request k data) ≠ .connected ∧ s.mark (.request k data) ≠ .disconnected := by
  rcases mark_request_cases s k data with same | ⟨agent, -, -, same⟩
  · rw [same]
    exact ⟨fun wrong => (by cases wrong), fun wrong => (by cases wrong)⟩
  · rw [same]
    exact ⟨fun wrong => (by cases wrong), fun wrong => (by cases wrong)⟩

theorem mark_connected_iff : s.mark event = .connected ↔ event = .connect := by
  cases event with
  | connect => exact iff_of_true rfl rfl
  | request k data => exact iff_of_false (mark_request_ne s k data).1 (fun wrong => by cases wrong)
  | _ => exact iff_of_false (fun wrong => by cases wrong) (fun wrong => by cases wrong)

theorem mark_disconnected_iff : s.mark event = .disconnected ↔ event = .disconnect := by
  cases event with
  | disconnect => exact iff_of_true rfl rfl
  | request k data => exact iff_of_false (mark_request_ne s k data).2 (fun wrong => by cases wrong)
  | _ => exact iff_of_false (fun wrong => by cases wrong) (fun wrong => by cases wrong)

theorem opened_of_ne (other : m ≠ .connected) : opened client m = [] := by
  cases m with
  | connected => exact absurd rfl other
  | _ => rfl

theorem after_nothing : v.after client .nothing = some v := by
  unfold Visit.after
  split <;> rfl

theorem after_of_ne (other : v.client ≠ some client) : v.after client m = some v := if_neg other

theorem filterMap_after_nothing (visits : List Visit) : visits.filterMap (·.after client .nothing) = visits := by
  simp only [after_nothing, filterMap_some]

theorem filterMap_after_unknown (unknown : ∀ v ∈ visits, v.client ≠ some client) : visits.filterMap (·.after client m) = visits := by
  rw [filterMap_congr fun v inside => after_of_ne (unknown v inside), filterMap_some]

theorem filterMap_after_inferred (agent : Agent.State) (visits : List Visit) :
    visits.filterMap (·.after client (.inferred agent)) = stored client agent visits := by
  rw [stored, ← filterMap_eq_map]
  refine filterMap_congr fun v _ => ?_
  simp only [Visit.after, Function.comp_apply]
  split <;> rfl

theorem Distinct.find? (distinct : Distinct visits) (inside : v ∈ visits) (own : v.client = some client) :
    visits.find? (·.client = some client) = some v := by
  induction visits with
  | nil => cases inside
  | cons w rest ih =>
    obtain ⟨apart, others⟩ := pairwise_cons.mp distinct
    rcases mem_cons.mp inside with rfl | later
    · simp [own]
    · have differs : w.client ≠ some client := by
        intro same
        rcases apart v later with none | differs
        · rw [same] at none
          cases none
        · exact differs (same.trans own.symm)
      rw [find?_cons_of_neg (by simpa using differs), ih others later]

theorem stored_same {agent : Agent.State} (distinct : Distinct s.visits) (found : s.agent? client = some agent) :
    stored client agent s.visits = s.visits := by
  refine (map_congr_left fun v inside => ?_).trans (map_id _)
  split
  · rename_i own
    rw [Server.agent?, distinct.find? inside own] at found
    have same : v.agent = some agent := found
    rw [← same, id]
  · rfl

theorem serve_visits (k : RequestKind) (data : Value) :
    ((k.serve client data).run s).2.visits = ((k.work client data).run s).2.visits := by
  generalize ran : (k.work client data).run s = o
  obtain ⟨r, t⟩ := o
  cases r with
  | ok _ => rw [serve_done ran]
  | error f =>
    by_cases tells : k.Tells f
    · rw [serve_told ran tells]
    · rw [serve_untold ran tells]

theorem InferEnds.inferred? (ends : InferEnds client data s r t) :
    (∃ agent, r = .ok () ∧ s.inferred? data = some agent ∧ t.visits = stored client agent s.visits) ∨
      (∃ f, r = .error f) ∧ s.inferred? data = none ∧ t.visits = s.visits := by
  cases ends with
  | unread refused => exact .inr ⟨⟨_, rfl⟩, by simp only [Server.inferred?, refused], rfl⟩
  | unbuilt read failed => exact .inr ⟨⟨_, rfl⟩, by simp only [Server.inferred?, read, failed], rfl⟩
  | unfinished read built failed => exact .inr ⟨⟨_, rfl⟩, by simp only [Server.inferred?, read, built, failed], rfl⟩
  | done read built inferred => exact .inl ⟨_, rfl, by simp only [Server.inferred?, read, built, inferred], rfl⟩

theorem inferRules_visits (data : Value) :
    ((inferRules client data).run s).2.visits = s.visits.filterMap (·.after client (s.mark (.request .infer data))) := by
  rcases (inferRules_ends client data s).inferred? with ⟨agent, -, inferred, visits⟩ | ⟨-, inferred, visits⟩
  · rw [visits, Server.mark, inferred, Option.map_some, Option.getD_some, filterMap_after_inferred]
  · rw [visits, Server.mark, inferred, Option.map_none, Option.getD_none, filterMap_after_nothing]

theorem engine_visits {k : RequestKind} {α : Type} {act : Entries → Engine.EngineM α} {message : α → Message}
    (ends : EngineEnds data s k act message r t) : t.visits = s.visits := by
  cases ends <;> rfl

theorem work_visits (distinct : Distinct s.visits) (k : RequestKind) (data : Value) :
    ((k.work client data).run s).2.visits = s.visits.filterMap (·.after client (s.mark (.request k data))) := by
  have unmarked (other : k ≠ .infer) (same : ((k.work client data).run s).2.visits = s.visits) :
      ((k.work client data).run s).2.visits = s.visits.filterMap (·.after client (s.mark (.request k data))) := by
    rcases mark_request_cases s k data with nothing | ⟨_, infers, -⟩
    · rw [same, nothing, filterMap_after_nothing]
    · exact absurd infers other
  cases k with
  | infer => exact inferRules_visits data
  | improve =>
    apply unmarked (by decide)
    have ends := improveRules_ends client data s
    change ((improveRules client data).run s).2.visits = s.visits
    generalize (improveRules client data).run s = o at ends
    obtain ⟨r, t⟩ := o
    cases ends with
    | unread refused => rfl
    | agentless read none => rfl
    -- the agent failed, and it is put back as it was
    | unimproved read found => exact stored_same distinct found
  | refactor => exact unmarked (by decide) (engine_visits (refactorFolder_ends data s))
  | snippet => exact unmarked (by decide) (engine_visits (testRules_ends data s))

theorem next_visits (distinct : Distinct s.visits) (client : Nat) (event : Event) :
    (s.next client event).visits = s.visits.filterMap (·.after client (s.mark event)) ++ opened client (s.mark event) := by
  unfold Server.next
  by_cases allowed : event = .connect ∨ s.IsConnected client
  · rw [run_receive event allowed]
    cases event with
    | connect =>
      change s.visits.map _ ++ [({ client := some client } : Visit)] = _
      rw [← filterMap_eq_map]
      refine congrArg (· ++ [_]) (filterMap_congr fun v _ => ?_)
      simp only [Function.comp_apply, Visit.after, Server.mark]
      split <;> rfl
    | disconnect =>
      change s.visits.filter _ = _
      rw [Server.mark, opened, append_nil, ← filterMap_eq_filter]
      refine filterMap_congr fun v _ => ?_
      by_cases own : v.client = some client
      · simp [Visit.after, own]
      · simp [Visit.after, own]
    | request k data =>
      rw [opened_of_ne (mark_request_ne s k data).1, append_nil]
      exact (serve_visits k data).trans (work_visits distinct k data)
    | other =>
      rw [Server.mark, filterMap_after_nothing, opened, append_nil]
      rfl
  -- nobody listens to a client without a session
  · obtain ⟨other, unknown⟩ := not_or.mp allowed
    rw [run_receive_unknown other unknown, filterMap_after_unknown fun v inside own => unknown ⟨v, inside, own⟩,
      opened_of_ne fun wrong => other (mark_connected_iff.mp wrong), append_nil]

theorem after_client_iff (v : Visit) (m : Mark) (c : Nat) :
    (∃ w, v.after client m = some w ∧ w.client = some c) ↔ v.client = some c ∧ ¬(c = client ∧ (m = .connected ∨ m = .disconnected)) := by
  by_cases own : v.client = some client
  · cases m with
    | connected | disconnected => simp [Visit.after, own, eq_comm]
    | inferred | nothing => simp [Visit.after, own]
  · simp only [after_of_ne own, Option.some.injEq, exists_eq_left', iff_self_and]
    rintro same ⟨rfl, -⟩
    exact own same

theorem opened_client_iff (c : Nat) : (∃ w ∈ opened client m, w.client = some c) ↔ c = client ∧ m = .connected := by
  cases m with
  | connected => simp [opened, eq_comm]
  | _ => simp [opened]

theorem Distinct.next (distinct : Distinct s.visits) (client : Nat) (event : Event) :
    Distinct (s.next client event).visits := by
  rw [next_visits distinct]
  refine pairwise_append.mpr ⟨distinct.filterMap _ ?_, ?_, ?_⟩
  · intro v v' apart w becomes w' becomes'
    cases owner : w.client with
    | none => exact .inl rfl
    | some c =>
      refine .inr fun same => ?_
      have own := ((after_client_iff v _ c).mp ⟨w, becomes, owner⟩).1
      have own' := ((after_client_iff v' _ c).mp ⟨w', becomes', same.symm⟩).1
      rcases apart with none | differs
      · rw [own] at none
        cases none
      · exact differs (own.trans own'.symm)
  · cases s.mark event with
    | connected => exact pairwise_singleton _ _
    | _ => exact .nil
  -- if the client had a session, it was left behind
  · intro w inside w' fresh
    obtain ⟨v, -, becomes⟩ := mem_filterMap.mp inside
    cases owner : w.client with
    | none => exact .inl rfl
    | some c =>
      refine .inr fun same => ?_
      obtain ⟨mine, connects⟩ := (opened_client_iff c).mp ⟨w', fresh, same.symm⟩
      exact ((after_client_iff v _ c).mp ⟨w, becomes, owner⟩).2 ⟨mine, .inl connects⟩

theorem isConnected_next_iff (distinct : Distinct s.visits) (client : Nat) (event : Event) (c : Nat) :
    (s.next client event).IsConnected c ↔
      (c = client ∧ event = .connect) ∨ s.IsConnected c ∧ ¬(c = client ∧ event = .disconnect) := by
  have split : (s.next client event).IsConnected c ↔
      (∃ v ∈ s.visits, ∃ w, v.after client (s.mark event) = some w ∧ w.client = some c) ∨
        ∃ w ∈ opened client (s.mark event), w.client = some c := by
    rw [Server.IsConnected, next_visits distinct]
    simp only [mem_append, mem_filterMap, or_and_right, exists_or]
    refine or_congr_left ⟨?_, ?_⟩
    · rintro ⟨w, ⟨v, inside, becomes⟩, owner⟩
      exact ⟨v, inside, w, becomes, owner⟩
    · rintro ⟨v, inside, w, becomes, owner⟩
      exact ⟨w, ⟨v, inside, becomes⟩, owner⟩
  simp only [split, after_client_iff, opened_client_iff, mark_connected_iff, mark_disconnected_iff]
  constructor
  · rintro (⟨v, inside, own, kept⟩ | opens)
    · exact .inr ⟨⟨v, inside, own⟩, fun closes => kept ⟨closes.1, .inr closes.2⟩⟩
    · exact .inl opens
  · rintro (opens | ⟨⟨v, inside, own⟩, kept⟩)
    · exact .inr opens
    · by_cases opens : c = client ∧ event = .connect
      · exact .inr opens
      · refine .inl ⟨v, inside, own, ?_⟩
        rintro ⟨mine, connects | disconnects⟩
        · exact opens ⟨mine, connects⟩
        · exact kept ⟨mine, disconnects⟩

end Events

def receiveAll (s : Server) (events : List (Nat × Event)) : Server := events.foldl (fun s e => s.next e.1 e.2) s

def Server.history (s : Server) : List (Nat × Event) → List (Nat × Mark)
  | [] => []
  | e :: rest => (e.1, s.mark e.2) :: history (s.next e.1 e.2) rest

def Visit.fate (v : Visit) : List (Nat × Mark) → Option Visit
  | [] => some v
  | e :: rest => (v.after e.1 e.2).bind fun w => fate w rest

def sessions : List (Nat × Mark) → List Visit
  | [] => []
  | e :: rest => (opened e.1 e.2).filterMap (·.fate rest) ++ sessions rest

def IsOn (client : Nat) (events : List (Nat × Event)) : Prop :=
  ∃ before after, events = before ++ (client, .connect) :: after ∧ (client, .disconnect) ∉ after

section Sequences

variable {s : Server} {client : Nat} {events : List (Nat × Event)}

theorem receiveAll_visits (distinct : Distinct s.visits) (events : List (Nat × Event)) :
    (receiveAll s events).visits = s.visits.filterMap (·.fate (s.history events)) ++ sessions (s.history events) := by
  induction events generalizing s with
  | nil => simp [receiveAll, Server.history, Visit.fate, sessions]
  | cons e rest ih =>
    have step := next_visits distinct e.1 e.2
    have later := ih (distinct.next e.1 e.2)
    rw [receiveAll, foldl_cons, ← receiveAll, later, step, filterMap_append, filterMap_filterMap, append_assoc]
    rfl

theorem distinct_receiveAll (distinct : Distinct s.visits) (events : List (Nat × Event)) : Distinct (receiveAll s events).visits := by
  induction events generalizing s with
  | nil => exact distinct
  | cons e rest ih => exact ih (distinct.next e.1 e.2)

theorem isOn_concat_iff (c client : Nat) (event : Event) (events : List (Nat × Event)) :
    IsOn c (events ++ [(client, event)]) ↔ (c = client ∧ event = .connect) ∨ IsOn c events ∧ ¬(c = client ∧ event = .disconnect) := by
  constructor
  · rintro ⟨before, after, whole, stays⟩
    rcases eq_nil_or_concat after with rfl | ⟨front, last, rfl⟩
    · obtain ⟨-, same⟩ := append_inj' whole rfl
      cases same
      exact .inl ⟨rfl, rfl⟩
    · rw [concat_eq_append, ← cons_append, ← append_assoc] at whole
      rw [concat_eq_append] at stays
      obtain ⟨rfl, same⟩ := append_inj' whole rfl
      cases same
      refine .inr ⟨⟨before, front, rfl, fun closed => stays (mem_append_left _ closed)⟩, ?_⟩
      rintro ⟨rfl, rfl⟩
      exact stays (mem_append_right _ mem_cons_self)
  · rintro (⟨rfl, rfl⟩ | ⟨⟨before, after, rfl, stays⟩, kept⟩)
    · exact ⟨events, [], rfl, not_mem_nil⟩
    · refine ⟨before, after ++ [(client, event)], by simp, fun closed => ?_⟩
      rcases mem_append.mp closed with closed | closed
      · exact stays closed
      · cases mem_singleton.mp closed
        exact kept ⟨rfl, rfl⟩

theorem distinct_from_start (world : Agent.World) (events : List (Nat × Event)) : Distinct (receiveAll { world } events).visits :=
  distinct_receiveAll (s := { world }) List.Pairwise.nil events

theorem isConnected_iff_isOn (world : Agent.World) (events : List (Nat × Event)) (client : Nat) :
    (receiveAll { world } events).IsConnected client ↔ IsOn client events := by
  induction events using List.reverseRecOn with
  | nil => simp [receiveAll, Server.IsConnected, IsOn]
  | append_singleton events e ih =>
    rw [isOn_concat_iff, ← ih, ← isConnected_next_iff (distinct_from_start world events)]
    simp only [receiveAll, foldl_append, foldl_cons, foldl_nil]

end Sequences

def Server.sessionOf? (s : Server) (client : Nat) : Option (Option Agent.State) := (s.visits.find? (·.client = some client)).map Visit.agent

section Clients

variable {s t : Server} {client : Nat} {event : Event}

theorem sessionOf?_isSome_iff : (s.sessionOf? client).isSome ↔ s.IsConnected client := by
  simp [Server.sessionOf?, Server.IsConnected, find?_isSome]

theorem sessionOf?_of_not_connected (unknown : ¬s.IsConnected client) : s.sessionOf? client = none := by
  rw [← sessionOf?_isSome_iff] at unknown
  simpa using unknown

section

variable (distinct : Distinct s.visits) {other : Nat}
include distinct

theorem sessionOf?_eq_some_iff {a : Option Agent.State} : s.sessionOf? client = some a ↔ ∃ v ∈ s.visits, v.client = some client ∧ v.agent = a := by
  rw [Server.sessionOf?, Option.map_eq_some_iff]
  constructor
  · rintro ⟨v, found, same⟩
    exact ⟨v, mem_of_find?_eq_some found, by simpa using find?_some found, same⟩
  · rintro ⟨v, inside, own, same⟩
    exact ⟨v, distinct.find? inside own, same⟩

theorem next_visits_of_nothing (client : Nat) (nothing : s.mark event = .nothing) : (s.next client event).visits = s.visits := by
  rw [next_visits distinct, nothing, filterMap_after_nothing, opened, append_nil]

theorem mem_next (event : Event) {v : Visit} (inside : v ∈ s.visits) (other : v.client ≠ some client) : v ∈ (s.next client event).visits := by
  rw [next_visits distinct]
  exact mem_append_left _ (mem_filterMap.mpr ⟨v, inside, after_of_ne other⟩)

theorem mem_of_mem_next {w : Visit} (inside : w ∈ (s.next client event).visits) (own : w.client = some other) (differs : other ≠ client) : w ∈ s.visits := by
  rw [next_visits distinct] at inside
  rcases mem_append.mp inside with old | fresh
  · obtain ⟨v, known, becomes⟩ := mem_filterMap.mp old
    have before := ((after_client_iff v _ other).mp ⟨w, becomes, own⟩).1
    rw [after_of_ne fun mine => differs (Option.some.inj (before.symm.trans mine))] at becomes
    exact Option.some.inj becomes ▸ known
  · exact absurd ((opened_client_iff other).mp ⟨w, fresh, own⟩).1 differs

theorem sessionOf?_next_of_ne (event : Event) (differs : other ≠ client) :
    (s.next client event).sessionOf? other = s.sessionOf? other := by
  ext a
  rw [sessionOf?_eq_some_iff distinct, sessionOf?_eq_some_iff (distinct.next client event)]
  constructor
  · rintro ⟨w, inside, own, same⟩
    exact ⟨w, mem_of_mem_next distinct inside own differs, own, same⟩
  · rintro ⟨v, inside, own, same⟩
    exact ⟨v, mem_next distinct event inside fun mine => differs (Option.some.inj (own.symm.trans mine)), own, same⟩

end

theorem mark_of_failed {k : RequestKind} {data : Value} {f : Failure} (failed : (k.work client data).run s = (.error f, t)) :
    s.mark (.request k data) = .nothing := by
  rcases mark_request_cases s k data with nothing | ⟨agent, rfl, inferred, -⟩
  · exact nothing
  · have ends := inferRules_ends client data s
    rw [show (inferRules client data).run s = (.error f, t) from failed] at ends
    rcases ends.inferred? with ⟨_, wrong, -⟩ | ⟨-, none, -⟩
    · cases wrong
    · rw [none] at inferred
      cases inferred

end Clients

structure Settles (s : Server) (client : Nat) (event : Event) : Prop where
  kept : ∀ v ∈ s.visits, v.client ≠ some client → v ∈ (s.next client event).visits
  others : ∀ other ≠ client, (s.next client event).sessionOf? other = s.sessionOf? other
  connect : event = .connect → (s.next client event).sessionOf? client = some none
  disconnect : event = .disconnect → (s.next client event).sessionOf? client = none
  infer : ∀ data agent, event = .request .infer data → s.inferred? data = some agent → s.IsConnected client →
    (s.next client event).sessionOf? client = some (some agent)
  quiet : event ≠ .connect → event ≠ .disconnect → (∀ data, event = .request .infer data → s.inferred? data = none) →
    (s.next client event).visits = s.visits
  failed : ∀ k data f t, event = .request k data → (k.work client data).run s = (.error f, t) → (s.next client event).visits = s.visits

theorem settles {s : Server} (distinct : Distinct s.visits) (client : Nat) (event : Event) : Settles s client event := by
  have later := distinct.next client event
  refine ⟨fun v inside => mem_next distinct event inside, fun other => sessionOf?_next_of_ne distinct event, ?_, ?_, ?_, ?_, ?_⟩
  · rintro rfl
    rw [sessionOf?_eq_some_iff later]
    exact ⟨_, mem_append_right _ mem_cons_self, rfl, rfl⟩
  · rintro rfl
    apply sessionOf?_of_not_connected
    rw [isConnected_next_iff distinct]
    simp
  · rintro data agent rfl inferred ⟨v, inside, own⟩
    have mark : s.mark (.request .infer data) = .inferred agent := by
      rw [Server.mark, inferred]
      rfl
    rw [sessionOf?_eq_some_iff later, next_visits distinct, mark]
    refine ⟨{ v with agent := some agent }, mem_append_left _ (mem_filterMap.mpr ⟨v, inside, ?_⟩), own, rfl⟩
    rw [Visit.after, if_pos own]
  · intro notConnect notDisconnect uninferred
    apply next_visits_of_nothing distinct
    cases event with
    | connect => exact absurd rfl notConnect
    | disconnect => exact absurd rfl notDisconnect
    | request k data =>
      rcases mark_request_cases s k data with nothing | ⟨agent, rfl, inferred, -⟩
      · exact nothing
      · rw [uninferred data rfl] at inferred
        cases inferred
    | other => rfl
  · rintro k data f t rfl failed
    exact next_visits_of_nothing distinct client (mark_of_failed failed)

/-- After any events of any clients, however each of them ended, the server has a session for every connection that was not closed, and
one of its own for exactly the clients that connected and have not disconnected since. A further event leaves the sessions of other clients
as they are; the client's own is empty after it connects, gone after it disconnects, and gets a new agent only from an inference that
ends well. Anything else, and whatever fails, changes no session. -/
theorem sessions_follow_events (world : Agent.World) (events : List (Nat × Event)) :
    (receiveAll { world } events).visits = sessions (Server.history { world } events) ∧
      Distinct (receiveAll { world } events).visits ∧
      (∀ client, ((receiveAll { world } events).sessionOf? client).isSome = true ↔ IsOn client events) ∧
      ∀ client event, Settles (receiveAll { world } events) client event := by
  have distinct := distinct_from_start world events
  refine ⟨?_, distinct, fun client => ?_, settles distinct⟩
  · exact receiveAll_visits (s := { world }) List.Pairwise.nil events
  · rw [sessionOf?_isSome_iff, isConnected_iff_isOn]

end Rulewright.Service
