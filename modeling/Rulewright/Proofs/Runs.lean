import Rulewright.Failure
import Mathlib.Data.List.Forall2

/-!
Runs of operations that may fail, alone or with a state. A sequence succeeds exactly when its parts do, one after the other,
and stops at the first part that fails, in the state that part left.
-/

open List

namespace Rulewright

section Results

variable {ε α β : Type} {x : Except ε α} {f : α → Except ε β} {b : β} {a : α} {as : List α} {bs : List β} {g : α → Option β} {R : α → β → Prop}

theorem bind_cases (done : x >>= f = .ok b) : ∃ a, x = .ok a ∧ f a = .ok b := by
  cases x with
  | error e => cases done
  | ok a => exact ⟨a, rfl, done⟩

theorem bind_ok_iff : x >>= f = .ok b ↔ ∃ a, x = .ok a ∧ f a = .ok b := by
  refine ⟨bind_cases, ?_⟩
  rintro ⟨a, rfl, done⟩
  exact done

@[simp]
theorem toOption_ok (a : α) : (.ok a : Except ε α).toOption = some a := rfl

theorem toOption_eq_some (known : x.toOption = some a) : x = .ok a := by
  cases x with
  | error e => cases known
  | ok b =>
    cases known
    rfl

/-- What every result of a run satisfies. -/
def Gives (x : Except ε α) (Q : α → Prop) : Prop := ∀ a, x = .ok a → Q a

section Giving

variable {Q : α → Prop} {S : β → Prop} {y : Except ε α} {c : Bool}

theorem gives_pure (held : Q a) : Gives (pure a : Except ε α) Q := by
  rintro _ ⟨⟩
  exact held

theorem Gives.bind (next : ∀ a, x = .ok a → Gives (f a) S) : Gives (x >>= f) S := by
  intro b done
  obtain ⟨a, first, rest⟩ := bind_cases done
  exact next a first b rest

theorem Gives.ite (yes : c → Gives x Q) (no : c = false → Gives y Q) : Gives (if c then x else y) Q := by
  cases c with
  | true => exact yes rfl
  | false => exact no rfl

end Giving

theorem toOption_bind (x : Except ε α) (f : α → Except ε β) : (x >>= f).toOption = x.toOption.bind fun a => (f a).toOption := by
  cases x <;> rfl

theorem liftSource_ok {x : Except Source.Error α} (done : liftSource x = .ok a) : x = .ok a := by
  cases x with
  | error e => cases done
  | ok b =>
    cases done
    rfl

theorem mapM_cons_ok (head : f a = .ok b) (tail : as.mapM f = .ok bs) :
    (a :: as).mapM f = .ok (b :: bs) := by
  rw [mapM_cons, head, tail]
  rfl

theorem mapM_ok_iff : as.mapM f = .ok bs ↔ List.Forall₂ (fun a b => f a = .ok b) as bs := by
  induction as generalizing bs with
  | nil =>
    rw [forall₂_nil_left_iff]
    constructor
    · intro done
      cases done
      rfl
    · rintro rfl
      rfl
  | cons a as ih =>
    constructor
    · intro done
      rw [mapM_cons] at done
      obtain ⟨b, first, done⟩ := bind_cases done
      obtain ⟨rest, others, done⟩ := bind_cases done
      cases done
      exact .cons first (ih.mp others)
    · intro each
      cases each with
      | cons first others => exact mapM_cons_ok first (ih.mpr others)

theorem mapM_error {e : ε} (failed : as.mapM f = .error e) : ∃ a ∈ as, f a = .error e := by
  induction as with
  | nil => cases failed
  | cons a as ih =>
    rw [mapM_cons] at failed
    cases first : f a with
    | error e' =>
      rw [first] at failed
      cases failed
      exact ⟨a, mem_cons_self, first⟩
    | ok b =>
      cases others : as.mapM f with
      | error e' =>
        rw [first, others] at failed
        cases failed
        obtain ⟨a, inside, lost⟩ := ih others
        exact ⟨a, mem_cons_of_mem _ inside, lost⟩
      | ok bs =>
        rw [first, others] at failed
        cases failed

theorem forall₂_of_forall (each : ∀ a ∈ as, ∃ b, R a b) : ∃ bs, List.Forall₂ R as bs := by
  induction as with
  | nil => exact ⟨[], .nil⟩
  | cons a as ih =>
    obtain ⟨b, first⟩ := each a mem_cons_self
    obtain ⟨bs, others⟩ := ih fun a inside => each a (mem_cons_of_mem _ inside)
    exact ⟨b :: bs, .cons first others⟩

theorem forall₂_mem_left (related : List.Forall₂ R as bs)
    (inside : a ∈ as) : ∃ b ∈ bs, R a b := by
  induction related with
  | nil => cases inside
  | cons first _ ih =>
    rcases mem_cons.mp inside with rfl | inside
    · exact ⟨_, mem_cons_self, first⟩
    · obtain ⟨b, member, known⟩ := ih inside
      exact ⟨b, mem_cons_of_mem _ member, known⟩

/-- The run has a result. -/
def Succeeds (x : Except ε α) : Prop := ∃ a, x = .ok a

theorem succeeds_pure (a : α) : Succeeds (pure a : Except ε α) := ⟨a, rfl⟩

theorem succeeds_bind_iff : Succeeds (x >>= f) ↔ ∃ a, x = .ok a ∧ Succeeds (f a) := by
  simp only [Succeeds, bind_ok_iff]
  exact exists_comm.trans (exists_congr fun _ => exists_and_left)

theorem succeeds_map_iff {k : α → β} : Succeeds (x >>= fun a => pure (k a)) ↔ Succeeds x :=
  succeeds_bind_iff.trans (exists_congr fun _ => and_iff_left (succeeds_pure _))

theorem Succeeds.bind (first : Succeeds x) (next : ∀ a, x = .ok a → Succeeds (f a)) : Succeeds (x >>= f) :=
  succeeds_bind_iff.mpr (first.imp fun a done => ⟨done, next a done⟩)

theorem Succeeds.ite {y : Except ε α} {c : Bool} (yes : c → Succeeds x) (no : c = false → Succeeds y) :
    Succeeds (if c then x else y) := by
  cases c with
  | true => exact yes rfl
  | false => exact no rfl

theorem succeeds_mapM_iff : Succeeds (as.mapM f) ↔ ∀ a ∈ as, Succeeds (f a) := by
  constructor
  · rintro ⟨bs, done⟩ a inside
    obtain ⟨b, -, known⟩ := forall₂_mem_left (mapM_ok_iff.mp done) inside
    exact ⟨b, known⟩
  · intro each
    exact (forall₂_of_forall each).imp fun _ => mapM_ok_iff.mpr

def FailsOnly (kind : ε → Prop) (x : Except ε α) : Prop := ∀ e, x = .error e → kind e

section Failing

variable {kind : ε → Prop}

theorem failsOnly_ok (a : α) : FailsOnly kind (.ok a : Except ε α) := by
  intro e failed
  cases failed

theorem failsOnly_error {e : ε} (known : kind e) : FailsOnly kind (.error e : Except ε α) := by
  intro e failed
  cases failed
  exact known

theorem failsOnly_bind_iff : FailsOnly kind (x >>= f) ↔ FailsOnly kind x ∧ ∀ a, x = .ok a → FailsOnly kind (f a) := by
  cases x with
  | error e =>
    refine ⟨fun fails => ⟨fun e' same => fails e' ?_, fun a wrong => ?_⟩, fun fails e' same => fails.1 e' ?_⟩
    · cases same
      rfl
    · cases wrong
    · cases same
      rfl
  | ok a =>
    refine ⟨fun fails => ⟨failsOnly_ok a, fun b same => ?_⟩, fun fails => fails.2 a rfl⟩
    cases same
    exact fails

theorem FailsOnly.bind (first : FailsOnly kind x) (next : ∀ a, FailsOnly kind (f a)) : FailsOnly kind (x >>= f) :=
  failsOnly_bind_iff.mpr ⟨first, fun a _ => next a⟩

theorem FailsOnly.mapM {as : List α} (each : ∀ a, FailsOnly kind (f a)) : FailsOnly kind (as.mapM f) := by
  intro e failed
  obtain ⟨a, -, lost⟩ := mapM_error failed
  exact each a e lost

theorem FailsOnly.foldlM {g : β → α → Except ε β} (each : ∀ b a, FailsOnly kind (g b a)) (as : List α) (b : β) :
    FailsOnly kind (as.foldlM g b) := by
  induction as generalizing b with
  | nil => exact failsOnly_ok b
  | cons a as ih =>
    exact (each b a).bind ih

theorem FailsOnly.ite {p : Prop} [Decidable p] {y : Except ε α} (first : FailsOnly kind x) (second : FailsOnly kind y) :
    FailsOnly kind (if p then x else y) := by
  split
  · exact first
  · exact second

end Failing

theorem mapM_ok_map {γ : Type} {g : β → γ} {h : α → γ} (each : ∀ a ∈ as, ∃ b, f a = .ok b ∧ g b = h a) :
    ∃ bs, as.mapM f = .ok bs ∧ bs.map g = as.map h := by
  obtain ⟨bs, both⟩ := forall₂_of_forall each
  refine ⟨bs, mapM_ok_iff.mpr (both.imp fun _ _ => And.left), ?_⟩
  rw [← forall₂_eq_eq_eq, forall₂_map_left_iff, forall₂_map_right_iff]
  exact both.flip.imp fun _ _ => And.right

theorem mapM_congr {m : Type → Type} [Monad m] [LawfulMonad m] {γ : Type} {f g : α → m γ} (each : ∀ a ∈ as, f a = g a) : as.mapM f = as.mapM g := by
  induction as with
  | nil => simp
  | cons a as ih =>
    rw [mapM_cons, mapM_cons, each a mem_cons_self, ih fun a mem => each a (mem_cons_of_mem _ mem)]

theorem mapM_some_iff : as.mapM g = some bs ↔ List.Forall₂ (fun a b => g a = some b) as bs := by
  induction as generalizing bs with
  | nil =>
    rw [forall₂_nil_left_iff]
    exact Option.some_inj.trans eq_comm
  | cons a as ih =>
    rw [mapM_cons]
    simp only [bind, Option.bind_eq_some_iff, ih, pure, Option.some.injEq, forall₂_cons_left_iff]
    constructor
    · rintro ⟨b, first, rest, others, rfl⟩
      exact ⟨b, rest, first, others, rfl⟩
    · rintro ⟨b, rest, first, others, rfl⟩
      exact ⟨b, first, rest, others, rfl⟩

theorem mapM_related_iff :
    (∃ bs, as.mapM g = some bs ∧ List.Forall₂ R as bs) ↔ ∀ a ∈ as, ∃ b, g a = some b ∧ R a b := by
  constructor
  · rintro ⟨bs, read, related⟩
    rw [mapM_some_iff] at read
    induction related with
    | nil => simp
    | cons first _ ih =>
      obtain ⟨known, others⟩ := forall₂_cons.mp read
      intro a mem
      rcases mem_cons.mp mem with rfl | mem
      · exact ⟨_, known, first⟩
      · exact ih others a mem
  · intro each
    obtain ⟨bs, both⟩ := forall₂_of_forall each
    exact ⟨bs, mapM_some_iff.mpr (both.imp fun _ _ => And.left), both.imp fun _ _ => And.right⟩

theorem mapM_toOption {γ : Type} (g : α → Option β) (h : β → Except ε γ) (as : List α) :
    ((as.mapM g).bind fun bs => (bs.mapM h).toOption) = as.mapM fun a => (g a).bind fun b => (h b).toOption := by
  induction as with
  | nil => rfl
  | cons a as ih =>
    rw [mapM_cons, mapM_cons, ← ih]
    cases g a with
    | none => rfl
    | some b =>
      cases as.mapM g with
      | none => simp
      | some bs =>
        change ((b :: bs).mapM h).toOption = _
        rw [mapM_cons]
        simp only [toOption_bind]
        rfl

theorem forall₂_imp_mem {S : α → β → Prop} (related : List.Forall₂ R as bs)
    (each : ∀ a ∈ as, ∀ b, R a b → S a b) : List.Forall₂ S as bs := by
  induction related with
  | nil => exact .nil
  | cons first _ ih => exact .cons (each _ mem_cons_self _ first) (ih fun a mem => each a (mem_cons_of_mem _ mem))

theorem forall₂_mem_right (related : List.Forall₂ R as bs)
    (inside : b ∈ bs) : ∃ a ∈ as, R a b := forall₂_mem_left related.flip inside

end Results

section Runs

variable {σ α β : Type} {x : ExceptT Failure (StateM σ) α} {f : α → ExceptT Failure (StateM σ) β} {s t u : σ} {a : α}
  {b : β} {e : Failure} {r : Except Failure α}

theorem run_bind_ok (done : x.run s = (.ok a, t)) : (x >>= f).run s = (f a).run t := by
  change (ExceptT.bindCont f (x.run s).1) (x.run s).2 = _
  rw [done]
  rfl

theorem run_bind_error (failed : x.run s = (.error e, t)) : (x >>= f).run s = (.error e, t) := by
  change (ExceptT.bindCont f (x.run s).1) (x.run s).2 = _
  rw [failed]
  rfl

theorem eq_of_fst {o : Except Failure α × σ} (known : o.1 = .ok a) : o = (.ok a, o.2) := Prod.ext known rfl

theorem run_get : (get : ExceptT Failure (StateM σ) σ).run s = (.ok s, s) := rfl

theorem run_modify (g : σ → σ) : (modify g : ExceptT Failure (StateM σ) PUnit).run s = (.ok ⟨⟩, g s) := rfl

theorem run_liftExcept (known : r = .ok a) :
    (liftExcept r : ExceptT Failure (StateM σ) α).run s = (.ok a, s) := by
  rw [known]
  rfl

theorem run_liftExcept_cases (done : (liftExcept r : ExceptT Failure (StateM σ) α).run s = (.ok a, t)) :
    r = .ok a ∧ s = t := by
  have same : (r, s) = (Except.ok a, t) := done
  exact ⟨congrArg Prod.fst same, congrArg Prod.snd same⟩

theorem run_lift (done : x.run s = (r, t)) :
    (ExceptT.lift x.run : ExceptT Failure (StateM σ) (Except Failure α)).run s = (.ok r, t) := by
  have known : x s = (r, t) := done
  simp only [ExceptT.lift, ExceptT.run, ExceptT.mk, Functor.map, StateT.map, known]
  rfl

theorem run_bind_cases (done : (x >>= f).run s = (.ok b, u)) :
    ∃ a t, x.run s = (.ok a, t) ∧ (f a).run t = (.ok b, u) := by
  generalize first : x.run s = o
  obtain ⟨r, t⟩ := o
  cases r with
  | error e =>
    rw [run_bind_error first] at done
    cases done
  | ok a => exact ⟨a, t, rfl, (run_bind_ok first).symm.trans done⟩

theorem run_mapM_cases {as : List α} {bs : List β} (done : (as.mapM f).run s = (.ok bs, t)) :
    List.Forall₂ (fun a b => ∃ s t, (f a).run s = (.ok b, t)) as bs := by
  induction as generalizing s bs with
  | nil =>
    cases done
    exact .nil
  | cons a as ih =>
    rw [mapM_cons] at done
    obtain ⟨b, s₁, first, done⟩ := run_bind_cases done
    obtain ⟨rest, s₂, others, done⟩ := run_bind_cases done
    cases done
    exact .cons ⟨s, s₁, first⟩ (ih others)

variable {handle : Failure → ExceptT Failure (StateM σ) α}

theorem run_tryCatch_ok (done : x.run s = (.ok a, t)) : (tryCatch x handle).run s = (.ok a, t) := by
  have known : x s = (.ok a, t) := done
  simp only [tryCatch, tryCatchThe, MonadExceptOf.tryCatch, ExceptT.tryCatch, ExceptT.run, ExceptT.mk, bind, StateT.bind,
    known]
  rfl

theorem run_tryCatch_error (failed : x.run s = (.error e, t)) : (tryCatch x handle).run s = (handle e).run t := by
  have known : x s = (.error e, t) := failed
  simp only [tryCatch, tryCatchThe, MonadExceptOf.tryCatch, ExceptT.tryCatch, ExceptT.run, ExceptT.mk, bind, StateT.bind,
    known]

theorem run_tryCatch_cases (done : (tryCatch x handle).run s = (.ok a, u)) :
    x.run s = (.ok a, u) ∨ ∃ e t, x.run s = (.error e, t) ∧ (handle e).run t = (.ok a, u) := by
  generalize first : x.run s = o
  obtain ⟨r, t⟩ := o
  cases r with
  | error e => exact .inr ⟨e, t, rfl, (run_tryCatch_error first).symm.trans done⟩
  | ok b =>
    rw [run_tryCatch_ok first] at done
    exact .inl done

def FailsOnlyIn (kind : Failure → Prop) (x : ExceptT Failure (StateM σ) α) (s : σ) : Prop := ∀ e t, x.run s = (.error e, t) → kind e

variable {kind : Failure → Prop}

theorem failsOnlyIn_ok (done : x.run s = (.ok a, t)) : FailsOnlyIn kind x s := by
  intro e u failed
  rw [done] at failed
  cases failed

theorem failsOnlyIn_error_iff (failed : x.run s = (.error e, t)) : FailsOnlyIn kind x s ↔ kind e := by
  constructor
  · intro fails
    exact fails e t failed
  · intro known e' u failed'
    rw [failed] at failed'
    cases failed'
    exact known

theorem failsOnlyIn_bind_iff :
    FailsOnlyIn kind (x >>= f) s ↔ FailsOnlyIn kind x s ∧ ∀ a t, x.run s = (.ok a, t) → FailsOnlyIn kind (f a) t := by
  generalize first : x.run s = o
  obtain ⟨r, t⟩ := o
  cases r with
  | error e =>
    rw [failsOnlyIn_error_iff first, failsOnlyIn_error_iff (run_bind_error first)]
    refine ⟨fun known => ⟨known, fun a u wrong => ?_⟩, And.left⟩
    cases wrong
  | ok a =>
    simp only [FailsOnlyIn, run_bind_ok first]
    constructor
    · intro fails
      refine ⟨failsOnlyIn_ok first, fun b u same => ?_⟩
      cases same
      exact fails
    · intro fails
      exact fails.2 a t rfl

end Runs

section Keeping

variable {σ γ α β : Type} {view : σ → γ} {x y : ExceptT Failure (StateM σ) α} {f : α → ExceptT Failure (StateM σ) β}

def Keeps (view : σ → γ) (x : ExceptT Failure (StateM σ) α) : Prop := ∀ s, view (x.run s).2 = view s

theorem Keeps.bind (first : Keeps view x) (next : ∀ a, Keeps view (f a)) : Keeps view (x >>= f) := by
  intro s
  have kept := first s
  generalize done : x.run s = o at kept
  obtain ⟨r, t⟩ := o
  cases r with
  | error e =>
    rw [run_bind_error done]
    exact kept
  | ok a =>
    rw [run_bind_ok done]
    exact (next a t).trans kept

theorem keeps_lift (r : Except Failure α) : Keeps view (liftExcept r) := fun _ => rfl

theorem keeps_pure (a : α) : Keeps view (pure a) := fun _ => rfl

theorem keeps_throw (e : Failure) : Keeps view (throw e : ExceptT Failure (StateM σ) α) := fun _ => rfl

theorem keeps_get : Keeps view get := fun _ => rfl

theorem Keeps.tryCatch {handle : Failure → ExceptT Failure (StateM σ) α} (first : Keeps view x) (next : ∀ e, Keeps view (handle e)) :
    Keeps view (tryCatch x handle) := by
  intro s
  have kept := first s
  generalize done : x.run s = o at kept
  obtain ⟨r, t⟩ := o
  cases r with
  | error e =>
    rw [run_tryCatch_error done]
    exact (next e t).trans kept
  | ok a =>
    rw [run_tryCatch_ok done]
    exact kept

theorem Keeps.ite {p : Prop} [Decidable p] (first : Keeps view x) (second : Keeps view y) :
    Keeps view (if p then x else y) := by
  split
  · exact first
  · exact second

theorem Keeps.mapM {as : List α} (each : ∀ a, Keeps view (f a)) : Keeps view (as.mapM f) := by
  induction as with
  | nil => exact keeps_pure _
  | cons a as ih =>
    rw [mapM_cons]
    apply (each a).bind
    intro b
    apply ih.bind
    intro bs
    exact keeps_pure _

theorem view_bind (view : σ → γ) (x : ExceptT Failure (StateM σ) α) (next : ∀ a, Keeps view (f a)) (s : σ) : view ((x >>= f).run s).2 = view (x.run s).2 := by
  generalize done : x.run s = o
  obtain ⟨r, t⟩ := o
  cases r with
  | error e => rw [run_bind_error done]
  | ok a =>
    rw [run_bind_ok done]
    exact next a t

def KeepsOnFailure (view : σ → γ) (x : ExceptT Failure (StateM σ) α) : Prop := ∀ s e t, x.run s = (.error e, t) → view t = view s

theorem Keeps.before (first : Keeps view x) (next : ∀ a, KeepsOnFailure view (f a)) : KeepsOnFailure view (x >>= f) := by
  intro s e u failed
  have kept := first s
  generalize done : x.run s = o at kept
  obtain ⟨r, t⟩ := o
  cases r with
  | error e' =>
    rw [run_bind_error done] at failed
    cases failed
    exact kept
  | ok a =>
    rw [run_bind_ok done] at failed
    exact (next a t e u failed).trans kept

end Keeping

end Rulewright
