import Rulewright.Value.Moment

/-!
Structured data: what a JSON or TOML document holds. Tables keep their entries in order.
-/

namespace Rulewright

inductive Value where
  | null
  | bool (b : Bool)
  | int (n : Int)
  | real (x : Double)
  | str (s : String)
  | moment (m : Moment)
  | list (items : List Value)
  | dict (entries : List (String × Value))
  deriving Inhabited, Repr

abbrev Entries := List (String × Value)

namespace Entries

def get? (key : String) : Entries → Option Value
  | [] => none
  | (k, v) :: rest => if k = key then some v else get? key rest

def put (key : String) (value : Value) : Entries → Entries
  | [] => [(key, value)]
  | (k, v) :: rest => if k = key then (k, value) :: rest else (k, v) :: put key value rest

def erase (key : String) (entries : Entries) : Entries := entries.filter (fun e => e.1 != key)

def has (key : String) (entries : Entries) : Bool := (get? key entries).isSome

theorem get?_put_self (key : String) (value : Value) (entries : Entries) :
    get? key (put key value entries) = some value := by
  induction entries with
  | nil => simp [put, get?]
  | cons e rest ih =>
    obtain ⟨k, v⟩ := e
    by_cases h : k = key <;> simp [put, get?, h, ih]

theorem get?_put_ne {key other : String} (value : Value) (entries : Entries) (h : other ≠ key) :
    get? other (put key value entries) = get? other entries := by
  induction entries with
  | nil => simp [put, get?, h.symm]
  | cons e rest ih =>
    obtain ⟨k, v⟩ := e
    by_cases hk : k = key
    · subst hk
      simp [put, get?, h.symm]
    · by_cases ho : k = other
      · subst ho
        simp [put, get?, hk]
      · simp [put, get?, hk, ho, ih]

theorem mem_of_get? {key : String} {v : Value} {entries : Entries} (read : get? key entries = some v) :
    (key, v) ∈ entries := by
  induction entries with
  | nil => simp [get?] at read
  | cons e rest ih =>
    obtain ⟨k, w⟩ := e
    by_cases same : k = key
    · subst same
      simp only [get?, if_true, Option.some.injEq] at read
      simp [read]
    · simp only [get?, if_neg same] at read
      exact List.mem_cons_of_mem _ (ih read)

end Entries

namespace Value

def field? : Value → String → Option Value
  | .dict entries, key => Entries.get? key entries
  | _, _ => none

def set (v : Value) (key : String) (value : Value) : Value :=
  match v with
  | .dict entries => .dict (Entries.put key value entries)
  | v => v

def unset (v : Value) (key : String) : Value :=
  match v with
  | .dict entries => .dict (Entries.erase key entries)
  | v => v

def str? : Value → Option String
  | .str s => some s
  | _ => none

def list? : Value → Option (List Value)
  | .list items => some items
  | _ => none

def dict? : Value → Option Entries
  | .dict entries => some entries
  | _ => none

def bool? : Value → Option Bool
  | .bool b => some b
  | _ => none

def int? : Value → Option Int
  | .int n => some n
  | _ => none

mutual

def same : Value → Value → Bool
  | .null, .null => true
  | .bool a, .bool b => a == b
  | .int a, .int b => a == b
  | .real a, .real b => a == b
  | .str a, .str b => a == b
  | .moment a, .moment b => a == b
  | .list as, .list bs => sameItems as bs
  | .dict as, .dict bs => sameEntries as bs
  | _, _ => false

def sameItems : List Value → List Value → Bool
  | [], [] => true
  | a :: as, b :: bs => same a b && sameItems as bs
  | _, _ => false

def sameEntries : List (String × Value) → List (String × Value) → Bool
  | [], [] => true
  | (k, a) :: as, (l, b) :: bs => k == l && same a b && sameEntries as bs
  | _, _ => false

end

mutual

theorem same_iff : ∀ a b : Value, same a b = true ↔ a = b
  | .null, b => by cases b <;> simp [same]
  | .bool a, b => by cases b <;> simp [same]
  | .int a, b => by cases b <;> simp [same]
  | .real a, b => by cases b <;> simp [same]
  | .str a, b => by cases b <;> simp [same]
  | .moment a, b => by cases b <;> simp [same]
  | .list as, b => by cases b <;> simp [same, sameItems_iff as]
  | .dict as, b => by cases b <;> simp [same, sameEntries_iff as]

theorem sameItems_iff : ∀ as bs : List Value, sameItems as bs = true ↔ as = bs
  | [], bs => by cases bs <;> simp [sameItems]
  | a :: as, bs => by cases bs <;> simp [sameItems, same_iff a, sameItems_iff as]

theorem sameEntries_iff : ∀ as bs : List (String × Value), sameEntries as bs = true ↔ as = bs
  | [], bs => by cases bs <;> simp [sameEntries]
  | (k, a) :: as, bs => by
    cases bs with
    | nil => simp [sameEntries]
    | cons b bs =>
      obtain ⟨l, b⟩ := b
      simp [sameEntries, same_iff a, sameEntries_iff as]

end

instance : DecidableEq Value := fun a b => decidable_of_iff _ (same_iff a b)

end Value
end Rulewright
