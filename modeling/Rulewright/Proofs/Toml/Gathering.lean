import Rulewright.Proofs.Toml.Parts

/-!
What is gathered when the pieces of documents are read one after the other. A field goes into the table that was read last, wherever it was
written for; a table under a header goes into its array. So what the tables of an array hold under some keys is known from the headers and
the fields that follow them (`Reads.rows_of_readChars`).
-/

open List

namespace Rulewright.Toml

open Entries Entry

def row (kept : List String) (v : Value) : List (Option Value) := kept.map v.field?

def rows (key : String) (kept : List String) (entries : Entries) : List (List (Option Value)) := (elements key entries).map (row kept)

def Exact (v : Value) : Prop := ∀ s, v = .str s → '\n' ∉ s.toList

structure Holds (kept : List String) (fields : Entries) : Prop where
  present : ∀ key ∈ kept, Entries.has key fields = true
  exact : ∀ e ∈ fields, e.1 ∈ kept → Exact e.2

theorem Field.exact {key : String} {v w : Value} (field : Field v) (exact : Exact v) (read : (Entry.ofValue key v).value = some w) : w = v := by
  cases field with
  | @text s one =>
    rw [Entry.ofValue, if_neg (exact s rfl)] at read
    cases read
    rfl
  | @lines s several => exact absurd several (exact s rfl)
  | number n =>
    simp only [Entry.ofValue, Entry.number] at read
    split at read
    · exact (Option.some.inj read).symm
    · cases read
  | truth b =>
    cases read
    rfl
  | texts each =>
    cases read
    rfl

def leading : List Piece → Entries
  | .field key v :: rest => (key, v) :: leading rest
  | _ => []

@[simp] theorem leading_header (path : List String) (rest : List Piece) : leading (.header path :: rest) = [] := rfl

@[simp] theorem leading_blank (rest : List Piece) : leading (.blank :: rest) = [] := rfl

/-- Pieces that can be read inside a table of the array `current`, and the rows that their headers open. -/
inductive Reads (key : String) (kept : List String) : Option String → List Piece → List (List (Option Value)) → Prop
  | nil {current : Option String} : Reads key kept current [] []
  | blank {current : Option String} {rest : List Piece} {found : List (List (Option Value))} (later : Reads key kept current rest found) :
      Reads key kept current (.blank :: rest) found
  | field {current : Option String} {rest : List Piece} {found : List (List (Option Value))} {name : String} {v : Value} (field : IsField (name, v))
      (later : Reads key kept current rest found) : Reads key kept current (.field name v :: rest) found
  | element {current : Option String} {rest : List Piece} {found : List (List (Option Value))} {name : String} (array : isArrayKey name = true)
      (holds : name = key → Holds kept (leading rest)) (later : Reads key kept (some name) rest found) :
      Reads key kept current (.header [name] :: rest) ((if name = key then [row kept (.dict (leading rest))] else []) ++ found)
  | filters {rest : List Piece} {found : List (List (Option Value))} {name : String} (array : isArrayKey name = true)
      (later : Reads key kept (some name) rest found) : Reads key kept (some name) (.header [name, "filters"] :: rest) found

inductive Spot where
  | top
  | outer {name : String} (named : name.isEmpty = false) (base : Entries) (items : List Value)
  | inner {name : String} (named : name.isEmpty = false) (base : Entries) (items : List Value) (own : Entries) (filters : List Value)

namespace Spot

def place : Spot → Place
  | .top => .start
  | .outer named base items => Place.start.below named base items
  | .inner named base items own filters => (Place.start.below named base items).below (show "filters".isEmpty = false by decide) own filters

def array? : Spot → Option String
  | .top => none
  | @outer name _ _ _ => some name
  | @inner name _ _ _ _ _ => some name

def base (spot : Spot) (entries : Entries) : Entries := (spot.place.root entries).dict?.getD []

def Opens (key : String) : Spot → Prop
  | @outer name _ _ _ => name = key
  | _ => False

end Spot

/-- The row of a table that is being read is complete once the pending fields are there, and these are read as they are. -/
structure Owes (key : String) (kept : List String) (spot : Spot) (entries pending : Entries) : Prop where
  present : spot.Opens key → ∀ k ∈ kept, has k (entries ++ pending) = true
  exact : spot.Opens key → ∀ e ∈ pending, e.1 ∈ kept → has e.1 entries = false → Exact e.2

section Gathering

variable {key name : String} {kept : List String} {current : Option String} {pieces rest : List Piece} {found : List (List (Option Value))}
  {spot : Spot} {entries changed : Entries} {fuel : Nat} {r : Reading} {v w : Value}

theorem rows_put (name : String) (items : List Value) (v : Value) (base : Entries) :
    rows key kept (put name (.list (items ++ [v])) base) = if name = key then items.map (row kept) ++ [row kept v] else rows key kept base := by
  split
  · rename_i same
    simp [rows, elements, same, get?_put_self]
  · rename_i apart
    rw [rows, elements, get?_put_ne _ _ (Ne.symm apart), rows, elements]

theorem row_put (other : name ∉ kept) (v : Value) (entries : Entries) : row kept (.dict (put name v entries)) = row kept (.dict entries) :=
  map_congr_left fun _ mem => get?_put_ne v entries fun same => other (same ▸ mem)

theorem Spot.root_eq (spot : Spot) (entries : Entries) : spot.place.root entries = .dict (spot.base entries) := by
  cases spot <;> rfl

theorem Spot.exists_element (known : spot.array? = some name) (entries : Entries) :
    ∃ named : name.isEmpty = false, ∃ base items own, spot.place.root entries = (Place.start.below named base items).root own := by
  cases spot with
  | top => cases known
  | outer named base items =>
    cases known
    exact ⟨named, base, items, entries, rfl⟩
  | inner named base items own filters =>
    cases known
    exact ⟨named, base, items, _, rfl⟩

theorem Spot.rows_congr (plain : "filters" ∉ kept) (top : get? key changed = get? key entries)
    (own : spot.Opens key → ∀ k ∈ kept, get? k changed = get? k entries) :
    rows key kept (spot.base changed) = rows key kept (spot.base entries) := by
  cases spot with
  | top =>
    show rows key kept changed = rows key kept entries
    rw [rows, elements, top, rows, elements]
  | @outer name named base items =>
    show rows key kept (put name _ base) = rows key kept (put name _ base)
    rw [rows_put, rows_put]
    split
    · rename_i same
      rw [show row kept (.dict changed) = row kept (.dict entries) from map_congr_left (own same)]
    · rfl
  | @inner name named base items table filters =>
    show rows key kept (put name _ base) = rows key kept (put name _ base)
    rw [rows_put, rows_put, row_put plain, row_put plain]

theorem has_append (present : has key entries) (more : Entries) : has key (entries ++ more) := by
  rw [has, get?_append_present present]
  exact present

/-- Once all kept keys are there, whatever follows adds nothing to the row. -/
theorem Owes.settled (owes : Owes key kept spot entries []) (pending : Entries) : Owes key kept spot entries pending := by
  have there (opens : spot.Opens key) (k : String) (mem : k ∈ kept) : has k entries := by simpa using owes.present opens k mem
  refine ⟨fun opens k mem => has_append (there opens k mem) pending, fun opens e inside mem absent => ?_⟩
  rw [there opens e.1 mem] at absent
  cases absent

theorem Owes.rows_eq (owes : Owes key kept spot entries []) (plain : "filters" ∉ kept) (absent : has key changed = false) :
    rows key kept (spot.base (entries ++ changed)) = rows key kept (spot.base entries) := by
  refine Spot.rows_congr plain ?_ fun opens k mem => get?_append_present (by simpa using owes.present opens k mem) changed
  have none : get? key changed = none := by simpa [has] using absent
  rw [get?_append, none, Option.or_none]

theorem Reads.absent (reads : Reads key kept current pieces found) (array : isArrayKey key) : has key (leading pieces) = false := by
  induction reads with
  | @field _ rest _ name v field later ih =>
    have apart : name ≠ key := by
      rintro rfl
      rw [field.single] at array
      cases array
    simpa [leading, has, get?, apart] using ih
  | _ => rfl

theorem get?_replaced (same : name = key → w = v) (entries rest : Entries) :
    get? key (entries ++ [(name, w)] ++ rest) = get? key (entries ++ (name, v) :: rest) := by
  by_cases named : name = key
  · rw [same named, append_assoc, singleton_append]
  · simp [get?_append, get?, named]

theorem has_replaced (entries rest : Entries) : has key (entries ++ [(name, w)] ++ rest) = has key (entries ++ (name, v) :: rest) := by
  by_cases named : name = key <;> simp [has, get?_append, get?, named]

theorem readAll_header {path : List String} {d : Document} (known : Heading (pathName path).toList path)
    (read : readAll fuel ⟨d, none⟩ (chunkLines (chunks (.header path :: rest))) = some r) :
    ∃ next, { d with current := [] }.enterAll true path = .ok next ∧ readAll fuel ⟨next, none⟩ (chunkLines (chunks rest)) = some r := by
  rw [chunks, map_cons, Piece.chunk, known.chunkLines, readAll_cons, known.line] at read
  cases enters : { d with current := [] }.enterAll true path with
  | error e =>
    rw [enters] at read
    cases read
  | ok next =>
    rw [enters] at read
    exact ⟨next, rfl, read⟩

theorem Owes.field (owes : Owes key kept spot entries ((name, v) :: changed)) (w : Value) : Owes key kept spot (entries ++ [(name, w)]) changed := by
  refine ⟨fun opens k mem => ?_, fun opens e inside mem absent => owes.exact opens e (mem_cons_of_mem _ inside) mem ?_⟩
  · rw [has_replaced]
    exact owes.present opens k mem
  · rw [← Bool.not_eq_true] at absent ⊢
    exact fun present => absent (has_append present _)

theorem Reads.rows_of_readAll (reads : Reads key kept current pieces found) (plain : "filters" ∉ kept) (array : isArrayKey key)
    (same : spot.array? = current) (owes : Owes key kept spot entries (leading pieces)) (enough : ∀ piece ∈ pieces, piece.chunk.1.length + 3 ≤ fuel)
    (read : readAll (fuel + 2) ⟨spot.place.focus.document entries, none⟩ (chunkLines (chunks pieces)) = some r) :
    ∃ base way, r = ⟨⟨.dict base, way, []⟩, none⟩ ∧ rows key kept base = rows key kept (spot.base (entries ++ leading pieces)) ++ found := by
  induction reads generalizing spot entries with
  | nil =>
    cases read
    refine ⟨spot.base entries, spot.place.way, ?_, by simp [leading]⟩
    rw [← spot.root_eq]
    rfl
  | @blank current rest found later ih =>
    obtain ⟨base, way, ends, known⟩ := ih same (owes.settled _) (fun piece mem => enough piece (mem_cons_of_mem _ mem)) read
    refine ⟨base, way, ends, ?_⟩
    rw [known, owes.rows_eq plain (later.absent array), leading_blank, append_nil]
  | @field current rest found name v field later ih =>
    have reads : (ofValue name v).Reads fuel :=
      field.field.writable.reads (bare_of_isKey field.key) ((field.field.writable.cost_le name).trans (enough _ mem_cons_self))
    have lines : chunkLines (chunks (.field name v :: rest)) = (ofValue name v).lines ++ chunkLines (chunks rest) := rfl
    rw [lines, readAll_append, reads.reads, ofValue_name] at read
    cases present : has name entries with
    | true =>
      rw [present] at read
      cases read
    | false =>
      rw [present, if_neg Bool.false_ne_true] at read
      cases value : (ofValue name v).value with
      | none =>
        rw [value] at read
        cases read
      | some w =>
        rw [value, Option.map_some, put_absent present, Option.bind_some] at read
        obtain ⟨base, way, ends, known⟩ := ih same (owes.field w) (fun piece mem => enough piece (mem_cons_of_mem _ mem)) read
        refine ⟨base, way, ends, known.trans (congrArg (· ++ found) (Spot.rows_congr plain ?_ fun opens k mem => ?_))⟩
        · refine get?_replaced (fun wrong => ?_) _ _
          rw [← wrong, field.single] at array
          cases array
        · refine get?_replaced (fun named => ?_) _ _
          exact field.field.exact (owes.exact opens (name, v) mem_cons_self (named ▸ mem) present) value
  | @element current rest found name known holds later ih =>
    have named := isEmpty_of_isKey (isKey_of_isArrayKey known)
    obtain ⟨next, enters, read⟩ := readAll_header (heading_path (by simp) (by simpa using isKey_of_isArrayKey known)) read
    rw [show spot.place.focus.document entries = ⟨spot.place.root entries, spot.place.way, []⟩ from rfl, spot.root_eq] at enters
    obtain rfl := Place.start.eq_below named enters
    have owes : Owes key kept (.outer named (spot.base entries) (elements name (spot.base entries))) [] (leading rest) :=
      ⟨fun opens => (holds opens).present, fun opens e inside mem _ => (holds opens).exact e inside mem⟩
    obtain ⟨base, way, ends, known⟩ := @ih (.outer named _ _) _ rfl owes (fun piece mem => enough piece (mem_cons_of_mem _ mem)) read
    refine ⟨base, way, ends, ?_⟩
    rw [known, leading_header, append_nil, ← append_assoc]
    refine congrArg (· ++ found) ((rows_put name _ _ _).trans ?_)
    split
    · rename_i same
      subst same
      rfl
    · simp
  | @filters rest found name known later ih =>
    have good := isKey_of_isArrayKey known
    obtain ⟨next, enters, read⟩ := readAll_header (heading_path (by simp) (by simpa using ⟨good, by decide⟩)) read
    obtain ⟨named, base, items, own, root⟩ := spot.exists_element same entries
    rw [show spot.place.focus.document entries = ⟨spot.place.root entries, spot.place.way, []⟩ from rfl, root] at enters
    obtain rfl := (Place.start.below named base items).eq_below (by decide) enters
    have owes : Owes key kept (.inner named base items own (elements "filters" own)) [] (leading rest) := ⟨False.elim, False.elim⟩
    obtain ⟨result, way, ends, known⟩ := @ih (.inner named _ _ _ _) _ rfl owes (fun piece mem => enough piece (mem_cons_of_mem _ mem)) read
    refine ⟨result, way, ends, ?_⟩
    rw [known, leading_header, append_nil]
    refine congrArg (· ++ found) ?_
    rw [show spot.base entries = put name (.list (items ++ [.dict own])) base by rw [Spot.base, root]; rfl]
    refine (rows_put name _ _ _).trans (Eq.trans ?_ (rows_put name _ _ _).symm)
    rw [row_put plain]

theorem Reads.rows_of_readChars (reads : Reads key kept none pieces found) (plain : "filters" ∉ kept) (array : isArrayKey key)
    (sound : ∀ piece ∈ pieces, piece.Sound) {table : Value} (read : readChars (['\n'].intercalate ((chunks pieces).map Prod.fst)) = .ok table) :
    ∃ base, table = .dict base ∧ rows key kept base = found := by
  by_cases filled : chunks pieces = []
  · rw [chunks, map_eq_nil_iff] at filled
    subst filled
    cases reads
    cases read
    exact ⟨[], rfl, rfl⟩
  · have whole := readChars_chunks filled (scans_chunks sound)
    rw [read] at whole
    obtain ⟨r, done, root⟩ := Option.map_eq_some_iff.mp whole.symm
    have enough : ∀ piece ∈ pieces, piece.chunk.1.length + 3 ≤ 2 * (['\n'].intercalate ((chunks pieces).map Prod.fst)).length + 6 := by
      intro piece mem
      have bound := @Text.length_le_intercalate _ ['\n'] _ _ (mem_map_of_mem (f := Prod.fst) (mem_map_of_mem (f := Piece.chunk) mem))
      rw [← chunks] at bound
      omega
    have start : Owes key kept .top [] (leading pieces) := ⟨False.elim, False.elim⟩
    obtain ⟨base, way, rfl, known⟩ := reads.rows_of_readAll plain array rfl start enough done
    refine ⟨base, root.symm, known.trans ?_⟩
    have none : get? key (leading pieces) = none := by simpa [has] using reads.absent array
    show rows key kept (leading pieces) ++ found = found
    simp [rows, elements, none]

end Gathering

end Rulewright.Toml
