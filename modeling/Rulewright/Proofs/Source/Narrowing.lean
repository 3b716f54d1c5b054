import Rulewright.Inference.Change
import Rulewright.Proofs.Runs

/-!
Narrowing a change. The search for what changed goes down both trees side by side (`Narrows`), and ends at a pair that cannot be
narrowed further. Whether the pair is all that changed depends on the children that the search does not compare: the code
before the change becomes the code after it if these are alike (`Narrows.suffices`).
-/

open List

namespace Rulewright.Source

open Text

def Node.descend : List Nat → Node → Option Node
  | [], n => some n
  | i :: way, n => n.namedChildren[i]?.bind (descend way)

def unlike (n m : Node) : List (Node × Node) :=
  (n.namedChildren.zip m.namedChildren).filter fun p => (p.1.differs p.2).toOption == some true

def IsNarrowable (n m : Node) : Prop :=
  n.kind = m.kind ∧ n.children.length = m.children.length ∧ (unlike n m).length = 1

instance (n m : Node) : Decidable (IsNarrowable n m) :=
  inferInstanceAs (Decidable (n.kind = m.kind ∧ n.children.length = m.children.length ∧ (unlike n m).length = 1))

structure OnlyPair (ns ms : List Node) (i : Nat) (c d : Node) : Prop where
  before : ns[i]? = some c
  after : ms[i]? = some d
  differ : c.differs d = .ok true
  others : ∀ j x y, j ≠ i → ns[j]? = some x → ms[j]? = some y → x.differs y = .ok false

inductive Narrows : List Nat → Node → Node → Node → Node → Prop where
  | here {n m : Node} : ¬IsNarrowable n m → Narrows [] n m n m
  | inside {n m c d b a : Node} {i : Nat} {way : List Nat} : n.kind = m.kind → n.children.length = m.children.length →
      OnlyPair n.namedChildren m.namedChildren i c d → Narrows way c d b a → Narrows (i :: way) n m b a

section Search

variable {n m b a c d : Node} {ns ms : List Node} {way : List Nat} {k : Nat}

theorem countDiffering_length (counted : countDiffering ns ms = .ok k) :
    ((ns.zip ms).filter fun p => (p.1.differs p.2).toOption == some true).length = k := by
  induction ns generalizing ms k with
  | nil => cases counted; rfl
  | cons n ns ih =>
    cases ms with
    | nil => cases counted; rfl
    | cons m ms =>
      obtain ⟨here, differs, counted⟩ := bind_cases counted
      obtain ⟨rest, others, counted⟩ := bind_cases counted
      cases counted
      rw [← ih others]
      cases here <;> simp [differs]

theorem countDiffering_zero (counted : countDiffering ns ms = .ok 0) {j : Nat} {x y : Node} (first : ns[j]? = some x)
    (second : ms[j]? = some y) : x.differs y = .ok false := by
  induction ns generalizing ms j with
  | nil => cases first
  | cons n ns ih =>
    cases ms with
    | nil => cases second
    | cons m ms =>
      obtain ⟨here, differs, counted⟩ := bind_cases counted
      obtain ⟨rest, others, counted⟩ := bind_cases counted
      cases here with
      | true => cases counted
      | false =>
        obtain rfl : rest = 0 := by simpa [pure, Except.pure] using counted
        cases j with
        | zero =>
          cases first
          cases second
          exact differs
        | succ j => exact ih others first second

theorem findChangeIn_pair (whole : Node × Node) (counted : countDiffering (ns.filter Node.named) ms = .ok 1) :
    ∃ i c d, OnlyPair (ns.filter Node.named) ms i c d ∧ c ∈ ns ∧ findChangeIn whole ns ms = findChange c d := by
  induction ns generalizing ms with
  | nil => cases counted
  | cons n ns ih =>
    cases named : n.named with
    | false =>
      rw [filter_cons_of_neg (by simp [named])] at counted ⊢
      obtain ⟨i, c, d, pair, inside, found⟩ := ih counted
      refine ⟨i, c, d, pair, mem_cons_of_mem _ inside, ?_⟩
      cases ms with
      | nil => cases pair.after
      | cons m ms =>
        rw [findChangeIn, named, ← found]
        rfl
    | true =>
      rw [filter_cons_of_pos named] at counted ⊢
      cases ms with
      | nil => cases counted
      | cons m ms =>
        obtain ⟨here, differs, counted⟩ := bind_cases counted
        obtain ⟨rest, others, counted⟩ := bind_cases counted
        rw [findChangeIn, named, differs]
        cases here with
        | true =>
          obtain rfl : rest = 0 := by simpa [pure, Except.pure] using counted
          refine ⟨0, n, m, ⟨rfl, rfl, differs, fun j x y later first second => ?_⟩, mem_cons_self, rfl⟩
          obtain ⟨j, rfl⟩ := Nat.exists_eq_succ_of_ne_zero later
          exact countDiffering_zero others first second
        | false =>
          obtain rfl : rest = 1 := by simpa [pure, Except.pure] using counted
          obtain ⟨i, c, d, pair, inside, found⟩ := ih others
          refine ⟨i + 1, c, d, ⟨pair.before, pair.after, pair.differ, fun j x y other first second => ?_⟩,
            mem_cons_of_mem _ inside, found⟩
          cases j with
          | zero =>
            cases first
            cases second
            exact differs
          | succ j => exact pair.others j x y (by omega) first second

theorem Node.induction {motive : Node → Prop} (step : ∀ label children, (∀ c ∈ children, motive c) → motive ⟨label, children⟩) (n : Node) :
    motive n := by
  induction size : sizeOf n using Nat.strongRecOn generalizing n with
  | ind _ ih =>
    obtain ⟨label, children⟩ := n
    refine step label children fun c inside => ih (sizeOf c) ?_ c rfl
    have smaller : sizeOf c < sizeOf children := sizeOf_lt_of_mem inside
    rw [← size, Node.mk.sizeOf_spec]
    omega

theorem findChange_step (found : findChange n m = .ok (b, a)) :
    (b = n ∧ a = m ∧ ¬IsNarrowable n m) ∨ ∃ i c d, n.kind = m.kind ∧ n.children.length = m.children.length ∧
      OnlyPair n.namedChildren m.namedChildren i c d ∧ c ∈ n.children ∧ findChange c d = .ok (b, a) := by
  obtain ⟨label, children⟩ := n
  rw [findChange] at found
  split at found
  · rename_i same
    rw [beq_iff_eq] at same
    obtain ⟨k, counted, found⟩ := bind_cases found
    have count : (unlike ⟨label, children⟩ m).length = k := countDiffering_length counted
    dsimp only at found
    split at found
    · rename_i both
      simp only [Bool.and_eq_true, beq_iff_eq] at both
      obtain ⟨rfl, length⟩ := both
      obtain ⟨i, c, d, pair, inside, into⟩ := findChangeIn_pair (⟨label, children⟩, m) counted
      exact .inr ⟨i, c, d, same, length, pair, inside, into ▸ found⟩
    · rename_i either
      cases found
      refine .inl ⟨rfl, rfl, fun narrowable => either ?_⟩
      rw [← count, narrowable.2.2]
      simpa using narrowable.2.1
  · rename_i other
    cases found
    exact .inl ⟨rfl, rfl, fun narrowable => other (beq_iff_eq.mpr narrowable.1)⟩

theorem findChange_way (found : findChange n m = .ok (b, a)) : ∃ way, Narrows way n m b a := by
  induction n using Node.induction generalizing m with
  | step label children ih =>
    rcases findChange_step found with ⟨rfl, rfl, settled⟩ | ⟨i, c, d, kind, length, pair, inside, below⟩
    · exact ⟨[], .here settled⟩
    · obtain ⟨way, narrows⟩ := ih c inside below
      exact ⟨i :: way, .inside kind length pair narrows⟩

theorem unified_eq (leaveOut : List Node) (n : Node) :
    n.unified leaveOut = if leaveOut.any (·.contains n) then .ok placeholder else if n.children.isEmpty then n.text
      else (n.children.mapM (Node.unified leaveOut)).map fun parts => strip (String.join (parts.map (· ++ " "))) := by
  have all (ns : List Node) : unifiedAll leaveOut ns = ns.mapM (Node.unified leaveOut) := by
    induction ns with
    | nil => rfl
    | cons n ns ih => rw [unifiedAll, mapM_cons, ih]
  obtain ⟨label, _ | ⟨c, rest⟩⟩ := n
  · rw [Node.unified]
    rfl
  · rw [Node.unified, all]
    cases (c :: rest).mapM (Node.unified leaveOut) <;> rfl

theorem source_inner (inner : n.children ≠ []) :
    n.source = (n.children.mapM Node.source).map fun parts => strip (String.join (parts.map (· ++ " "))) := by
  rw [Node.source, unified_eq, any_nil, if_neg Bool.false_ne_true, if_neg (by simpa using inner)]
  rfl

theorem source_child {s : String} (whole : n.source = .ok s) (inside : c ∈ n.children) : ∃ t, c.source = .ok t := by
  rw [source_inner (ne_nil_of_mem inside)] at whole
  cases parts : n.children.mapM Node.source with
  | error e => rw [parts] at whole; cases whole
  | ok texts =>
    obtain ⟨t, -, read⟩ := forall₂_mem_left (mapM_ok_iff.mp parts) inside
    exact ⟨t, read⟩

theorem differs_ok {s t : String} (first : n.source = .ok s) (second : m.source = .ok t) : n.differs m = .ok (s != t) := by
  rw [Node.differs, first, second]
  rfl

theorem countDiffering_ok (first : ∀ x ∈ ns, ∃ s, x.source = .ok s) (second : ∀ y ∈ ms, ∃ t, y.source = .ok t) :
    ∃ k, countDiffering ns ms = .ok k := by
  induction ns generalizing ms with
  | nil => exact ⟨0, rfl⟩
  | cons n ns ih =>
    cases ms with
    | nil => exact ⟨0, rfl⟩
    | cons m ms =>
      obtain ⟨s, one⟩ := first n mem_cons_self
      obtain ⟨t, other⟩ := second m mem_cons_self
      obtain ⟨k, rest⟩ := ih (fun x inside => first x (mem_cons_of_mem _ inside)) fun y inside => second y (mem_cons_of_mem _ inside)
      rw [countDiffering, differs_ok one other, rest]
      exact ⟨_, rfl⟩

theorem mem_children_of_named (inside : c ∈ n.namedChildren) : c ∈ n.children := (mem_filter.mp inside).1

theorem findChange_ok {s t : String} (before : n.source = .ok s) (after : m.source = .ok t) : ∃ found, findChange n m = .ok found := by
  induction n using Node.induction generalizing m s t with
  | step label children ih =>
    obtain ⟨k, counted⟩ : ∃ k, countDiffering (children.filter Node.named) m.namedChildren = .ok k :=
      countDiffering_ok (fun x inside => source_child before (mem_filter.mp inside).1)
        fun y inside => source_child after (mem_children_of_named inside)
    rw [findChange]
    split
    · rw [counted]
      simp only [bind, Except.bind]
      split
      · rename_i both
        obtain ⟨rfl, -⟩ : k = 1 ∧ _ := by simpa using both
        obtain ⟨i, c, d, pair, inside, into⟩ := findChangeIn_pair (⟨label, children⟩, m) counted
        obtain ⟨s, one⟩ := source_child before inside
        obtain ⟨t, other⟩ := source_child after (mem_children_of_named (mem_of_getElem? pair.after))
        rw [into]
        exact ih c inside one other
      · exact ⟨_, rfl⟩
    · exact ⟨_, rfl⟩

section

variable (narrows : Narrows way n m b a)
include narrows

theorem Narrows.descend : n.descend way = some b ∧ m.descend way = some a := by
  induction narrows with
  | here => exact ⟨rfl, rfl⟩
  | inside _ _ pair _ ih => simp [Node.descend, pair.before, pair.after, ih]

theorem Narrows.above {front back : List Nat} (split : way = front ++ back) (more : back ≠ []) :
    ∃ x y, n.descend front = some x ∧ m.descend front = some y ∧ x.kind = y.kind ∧ x.children.length = y.children.length := by
  induction narrows generalizing front with
  | here => exact (more (append_eq_nil_iff.mp split.symm).2).elim
  | @inside n m c d b a i way kind length pair _ ih =>
    cases front with
    | nil => exact ⟨n, m, rfl, rfl, kind, length⟩
    | cons j front =>
      obtain ⟨rfl, rest⟩ := List.cons.inj split
      obtain ⟨x, y, first, second, alike⟩ := ih rest
      exact ⟨x, y, by simp [Node.descend, pair.before, first], by simp [Node.descend, pair.after, second], alike⟩

theorem Narrows.differs (differ : n.differs m = .ok true) : b.differs a = .ok true := by
  induction narrows with
  | here => exact differ
  | inside _ _ pair _ ih => exact ih pair.differ

theorem Narrows.settled : ¬IsNarrowable b a := by
  induction narrows with
  | here settled => exact settled
  | inside _ _ _ _ ih => exact ih

end

end Search

/-- The search answers wherever both texts can be read. What it answers are nodes to which the same numbers of named children lead, past nodes
of the same kind with as many children; their texts differ if those of the roots do, and they cannot be narrowed further. -/
theorem findChange_narrows (n m : Node) :
    (∀ s t, n.source = .ok s → m.source = .ok t → ∃ found, findChange n m = .ok found) ∧
      ∀ b a, findChange n m = .ok (b, a) → ∃ way, n.descend way = some b ∧ m.descend way = some a ∧
        (∀ front back, way = front ++ back → back ≠ [] → ∃ x y, n.descend front = some x ∧ m.descend front = some y ∧
          x.kind = y.kind ∧ x.children.length = y.children.length) ∧
        (n.differs m = .ok true → b.differs a = .ok true) ∧ ¬IsNarrowable b a := by
  refine ⟨fun s t before after => findChange_ok before after, fun b a found => ?_⟩
  obtain ⟨way, narrows⟩ := findChange_way found
  exact ⟨way, narrows.descend.1, narrows.descend.2, fun _ _ => narrows.above, narrows.differs, narrows.settled⟩

def word (kind text : String) (named : Bool) : Node where
  label := { kind, named, field := none, place := [], startByte := 0, start := ⟨0, 0⟩, stop := ⟨0, text.length⟩, size := text.length, content := .text text }
  children := []

def operation (left operator right : String) : Node where
  label := { (default : Label) with kind := "binary_expression", named := true }
  children := [word "identifier" left true, word operator operator false, word "identifier" right true]

theorem operation_narrows :
    findChange (operation "a" "+" "b") (operation "c" "+" "b") = .ok (word "identifier" "a" true, word "identifier" "c" true) ∧
      (word "identifier" "a" true).differs (word "identifier" "c" true) = .ok true := by
  have found : findChange (operation "a" "+" "b") (operation "c" "+" "b") = .ok (word "identifier" "a" true, word "identifier" "c" true) := by
    rfl
  obtain ⟨way, -, -, -, differs, -⟩ := (findChange_narrows (operation "a" "+" "b") (operation "c" "+" "b")).2 _ _ found
  exact ⟨found, differs (by rfl)⟩

def Node.code (n : Node) : List Char := (n.source.toOption.map fun s => squeeze s.toList).getD []

def splitNamed : Nat → List Node → List Node × List Node
  | _, [] => ([], [])
  | i, n :: rest =>
    if n.named && i == 0 then ([], rest)
    else
      let sides := splitNamed (if n.named then i - 1 else i) rest
      (n :: sides.1, sides.2)

def Node.around : List Nat → Node → List Char × List Char
  | [], _ => ([], [])
  | i :: way, n =>
    match n.namedChildren[i]? with
    | none => ([], [])
    | some c =>
      let inner := c.around way
      let sides := splitNamed i n.children
      (sides.1.flatMap Node.code ++ inner.1, inner.2 ++ sides.2.flatMap Node.code)

def Alike (n m : Node) : Prop :=
  List.Forall₂ (fun x y => x.named = y.named ∧ (x.named = false → x.code = y.code)) n.children m.children

def AlikeAlong : List Nat → Node → Node → Prop
  | [], _, _ => True
  | i :: way, n, m => Alike n m ∧ ∀ c d, n.namedChildren[i]? = some c → m.namedChildren[i]? = some d → AlikeAlong way c d

section Code

variable {n m b a c d : Node} {ns ms : List Node} {way : List Nat} {i : Nat} {s t : String}

theorem filter_dropWhile {α : Type} (p : α → Bool) (xs : List α) : (xs.dropWhile p).filter (fun x => !p x) = xs.filter (fun x => !p x) := by
  induction xs with
  | nil => rfl
  | cons x xs ih => cases hidden : p x <;> simp [hidden, ih]

theorem squeeze_trim (cs : List Char) : squeeze (trim cs) = squeeze cs := by
  simp only [squeeze, trim, trimEnd, trimStart, filter_reverse, filter_dropWhile, reverse_reverse]

theorem squeeze_join (parts : List String) :
    squeeze (strip (String.join (parts.map (· ++ " ")))).toList = parts.flatMap fun part => squeeze part.toList := by
  rw [strip, String.toList_ofList, squeeze_trim]
  induction parts with
  | nil => rfl
  | cons part parts ih =>
    have blank : isBlank ' ' := by decide
    simp only [squeeze, String.toList_join] at ih ⊢
    simp [blank, ih]

theorem code_of_source (read : n.source = .ok s) : n.code = squeeze s.toList := by rw [Node.code, read]; rfl

theorem mapM_source (read : ∀ c ∈ ns, ∃ s, c.source = .ok s) :
    ∃ parts, ns.mapM Node.source = .ok parts ∧ (parts.flatMap fun part => squeeze part.toList) = ns.flatMap Node.code := by
  induction ns with
  | nil => exact ⟨[], rfl, rfl⟩
  | cons n ns ih =>
    obtain ⟨s, first⟩ := read n mem_cons_self
    obtain ⟨parts, others, same⟩ := ih fun c inside => read c (mem_cons_of_mem _ inside)
    refine ⟨s :: parts, ?_, by rw [flatMap_cons, flatMap_cons, same, code_of_source first]⟩
    rw [mapM_cons, first, others]
    rfl

theorem code_inner (read : n.source = .ok s) (inner : n.children ≠ []) : n.code = n.children.flatMap Node.code := by
  obtain ⟨parts, done, same⟩ := mapM_source fun c inside => source_child read inside
  rw [code_of_source (by rw [source_inner inner, done]; rfl), squeeze_join, same]

theorem splitNamed_append (named : (ns.filter Node.named)[i]? = some c) : ns = (splitNamed i ns).1 ++ c :: (splitNamed i ns).2 := by
  induction ns generalizing i with
  | nil => cases named
  | cons n ns ih =>
    rw [splitNamed]
    cases own : n.named with
    | false =>
      rw [filter_cons_of_neg (by simp [own])] at named
      simpa using ih named
    | true =>
      rw [filter_cons_of_pos own] at named
      cases i with
      | zero =>
        cases named
        rfl
      | succ i => simpa using ih (i := i) named

theorem code_around (read : n.source = .ok s) (leads : n.descend way = some b) : n.code = (n.around way).1 ++ b.code ++ (n.around way).2 := by
  induction way generalizing n s with
  | nil =>
    cases leads
    simp [Node.around]
  | cons i way ih =>
    obtain ⟨c, held, leads⟩ := Option.bind_eq_some_iff.mp leads
    have inside := mem_children_of_named (mem_of_getElem? held)
    obtain ⟨t, below⟩ := source_child read inside
    rw [code_inner read (ne_nil_of_mem inside), Node.around, held]
    nth_rewrite 1 [splitNamed_append held]
    rw [flatMap_append, flatMap_cons, ih below leads]
    simp

theorem code_of_differs (same : n.differs m = .ok false) : n.code = m.code := by
  obtain ⟨s, first, same⟩ := bind_cases same
  obtain ⟨t, second, same⟩ := bind_cases same
  obtain rfl : s = t := by simpa [pure, Except.pure] using same
  rw [code_of_source first, code_of_source second]

theorem flatMap_code (alike : List.Forall₂ (fun x y => x.named = y.named ∧ (x.named = false → x.code = y.code)) ns ms)
    (same : ∀ (j : Nat) (x y : Node), (ns.filter Node.named)[j]? = some x → (ms.filter Node.named)[j]? = some y → x.code = y.code) :
    ns.flatMap Node.code = ms.flatMap Node.code := by
  induction alike with
  | nil => rfl
  | @cons x y ns ms both _ ih =>
    obtain ⟨flag, plain⟩ := both
    rw [flatMap_cons, flatMap_cons]
    cases named : x.named with
    | false =>
      rw [plain named, ih fun j v w first second => same j v w
        (by rwa [filter_cons_of_neg (by simp [named])]) (by rwa [filter_cons_of_neg (by simp [← flag, named])])]
    | true =>
      rw [filter_cons_of_pos named, filter_cons_of_pos (flag ▸ named)] at same
      rw [same 0 x y rfl rfl, ih fun j v w first second => same (j + 1) v w first second]

theorem splitNamed_code (alike : List.Forall₂ (fun x y => x.named = y.named ∧ (x.named = false → x.code = y.code)) ns ms)
    (pair : OnlyPair (ns.filter Node.named) (ms.filter Node.named) i c d) :
    (splitNamed i ns).1.flatMap Node.code = (splitNamed i ms).1.flatMap Node.code ∧
      (splitNamed i ns).2.flatMap Node.code = (splitNamed i ms).2.flatMap Node.code := by
  induction alike generalizing i with
  | nil => exact ⟨rfl, rfl⟩
  | @cons x y ns ms both rest ih =>
    obtain ⟨flag, plain⟩ := both
    obtain ⟨before, after, differ, others⟩ := pair
    rw [splitNamed, splitNamed, ← flag]
    cases named : x.named with
    | false =>
      rw [filter_cons_of_neg (by simp [named])] at before others
      rw [filter_cons_of_neg (by simp [← flag, named])] at after others
      obtain ⟨front, back⟩ := ih ⟨before, after, differ, others⟩
      simp [plain named, front, back]
    | true =>
      rw [filter_cons_of_pos named] at before others
      rw [filter_cons_of_pos (flag ▸ named)] at after others
      cases i with
      | zero =>
        exact ⟨rfl, flatMap_code rest fun j v w first second => code_of_differs (others (j + 1) v w (by simp) first second)⟩
      | succ i =>
        obtain ⟨front, back⟩ := ih (i := i) ⟨before, after, differ, fun j v w other first second =>
          others (j + 1) v w (by omega) first second⟩
        simp [code_of_differs (others 0 x y (by simp) rfl rfl), front, back]

theorem Narrows.around (narrows : Narrows way n m b a) (alike : AlikeAlong way n m) : n.around way = m.around way := by
  induction narrows with
  | here => rfl
  | inside _ _ pair _ ih =>
    obtain ⟨front, back⟩ := splitNamed_code alike.1 pair
    simp only [Node.around, pair.before, pair.after, front, back, ih (alike.2 _ _ pair.before pair.after)]

theorem Narrows.suffices (narrows : Narrows way n m b a) (after : m.source = .ok t) (alike : AlikeAlong way n m) :
    (n.around way).1 ++ a.code ++ (n.around way).2 = m.code := by
  rw [narrows.around alike, code_around after narrows.descend.2]

end Code

/-- The search finds the code that changed, and what is around it. Replacing it gives the code after the change if the nodes on the way are
alike; and where as much stands before it in both, exactly if the same stands around it. -/
theorem found_change_suffices {n m b a : Node} {s t : String} (before : n.source = .ok s) (after : m.source = .ok t)
    (found : findChange n m = .ok (b, a)) :
    ∃ way, n.descend way = some b ∧ m.descend way = some a ∧ n.code = (n.around way).1 ++ b.code ++ (n.around way).2 ∧
      (AlikeAlong way n m → (n.around way).1 ++ a.code ++ (n.around way).2 = m.code) ∧
      ((n.around way).1.length = (m.around way).1.length →
        ((n.around way).1 ++ a.code ++ (n.around way).2 = m.code ↔ n.around way = m.around way)) := by
  obtain ⟨way, narrows⟩ := findChange_way found
  obtain ⟨first, second⟩ := narrows.descend
  refine ⟨way, first, second, code_around before first, narrows.suffices after, fun even => ?_⟩
  rw [code_around after second]
  constructor
  · intro same
    rw [append_assoc, append_assoc] at same
    obtain ⟨front, rest⟩ := append_inj same even
    exact Prod.ext front (append_cancel_left rest)
  · intro same
    rw [same]

theorem operation_suffices :
    AlikeAlong [0] (operation "a" "+" "b") (operation "c" "+" "b") ∧
      ∃ way, (operation "a" "+" "b").descend way = some (word "identifier" "a" true) ∧
        (operation "c" "+" "b").descend way = some (word "identifier" "c" true) ∧
        (AlikeAlong way (operation "a" "+" "b") (operation "c" "+" "b") →
          ((operation "a" "+" "b").around way).1 ++ (word "identifier" "c" true).code ++ ((operation "a" "+" "b").around way).2 =
            (operation "c" "+" "b").code) := by
  obtain ⟨way, before, after, -, enough, -⟩ := found_change_suffices (n := operation "a" "+" "b") (m := operation "c" "+" "b")
    (b := word "identifier" "a" true) (a := word "identifier" "c" true) (s := "a + b") (t := "c + b") (by rfl) (by rfl) (by rfl)
  have level : Alike (operation "a" "+" "b") (operation "c" "+" "b") :=
    .cons ⟨rfl, by decide⟩ (.cons ⟨rfl, fun _ => rfl⟩ (.cons ⟨rfl, fun _ => rfl⟩ .nil))
  exact ⟨⟨level, fun _ _ _ _ => trivial⟩, way, before, after, enough⟩

/-- Of a change of a name and of the operator beside it only the name is found. -/
theorem operator_change_is_missed :
    findChange (operation "a" "+" "b") (operation "c" "-" "b") = .ok (word "identifier" "a" true, word "identifier" "c" true) ∧
      (operation "a" "+" "b").around [0] = ([], ['+', 'b']) ∧ (word "identifier" "c" true).code ++ ['+', 'b'] ≠ (operation "c" "-" "b").code := by
  refine ⟨by rfl, by rfl, by decide⟩

end Rulewright.Source
