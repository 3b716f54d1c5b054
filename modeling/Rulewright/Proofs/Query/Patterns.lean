import Rulewright.Query.Writer
import Rulewright.Proofs.Source.Narrowing
import Mathlib

/-!
What a written query says. It consists of patterns, one for each node of the sequence, and of constraints on the texts of leaves. A full
pattern (`Pattern`) has the named descendants of its node inside and captures each of them after its closing parenthesis; the captures are
numbered in post-order (`write_numbers_reached`). A simplified pattern (`Sketch`) has the named children only, and there the numbers of the
constraints are one ahead of the captures, so they are right only where no named child is a leaf (`simplified_constraints_right_iff`).
-/

open List

namespace Rulewright.Source

mutual

/-- A node and its descendants through named children, in post-order. -/
def Node.reached : Node → List Node
  | ⟨label, children⟩ => reachedAll children ++ [⟨label, children⟩]

def reachedAll : List Node → List Node
  | [] => []
  | n :: rest => if n.named then n.reached ++ reachedAll rest else reachedAll rest

end

def Node.IsReadable (n : Node) : Prop := n.children = [] → ∃ text, n.text = .ok text

end Rulewright.Source

namespace Rulewright.Query

variable {c : String × Node}

open Source (Node)

section Names

variable {i j k : Nat} {digits : List Char}

theorem digits_captureName (k : Nat) : (captureName k).toList = ['@', 't', 'a', 'g'] ++ ((toString k).toList ++ ['n']) := by
  simp [captureName]

theorem isDigit_toString {c : Char} (inside : c ∈ (toString k).toList) : c.isDigit :=
  Nat.isDigit_of_mem_toDigits (b := 10) (by decide) (by decide) (by simpa [toString] using inside)

theorem letter_digits (all : ∀ c ∈ digits, c.isDigit) : 'n' ∉ digits :=
  fun inside => absurd (all 'n' inside) (by decide)

theorem takeWhile_digits (all : ∀ c ∈ digits, c.isDigit) (rest : List Char) :
    (digits ++ 'n' :: rest).takeWhile (· != 'n') = digits := by
  rw [takeWhile_append_of_pos]
  · simp
  · intro c digit
    have other : c ≠ 'n' := fun same => letter_digits all (same ▸ digit)
    simpa using other

theorem captureName_inj (begins : (captureName i).toList <+: (captureName j).toList) : i = j := by
  obtain ⟨rest, same⟩ := begins
  rw [digits_captureName, digits_captureName, append_assoc, append_cancel_left_eq, append_assoc, singleton_append] at same
  have digits := congrArg (List.takeWhile (· != 'n')) same
  rw [takeWhile_digits fun _ => isDigit_toString, takeWhile_digits fun _ => isDigit_toString] at digits
  exact Nat.repr_inj.mp (String.toList_inj.mp digits)

theorem captureName_injective : Function.Injective captureName := fun _ _ same => captureName_inj (same ▸ prefix_rfl)

theorem equals_inj {x y : String} (same : equals (captureName i) x = equals (captureName j) y) : i = j ∧ x = y := by
  have chars := congrArg String.toList same
  simp only [equals, String.toList_append, append_assoc, append_cancel_left_eq] at chars
  have number : i = j := by
    obtain begins | begins := prefix_or_prefix_of_prefix (prefix_append _ _) (chars ▸ prefix_append (captureName j).toList _)
    · exact captureName_inj begins
    · exact (captureName_inj begins).symm
  subst number
  rw [append_cancel_left_eq, append_cancel_left_eq, append_cancel_right_eq] at chars
  exact ⟨rfl, String.toList_inj.mp chars⟩

end Names

def number (k : Nat) : List Node → List (String × Node)
  | [] => []
  | n :: rest => (captureName k, n) :: number (k + 1) rest

section Numbers

variable {k : Nat} {ns ms : List Node}

theorem number_append : number k (ns ++ ms) = number k ns ++ number (k + ns.length) ms := by
  induction ns generalizing k with
  | nil => simp [number]
  | cons n ns ih => simp [number, ih, Nat.add_assoc, Nat.add_comm 1]

@[simp]
theorem map_snd_number : (number k ns).map Prod.snd = ns := by
  induction ns generalizing k with
  | nil => rfl
  | cons n ns ih => simp [number, ih]

theorem map_fst_number : (number k ns).map Prod.fst = (List.range' k ns.length).map captureName := by
  induction ns generalizing k with
  | nil => rfl
  | cons n ns ih => simp [number, ih, List.range'_succ]

theorem mem_number : c ∈ number k ns ↔ ∃ i, ns[i]? = some c.2 ∧ c.1 = captureName (k + i) := by
  induction ns generalizing k with
  | nil => simp [number]
  | cons n ns ih =>
    rw [number, mem_cons, ih]
    constructor
    · rintro (rfl | ⟨i, at_i, name⟩)
      · exact ⟨0, rfl, rfl⟩
      · exact ⟨i + 1, at_i, by rw [name, Nat.add_assoc, Nat.add_comm 1]⟩
    · rintro ⟨i, at_i, name⟩
      cases i with
      | zero =>
        left
        cases at_i
        exact Prod.ext name rfl
      | succ i => exact .inr ⟨i, at_i, by rw [name, Nat.add_assoc, Nat.add_comm 1]⟩

end Numbers

def leaves (captures : List (String × Node)) : List (String × Node) := captures.filter (·.2.children.isEmpty)

/-- The constraint for a leaf under a name. -/
def spell (c : String × Node) : String := equals c.1 (c.2.text.toOption.getD "")

theorem spell_eq {text : String} (read : c.2.text = .ok text) : spell c = equals c.1 text := by
  rw [spell, read]
  rfl

theorem mem_leaves {captures : List (String × Node)} : c ∈ leaves captures ↔ c ∈ captures ∧ c.2.children = [] := by
  rw [leaves, List.mem_filter, List.isEmpty_iff]

inductive Pattern where
  | mk (node : Node) (inner : List Pattern) (capture : String)

namespace Pattern

def node : Pattern → Node
  | ⟨node, _, _⟩ => node

def capture : Pattern → String
  | ⟨_, _, capture⟩ => capture

mutual

def text (depth : Int) (mark : String) : Pattern → String
  | ⟨node, inner, capture⟩ => Source.indent depth ++ mark ++ "(" ++ node.kind ++ " " ++ texts (depth + 1) inner ++ ") " ++ capture

def texts (depth : Int) : List Pattern → String
  | [] => ""
  | p :: rest => "\n" ++ text depth p.node.fieldMark p ++ texts depth rest

end

mutual

/-- The captures of a pattern in the order in which they stand in its text. -/
def captures : Pattern → List (String × Node)
  | ⟨node, inner, capture⟩ => capturesAll inner ++ [(capture, node)]

def capturesAll : List Pattern → List (String × Node)
  | [] => []
  | p :: rest => p.captures ++ capturesAll rest

end

mutual

/-- Inside a pattern stand the patterns of the named children of its node. -/
def Fits : Pattern → Prop
  | ⟨node, inner, _⟩ => inner.map Pattern.node = node.namedChildren ∧ FitAll inner

def FitAll : List Pattern → Prop
  | [] => True
  | p :: rest => p.Fits ∧ FitAll rest

end

end Pattern

/-- A node with the kinds of its named children only. -/
structure Sketch where
  node : Node
  inner : List (String × Node)
  capture : String

namespace Sketch

def inside (depth : Int) (inner : List (String × Node)) : String :=
  String.join (inner.map fun c => "\n" ++ Source.indent depth ++ "(" ++ c.2.kind ++ ") " ++ c.1)

def text (s : Sketch) : String := "(" ++ s.node.kind ++ " " ++ inside 1 s.inner ++ ") " ++ s.capture

def of (k : Nat) (n : Node) : Sketch := ⟨n, number k n.namedChildren, captureName (k + n.namedChildren.length + 1)⟩

def captures (s : Sketch) : List (String × Node) := s.inner ++ [(s.capture, s.node)]

end Sketch

namespace Pattern

mutual

/-- The pattern of a node where `k` captures come before it. -/
def of (k : Nat) : Node → Pattern
  | ⟨label, children⟩ => ⟨⟨label, children⟩, ofAll k children, captureName (k + (Source.reachedAll children).length + 1)⟩

def ofAll (k : Nat) : List Node → List Pattern
  | [] => []
  | n :: rest => if n.named then of k n :: ofAll (k + n.reached.length) rest else ofAll k rest

end

@[simp]
theorem node_of (k : Nat) (n : Node) : (of k n).node = n := by
  obtain ⟨label, children⟩ := n
  rfl

theorem of_sound (k : Nat) (n : Node) : (of k n).Fits ∧ (of k n).captures = number (k + 1) n.reached := by
  induction n using Node.induction generalizing k with
  | step label children ih =>
    have below (k : Nat) : (ofAll k children).map node = children.filter Node.named ∧ FitAll (ofAll k children) ∧
        capturesAll (ofAll k children) = number (k + 1) (Source.reachedAll children) := by
      induction children generalizing k with
      | nil => exact ⟨rfl, trivial, rfl⟩
      | cons n rest below =>
        have others := below fun c inside => ih c (mem_cons_of_mem n inside)
        rw [ofAll, Source.reachedAll]
        by_cases named : n.named
        · obtain ⟨nodes, fit, captures⟩ := others (k + n.reached.length)
          obtain ⟨fits, own⟩ := ih n mem_cons_self k
          rw [if_pos named, if_pos named, filter_cons_of_pos named]
          refine ⟨by rw [map_cons, nodes, node_of], ⟨fits, fit⟩, ?_⟩
          rw [capturesAll, own, captures, number_append, Nat.add_right_comm]
        · rw [if_neg named, if_neg named, filter_cons_of_neg named]
          exact others k
    obtain ⟨nodes, fit, captures⟩ := below k
    refine ⟨⟨nodes, fit⟩, ?_⟩
    rw [of, Pattern.captures, captures, Node.reached, number_append]
    simp [number, Nat.add_right_comm]

def ofNodes (k : Nat) : List Node → List Pattern
  | [] => []
  | n :: rest => of k n :: ofNodes (k + n.reached.length) rest

theorem ofNodes_sound (k : Nat) (nodes : List Node) :
    (ofNodes k nodes).map node = nodes ∧ FitAll (ofNodes k nodes) ∧ capturesAll (ofNodes k nodes) = number (k + 1) (nodes.flatMap Node.reached) ∧
      ∀ p ∈ (ofNodes k nodes).getLast?, p.capture = captureName (k + (nodes.flatMap Node.reached).length) := by
  induction nodes generalizing k with
  | nil => exact ⟨rfl, trivial, rfl, by simp [ofNodes]⟩
  | cons n rest ih =>
    obtain ⟨nodes, fit, captures, last⟩ := ih (k + n.reached.length)
    obtain ⟨fits, own⟩ := of_sound k n
    refine ⟨by rw [ofNodes, map_cons, nodes, node_of], ⟨fits, fit⟩, ?_, ?_⟩
    · rw [ofNodes, capturesAll, own, captures, flatMap_cons, number_append, Nat.add_right_comm]
    · cases rest with
      | nil =>
        obtain ⟨label, children⟩ := n
        simp [ofNodes, of, capture, Node.reached, Nat.add_assoc]
      | cons next rest => simpa [ofNodes, Nat.add_assoc] using last

end Pattern

/-- Reading the text of each leaf. -/
def checkAll (ns : List Node) : Except Source.Error Unit := ns.forM fun n => if n.children.isEmpty then n.text.map fun _ => () else .ok ()

theorem checkAll_append (ns ms : List Node) : checkAll (ns ++ ms) = checkAll ns >>= fun _ => checkAll ms := forM_append

theorem checkAll_ok_iff {ns : List Node} : checkAll ns = .ok () ↔ ∀ n ∈ ns, n.IsReadable := by
  induction ns with
  | nil => exact iff_of_true rfl (by simp)
  | cons n ns ih =>
    have split : checkAll (n :: ns) = checkAll [n] >>= fun _ => checkAll ns := checkAll_append [n] ns
    have here : checkAll [n] = .ok () ↔ n.IsReadable := by
      by_cases leaf : n.children = [] <;> cases read : n.text <;> simp [checkAll, Node.IsReadable, leaf, read, Except.map]
    rw [forall_mem_cons, ← here, ← ih, split]
    cases checkAll [n] <;> simp [bind, Except.bind]

namespace Writer

/-- The nodes that are numbered for a node. -/
def asked (simplify : Bool) (n : Node) : List Node := if simplify then n.namedChildren ++ [n] else n.reached

/-- A writer after it has numbered nodes and taken captures. -/
def plus (w : Writer) (taken : List (String × Node)) (ns : List Node) : Writer :=
  { w with
    captures := w.captures ++ taken, count := w.count + ns.length
    constraints := w.constraints ++ (leaves (number (w.count + 1) ns)).map spell
    outermost := (taken.getLast?.map Prod.fst).or w.outermost }

section Steps

variable (w : Writer) (n : Node) (depth : Int) (children : List Node) (simplify : Bool) (nodes : List Node)

@[simp]
theorem plus_nil : w.plus [] [] = w := by simp [plus, number, leaves]

@[simp]
theorem plus_count (taken : List (String × Node)) (ns : List Node) : (w.plus taken ns).count = w.count + ns.length := rfl

theorem plus_plus (taken taken' : List (String × Node)) (ns ms : List Node) :
    (w.plus taken ns).plus taken' ms = w.plus (taken ++ taken') (ns ++ ms) := by
  simp [plus, leaves, number_append, getLast?_append, Option.map_or, Option.or_assoc, Nat.add_assoc, Nat.add_comm 1]

theorem demand_eq (name : String) :
    w.demand name n = do checkAll [n]; return { w with constraints := w.constraints ++ (leaves [(name, n)]).map spell } := by
  by_cases leaf : n.children = [] <;> cases read : n.text <;> simp [demand, checkAll, leaves, spell, leaf, read, Except.map, Except.toOption] <;> rfl

theorem capture_eq : w.capture n = do checkAll [n]; return w.plus (number (w.count + 1) [n]) [n] := by
  rw [capture, demand_eq, bind_assoc]
  rfl

theorem pattern_eq (mark : String) : w.pattern depth mark n = do
    checkAll n.reached
    return ((Pattern.of w.count n).text depth mark, w.plus (number (w.count + 1) n.reached) n.reached) := by
  induction n using Node.induction generalizing w depth mark with
  | step label children ih =>
    have below (w : Writer) : patterns (depth + 1) w children = do
        checkAll (Source.reachedAll children)
        return (Pattern.texts (depth + 1) (Pattern.ofAll w.count children),
          w.plus (number (w.count + 1) (Source.reachedAll children)) (Source.reachedAll children)) := by
      induction children generalizing w with
      | nil => simp [patterns, Source.reachedAll, Pattern.ofAll, Pattern.texts, number]; rfl
      | cons n rest below =>
        have others := below fun c inside => ih c (mem_cons_of_mem n inside)
        rw [patterns, Source.reachedAll, Pattern.ofAll]
        by_cases named : n.named
        · simp [named, ih n mem_cons_self, others, checkAll_append, plus_plus, number_append, Pattern.texts, Nat.add_right_comm]
        · rw [if_neg named, if_neg named, if_neg named, others]
    rw [pattern, below, Node.reached, checkAll_append]
    simp [capture_eq, plus_plus, number_append, Pattern.of, Pattern.text, Node.kind, Nat.add_assoc, Nat.add_comm 1]

theorem shallow_eq : w.shallow depth children = do
    checkAll (children.filter Node.named)
    return (Sketch.inside depth (number w.count (children.filter Node.named)), w.plus [] (children.filter Node.named)) := by
  induction children generalizing w with
  | nil => simp [shallow, Sketch.inside, number]; rfl
  | cons n rest ih =>
    rw [shallow]
    by_cases named : n.named
    · have step : ({ w with count := w.count + 1 } : Writer).demand (captureName (w.count + 1)) n = do checkAll [n]; return w.plus [] [n] := by
        simp [demand_eq, plus, number]
      have both : checkAll (n :: rest.filter Node.named) = checkAll [n] >>= fun _ => checkAll (rest.filter Node.named) := checkAll_append [n] _
      simp [named, step, both, ih, plus_plus, number, Sketch.inside]
    · rw [if_neg named, filter_cons_of_neg named, ih]

/-- The numbers of a simplified pattern's children start with the count so far, those of the constraints on them with the next. -/
theorem sketch_eq : w.nodePattern true n = do
    checkAll (n.namedChildren ++ [n])
    return ((Sketch.of w.count n).text, w.plus (number (w.count + n.namedChildren.length + 1) [n]) (n.namedChildren ++ [n])) := by
  rw [nodePattern, shallow_eq, checkAll_append]
  simp [capture_eq, plus_plus, Sketch.of, Sketch.text, Node.namedChildren]

theorem nodePattern_eq : ∃ text taken, taken <+ number (w.count + 1) (asked simplify n) ∧
    w.nodePattern simplify n = do checkAll (asked simplify n); return (text, w.plus taken (asked simplify n)) := by
  cases simplify with
  | false => exact ⟨_, _, Sublist.refl _, w.pattern_eq n 0 ""⟩
  | true =>
    refine ⟨_, _, ?_, w.sketch_eq n⟩
    rw [asked, if_pos rfl, number_append, Nat.add_right_comm]
    exact sublist_append_right _ _

theorem sequence_eq : ∃ texts taken, taken <+ number (w.count + 1) (nodes.flatMap (asked simplify)) ∧
    w.sequence simplify nodes = do
      checkAll (nodes.flatMap (asked simplify))
      return (texts, w.plus taken (nodes.flatMap (asked simplify))) := by
  induction nodes generalizing w with
  | nil => exact ⟨[], [], Sublist.refl _, by rw [flatMap_nil, plus_nil]; rfl⟩
  | cons n rest ih =>
    obtain ⟨text, taken, part, first⟩ := w.nodePattern_eq n simplify
    obtain ⟨texts, others, after, following⟩ := ih (w.plus taken (asked simplify n))
    rw [plus_count, Nat.add_right_comm] at after
    refine ⟨text :: texts, taken ++ others, ?_, ?_⟩
    · rw [flatMap_cons, number_append]
      exact part.append after
    · simp [Writer.sequence, first, following, checkAll_append, plus_plus]

theorem patterns_sequence_eq : w.sequence false nodes = do
    checkAll (nodes.flatMap Node.reached)
    return ((Pattern.ofNodes w.count nodes).map (Pattern.text 0 ""),
      w.plus (number (w.count + 1) (nodes.flatMap Node.reached)) (nodes.flatMap Node.reached)) := by
  induction nodes generalizing w with
  | nil =>
    rw [flatMap_nil, number, plus_nil]
    rfl
  | cons n rest ih =>
    simp [Writer.sequence, nodePattern, pattern_eq, ih, checkAll_append, plus_plus, Pattern.ofNodes, number_append, Nat.add_right_comm]

theorem write_eq : ∃ texts taken, taken <+ number 1 (nodes.flatMap (asked simplify)) ∧
    write simplify nodes = do
      checkAll (nodes.flatMap (asked simplify))
      let w := ({} : Writer).plus taken (nodes.flatMap (asked simplify))
      return { w with query := "(" ++ Text.join "." texts ++ "\n" ++ Text.join "\n" w.constraints ++ ")" } := by
  obtain ⟨texts, taken, part, listed⟩ := ({} : Writer).sequence_eq simplify nodes
  exact ⟨texts, taken, part, by simp [write, listed]⟩

end Steps

/-- The leaves that a query constrains for a node. -/
def constrained (simplify : Bool) (n : Node) : List Node := (asked simplify n).filter (·.children.isEmpty)

section Sequences

variable {w : Writer} {n : Node} {nodes : List Node} {simplify : Bool}

/-- A query for a sequence of nodes as a whole: its patterns, its captures and its constraints. -/
structure Tells (w : Writer) (nodes : List Node) (ps : List Pattern) : Prop where
  roots : ps.map Pattern.node = nodes
  fits : Pattern.FitAll ps
  query : w.query = "(" ++ Text.join "." (ps.map (Pattern.text 0 "")) ++ "\n" ++ Text.join "\n" w.constraints ++ ")"
  captures : Pattern.capturesAll ps = w.captures
  numbered : w.captures = number 1 (nodes.flatMap Node.reached)
  count : w.count = (nodes.flatMap Node.reached).length
  constraints : w.constraints = (leaves w.captures).map spell
  outermost : ∀ p ∈ ps.getLast?, p.capture = captureName w.count ∧ w.outermost = some p.capture

theorem write_returns (readable : ∀ m ∈ nodes.flatMap (asked simplify), m.IsReadable) : ∃ w, write simplify nodes = .ok w := by
  obtain ⟨texts, taken, -, written⟩ := write_eq simplify nodes
  rw [written, checkAll_ok_iff.mpr readable]
  exact ⟨_, rfl⟩

theorem getLast?_number_reached (k : Nat) (filled : nodes ≠ []) :
    (number (k + 1) (nodes.flatMap Node.reached)).getLast? =
      some (captureName (k + (nodes.flatMap Node.reached).length), nodes.getLast filled) := by
  obtain ⟨front, ⟨label, children⟩, rfl⟩ := eq_nil_or_concat nodes |>.resolve_left filled
  simp [Node.reached, number_append, number, Nat.add_assoc, Nat.add_comm, Nat.add_left_comm]

theorem write_tells (done : write false nodes = .ok w) : ∃ ps, Tells w nodes ps := by
  rw [write, patterns_sequence_eq, bind_assoc] at done
  obtain ⟨_, -, done⟩ := bind_cases done
  cases done
  obtain ⟨roots, fits, captures, last⟩ := Pattern.ofNodes_sound 0 nodes
  refine ⟨Pattern.ofNodes 0 nodes, roots, fits, rfl, captures.trans (nil_append _).symm, nil_append _, Nat.zero_add _, rfl, fun p held => ?_⟩
  have filled : nodes ≠ [] := by
    rintro rfl
    cases held
  simp [Writer.plus, getLast?_number_reached 0 filled, last p held]

/-- The captures are numbered without a gap in the post-order of the nodes. Each stands once in the patterns, after the parenthesis that
closes its node; the leaves among them are constrained to their texts, and the last one is the outermost. -/
theorem write_numbers_reached (filled : nodes ≠ []) (readable : ∀ m ∈ nodes.flatMap Node.reached, m.IsReadable) :
    ∃ (w : Writer) (ps : List Pattern), write false nodes = .ok w ∧
      w.captures.map Prod.fst = (List.range' 1 w.count).map captureName ∧ w.captures.map Prod.snd = nodes.flatMap Node.reached ∧
      ps.map Pattern.node = nodes ∧ Pattern.FitAll ps ∧ Pattern.capturesAll ps = w.captures ∧ (w.captures.map Prod.fst).Nodup ∧
      w.query = "(" ++ Text.join "." (ps.map (Pattern.text 0 "")) ++ "\n" ++ Text.join "\n" w.constraints ++ ")" ∧
      List.Forall₂ (fun constraint c => ∃ text, c.2.text = .ok text ∧ constraint = equals c.1 text) w.constraints
        (w.captures.filter (·.2.children.isEmpty)) ∧
      w.outermost = some (captureName w.count) ∧ w.captures.getLast? = some (captureName w.count, nodes.getLast filled) := by
  obtain ⟨w, done⟩ : ∃ w, write false nodes = .ok w := write_returns readable
  obtain ⟨ps, tells⟩ := write_tells done
  have names : w.captures.map Prod.fst = (List.range' 1 w.count).map captureName := by
    rw [tells.numbered, map_fst_number, tells.count]
  have members : w.captures.map Prod.snd = nodes.flatMap Node.reached := by rw [tells.numbered, map_snd_number]
  refine ⟨w, ps, done, names, members, tells.roots, tells.fits, tells.captures, ?_, tells.query, ?_, ?_, ?_⟩
  · rw [names]
    exact List.Nodup.map captureName_injective (nodup_range' 1)
  · rw [tells.constraints, forall₂_map_left_iff]
    refine forall₂_same.mpr fun c inside => ?_
    obtain ⟨taken, leaf⟩ := mem_leaves.mp inside
    obtain ⟨text, read⟩ := readable c.2 (members ▸ mem_map_of_mem taken) leaf
    exact ⟨text, read, spell_eq read⟩
  · have some : ps ≠ [] := by
      rintro rfl
      exact filled tells.roots.symm
    obtain ⟨capture, outermost⟩ := tells.outermost _ (getLast?_eq_some_getLast some)
    rw [outermost, capture]
  · rw [tells.numbered, tells.count, getLast?_number_reached 0 filled, Nat.zero_add]

theorem operation_is_numbered :
    ∃ (w : Writer) (ps : List Pattern), write false [Source.word "identifier" "x" true, Source.operation "a" "+" "b"] = .ok w ∧
      ps.map Pattern.node = [Source.word "identifier" "x" true, Source.operation "a" "+" "b"] ∧ Pattern.capturesAll ps = w.captures ∧
      w.captures.map Prod.fst = (List.range' 1 w.count).map captureName := by
  obtain ⟨w, ps, done, names, -, roots, -, captures, -⟩ :=
    @write_numbers_reached [Source.word "identifier" "x" true, Source.operation "a" "+" "b"] (by simp) fun m inside => by
      rcases inside with _ | ⟨_, _ | ⟨_, _ | ⟨_, _ | ⟨_, nothing⟩⟩⟩⟩
      · exact fun _ => ⟨"x", rfl⟩
      · exact fun _ => ⟨"a", rfl⟩
      · exact fun _ => ⟨"b", rfl⟩
      · exact fun leaf => absurd leaf (by simp)
      · cases nothing
  exact ⟨w, ps, done, roots, captures, names⟩

/-- In a simplified query the constraint on a leaf is on the capture of the next child, and the last one on no capture at all: every
constraint is on the leaf it was written for exactly if no named child is a leaf. -/
theorem simplified_constraints_right_iff (readable : ∀ m ∈ n.namedChildren ++ [n], m.IsReadable) :
    ∃ (w : Writer) (s : Sketch), write true [n] = .ok w ∧ s.node = n ∧ s.inner.map Prod.snd = n.namedChildren ∧
      w.query = "(" ++ s.text ++ "\n" ++ Text.join "\n" w.constraints ++ ")" ∧
      ((∀ constraint ∈ w.constraints, ∃ tag leaf text, constraint = equals tag text ∧ (tag, leaf) ∈ s.captures ∧ leaf.children = [] ∧
        leaf.text = .ok text) ↔ ∀ c ∈ n.namedChildren, c.children ≠ []) := by
  have children : (Sketch.of 0 n).inner = number 0 n.namedChildren := rfl
  have written := ({} : Writer).sketch_eq n
  rw [checkAll_ok_iff.mpr readable] at written
  refine ⟨_, Sketch.of 0 n, by rw [write, Writer.sequence, written]; rfl, rfl, map_snd_number, by simp [Text.join], ?_⟩
  dsimp only [Writer.plus]
  rw [nil_append, number_append]
  constructor
  · intro right c named leaf
    obtain ⟨i, at_i⟩ := getElem?_of_mem named
    -- A leaf would be followed by a leaf, and so on without an end.
    have chain (d : Nat) : ∃ c, n.namedChildren[i + d]? = some c ∧ c.children = [] := by
      induction d with
      | zero => exact ⟨c, at_i, leaf⟩
      | succ d ih =>
        obtain ⟨c, at_d, leaf⟩ := ih
        have told : (captureName (0 + 1 + (i + d)), c) ∈ number (0 + 1) n.namedChildren := mem_number.mpr ⟨i + d, at_d, rfl⟩
        obtain ⟨tag, next, text, same, taken, childless, -⟩ := right _ (mem_map_of_mem (mem_leaves.mpr ⟨mem_append_left _ told, leaf⟩))
        obtain taken | own := mem_append.mp taken
        · rw [children] at taken
          obtain ⟨j, at_j, rfl⟩ := mem_number.mp taken
          have number := (equals_inj same).1
          refine ⟨next, ?_, childless⟩
          rw [← at_j]
          congr 1
          simp_all
          omega
        · rw [mem_singleton, Prod.mk.injEq] at own
          have childless : n.children = [] := (congrArg Node.children own.2).symm.trans childless
          rw [Node.namedChildren, childless] at at_d
          cases at_d
    obtain ⟨c, beyond, -⟩ := chain n.namedChildren.length
    rw [getElem?_eq_none (by omega)] at beyond
    cases beyond
  · intro inner constraint inside
    obtain ⟨c, told, rfl⟩ := mem_map.mp inside
    obtain ⟨taken, leaf⟩ := mem_leaves.mp told
    obtain early | own := mem_append.mp taken
    · obtain ⟨i, at_i, -⟩ := mem_number.mp early
      exact absurd leaf (inner _ (mem_of_getElem? at_i))
    · obtain rfl := mem_singleton.mp own
      obtain ⟨text, read⟩ := readable n (by simp) leaf
      refine ⟨_, n, text, spell_eq read, mem_append_right _ ?_, leaf, read⟩
      simp [Sketch.of, Nat.add_comm]

theorem word_is_constrained :
    ∃ (w : Writer) (s : Sketch), write true [Source.word "identifier" "x" true] = .ok w ∧ s.node = Source.word "identifier" "x" true ∧
      ∀ constraint ∈ w.constraints, ∃ tag leaf text, constraint = equals tag text ∧ (tag, leaf) ∈ s.captures ∧ leaf.children = [] ∧
        leaf.text = .ok text := by
  obtain ⟨w, s, done, node, -, -, right⟩ := @simplified_constraints_right_iff (Source.word "identifier" "x" true) fun m inside => by
    rcases inside with _ | ⟨_, nothing⟩
    · exact fun _ => ⟨"x", rfl⟩
    · cases nothing
  exact ⟨w, s, done, node, right.mpr fun c inside => by cases inside⟩

/-- The text of the first operand is asked of the second, and that of the second of no node. -/
theorem operands_are_mixed_up :
    (write true [Source.operation "a" "+" "b"]).toOption.map Writer.query =
      some "((binary_expression \n (identifier) @tag0n\n (identifier) @tag1n) @tag3n\n(#eq? @tag1n \"a\")\n(#eq? @tag2n \"b\"))" := by
  cbv

end Sequences

end Writer
end Rulewright.Query
