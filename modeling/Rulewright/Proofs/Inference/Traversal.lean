import Rulewright.Proofs.Query.Tagging
import Rulewright.Proofs.Source.Cover

/-!
Reading the templates of a tree. The walk gives what its nodes say in order: the outermost nodes recorded under each name and the edges of
the comments with an arrow, unless a comment has two arrows (`walk_reads_templates`). A node is recorded when the walk comes to it, whatever
the comments inside it say: so a node that is listed lies wholly inside its template exactly if no mark inside it changes the name before code
(`listed_node_whole_iff`).
-/

open List

namespace Rulewright.Inference

open Source (Node nonoverlapping withoutPartial)
open Text (cut pieces)

def said (n : Node) : String := n.text.toOption.getD ""

def arrow : List Char := ['-', '>']

def Crowded (text : String) : Prop := ∃ a b c, text.toList = a ++ (arrow ++ (b ++ (arrow ++ c)))

def Tells (text source target : String) : Prop :=
  ∃ a b, text.toList = a ++ (arrow ++ b) ∧ source = Templates.afterMark (.ofList a) ∧ target = Text.strip (.ofList b)

def Linked (edges : List (String × List String)) (source target : String) : Prop := ∃ e ∈ edges, e.1 = source ∧ target ∈ e.2

section Arrows

variable {a b cs done : List Char} {t u : Templates} {text : String}

theorem pieces_append_arrow {skip : Nat} (short : skip ≤ a.length) :
    pieces arrow skip done (a ++ (arrow ++ b)) = pieces arrow skip done a ++ cut arrow b := by
  induction a generalizing skip done with
  | nil =>
    obtain rfl : skip = 0 := by simpa using short
    simp [pieces, arrow, cut]
  | cons c a ih =>
    cases skip with
    | succ skip => simpa [pieces] using ih (by simpa using short)
    | zero =>
      have here : arrow.isPrefixOf (c :: (a ++ (arrow ++ b))) = arrow.isPrefixOf (c :: a) := by
        cases a <;> simp [arrow, List.isPrefixOf]
      rw [cons_append, pieces, pieces, here]
      split
      · rename_i found
        have longer : arrow.length - 1 ≤ a.length := by cases a <;> simp [arrow, List.isPrefixOf] at found ⊢
        rw [ih longer, cons_append]
      · exact ih (Nat.zero_le _)

theorem cut_append_arrow (a b : List Char) : cut arrow (a ++ (arrow ++ b)) = cut arrow a ++ cut arrow b :=
  pieces_append_arrow (Nat.zero_le _)

theorem cut_arrow (single : ¬Crowded text) (whole : text.toList = a ++ (arrow ++ b)) : Text.splitAt text "->" = [.ofList a, .ofList b] := by
  have first : Text.contains arrow a = false := by
    rw [Bool.eq_false_iff, ne_eq, Text.contains_iff]
    rintro ⟨x, y, rfl⟩
    exact single ⟨x, y, b, by simpa using whole⟩
  have second : Text.contains arrow b = false := by
    rw [Bool.eq_false_iff, ne_eq, Text.contains_iff]
    rintro ⟨x, y, rfl⟩
    exact single ⟨a, x, y, by simpa using whole⟩
  rw [Text.splitAt, whole, show "->".toList = arrow from rfl, cut_append_arrow, Text.cut_of_contains first, Text.cut_of_contains second]
  rfl

theorem Crowded.three_pieces (crowded : Crowded text) : 3 ≤ (Text.splitAt text "->").length := by
  obtain ⟨a, b, c, whole⟩ := crowded
  have filled (cs : List Char) : 0 < (cut arrow cs).length := length_pos_of_ne_nil Text.pieces_ne_nil
  rw [Text.splitAt, whole, show "->".toList = arrow from rfl, cut_append_arrow, cut_append_arrow, length_map, length_append, length_append]
  have first := filled a
  have second := filled b
  have third := filled c
  omega

theorem comment_crowded (t : Templates) (crowded : Crowded text) :
    t.comment text = .error (.badValue "too many values to unpack (expected 2)") := by
  have long := crowded.three_pieces
  obtain ⟨a, b, c, whole⟩ := crowded
  have held : Text.holds text "->" := Text.contains_iff.mpr ⟨a, b ++ (arrow ++ c), by simp [whole, arrow]⟩
  rw [Templates.comment, if_pos held]
  split
  · rename_i two
    rw [two] at long
    simp at long
  · rfl

theorem linked_addEdge (edges : List (String × List String)) (source target x y : String) :
    Linked (Templates.addEdge source target edges) x y ↔ Linked edges x y ∨ source = x ∧ y = target := by
  unfold Linked
  induction edges with
  | nil => simp [Templates.addEdge]
  | cons e rest ih =>
    obtain ⟨k, ts⟩ := e
    rw [Templates.addEdge]
    by_cases same : k = source
    · by_cases known : target ∈ ts <;> simp [known] <;> grind
    · rw [if_neg same]
      simp only [exists_mem_cons_iff, ih, or_assoc]

theorem comment_single (t : Templates) (single : ¬Crowded text) :
    ∃ u, t.comment text = .ok u ∧ ∀ x y, Linked u.edges x y ↔ Linked t.edges x y ∨ Tells text x y := by
  have plain (absent : ¬Text.holds text "->") (x y : String) : ¬Tells text x y := by
    rintro ⟨a, b, whole, -⟩
    exact absent (Text.contains_iff.mpr ⟨a, b, by simp [whole, arrow]⟩)
  by_cases held : Text.holds text "->"
  · obtain ⟨a, b, whole⟩ := Text.contains_iff.mp held
    have split := cut_arrow single (whole.symm.trans (append_assoc ..))
    refine ⟨_, by rw [Templates.comment, if_pos held, split], fun x y => ?_⟩
    rw [linked_addEdge]
    refine or_congr_right ⟨?_, ?_⟩
    · rintro ⟨rfl, rfl⟩
      exact ⟨a, b, whole.symm.trans (append_assoc ..), rfl, rfl⟩
    · rintro ⟨a', b', other, rfl, rfl⟩
      have same := split.symm.trans (cut_arrow single other)
      simp only [cons.injEq, String.ofList_inj, and_true] at same
      exact ⟨by rw [same.1], by rw [same.2]⟩
  · by_cases closing : Text.holds text "end"
    · exact ⟨_, by rw [Templates.comment, if_neg held, if_pos closing], fun x y => by simp [plain held]⟩
    · exact ⟨_, by rw [Templates.comment, if_neg held, if_neg closing], fun x y => by simp [plain held]⟩

end Arrows

section Reading

variable {n : Node} {ns : List Node}

def Readable (ns : List Node) : Prop := ∀ n ∈ ns, isComment n = true → n.text.isOk = true

def Overfull (ns : List Node) : Prop := ∃ n ∈ ns, isComment n = true ∧ Crowded (said n)

def Says (ns : List Node) (source target : String) : Prop := ∃ n ∈ ns, isComment n = true ∧ Tells (said n) source target

theorem visit_comment (t : Templates) (comment : isComment n) (readable : n.text.isOk) :
    t.visit n = t.comment (said n) := by
  rw [Templates.visit, if_pos (show Text.holds n.kind "comment" from comment), said]
  cases read : n.text with
  | error e =>
    rw [read] at readable
    cases readable
  | ok text => rfl

theorem visit_code (t : Templates) (code : ¬isComment n) : ∃ u, t.visit n = .ok u ∧ u.edges = t.edges := by
  rw [Templates.visit, if_neg (show ¬Text.holds n.kind "comment" from code)]
  split
  · exact ⟨_, rfl, by split <;> rfl⟩
  · exact ⟨t, rfl, rfl⟩

theorem foldlM_visit (t : Templates) (readable : Readable ns) :
    Overfull ns ∧ ns.foldlM Templates.visit t = .error (.badValue "too many values to unpack (expected 2)") ∨
      ¬Overfull ns ∧ ∃ u, ns.foldlM Templates.visit t = .ok u ∧ ∀ x y, Linked u.edges x y ↔ Linked t.edges x y ∨ Says ns x y := by
  induction ns generalizing t with
  | nil => exact .inr ⟨by simp [Overfull], t, rfl, by simp [Says]⟩
  | cons n rest ih =>
    have full : Overfull (n :: rest) ↔ isComment n ∧ Crowded (said n) ∨ Overfull rest := by simp [Overfull]
    have told (x y : String) : Says (n :: rest) x y ↔ isComment n ∧ Tells (said n) x y ∨ Says rest x y := by simp [Says]
    have next (u : Templates) := ih u fun m inside => readable m (mem_cons_of_mem _ inside)
    simp only [full, told, foldlM_cons]
    by_cases comment : isComment n
    · rw [visit_comment t comment (readable n mem_cons_self comment)]
      by_cases crowded : Crowded (said n)
      · rw [comment_crowded t crowded]
        exact .inl ⟨.inl ⟨comment, crowded⟩, rfl⟩
      · obtain ⟨u, first, linked⟩ := comment_single t crowded
        simp only [first, comment, crowded, and_false, false_or, true_and, ← or_assoc, ← linked]
        exact next u
    · obtain ⟨u, first, linked⟩ := visit_code t comment
      simp only [first, comment, false_and, false_or, ← linked, Bool.false_eq_true]
      exact next u

end Reading

def remark (place : Source.Place) (column : Nat) (text : String) : Node where
  label := { (Node.stretch place column (column + text.length) []).label with kind := "comment", content := .text text }
  children := []

def block (text : String) : Node :=
  .stretch [0, 1] 10 40 [.stretch [0, 1, 0] 10 11 [], remark [0, 1, 1] 20 text, .stretch [0, 1, 2] 30 31 []]

def script (text : String) : Node := .stretch [0] 0 40 [remark [0, 0] 0 "// 1", block text]

section Wholeness

variable {n root : Node} {ns front back : List Node} {active : Option String} {name : String}

def mark? (n : Node) : Option (Option String) :=
  if isComment n && !Text.holds (said n) "->" then
    some (if Text.holds (said n) "end" then none else some (Templates.afterMark (said n)))
  else none

def nameAt (active : Option String) (ns : List Node) : Option String := (ns.filterMap mark?).getLast?.getD active

def Whole (tree : List Node) (name : String) (n : Node) : Prop :=
  ∀ d ∈ preorder n, isComment d = false → (name, d) ∈ recorded none tree

def Unbroken (name : String) (n : Node) : Prop :=
  ∀ front d back, preorder n = front ++ d :: back → isComment d = false → ∀ x ∈ (front.filterMap mark?).getLast?, x = some name

theorem nameAt_cons (active : Option String) (n : Node) (ns : List Node) :
    nameAt active (n :: ns) = nameAt (if isComment n then nameAfter active (said n) else active) ns := by
  unfold nameAt nameAfter
  rw [filterMap_cons, mark?]
  by_cases comment : isComment n
  · by_cases arrow : Text.holds (said n) "->"
    · simp [comment, arrow]
    · simp [comment, arrow, getLast?_cons]
  · simp [comment]

theorem nameAt_append (front back : List Node) : nameAt active (front ++ back) = nameAt (nameAt active front) back := by
  rw [nameAt, nameAt, nameAt, filterMap_append, getLast?_append]
  cases (back.filterMap mark?).getLast? <;> simp

theorem split_cons {m : Node} :
    (∃ front back, m :: ns = front ++ n :: back ∧ nameAt active front = some name) ↔
      m = n ∧ active = some name ∨ ∃ front back, ns = front ++ n :: back ∧ nameAt active (m :: front) = some name := by
  constructor
  · rintro ⟨front, back, whole, governs⟩
    cases front with
    | nil => exact .inl ⟨(cons.inj whole).1, governs⟩
    | cons k front =>
      obtain ⟨rfl, others⟩ := cons.inj whole
      exact .inr ⟨front, back, others, governs⟩
  · rintro (⟨rfl, governs⟩ | ⟨front, back, rfl, governs⟩)
    · exact ⟨[], ns, rfl, governs⟩
    · exact ⟨m :: front, back, rfl, governs⟩

theorem mem_recorded :
    (name, n) ∈ recorded active ns ↔
      name ≠ "" ∧ isComment n = false ∧ ∃ front back, ns = front ++ n :: back ∧ nameAt active front = some name := by
  induction ns generalizing active with
  | nil => simp [recorded]
  | cons m rest ih =>
    rw [recorded, split_cons]
    simp only [nameAt_cons]
    by_cases comment : isComment m
    · rw [if_pos comment, if_pos comment, ih]
      refine and_congr_right fun _ => and_congr_right fun code => ?_
      rw [or_iff_right fun same => by rw [same.1, code] at comment; cases comment]
      rfl
    · have here : (name, n) ∈ (active.filter (· ≠ "")).toList.map (·, m) ↔ name ≠ "" ∧ m = n ∧ active = some name := by
        simp only [mem_map, Option.mem_toList, Option.filter_eq_some_iff, Prod.mk.injEq]
        grind
      grind

theorem preorders_split
    (each : ∀ c ∈ ns, ∀ front back, preorder c = front ++ n :: back → ∃ rest, n :: back = preorder n ++ rest)
    (split : preorders ns = front ++ n :: back) : ∃ rest, n :: back = preorder n ++ rest := by
  induction ns generalizing front with
  | nil => simp [preorders] at split
  | cons c others ih =>
    have later {front : List Node} := @ih front fun d inside => each d (mem_cons_of_mem _ inside)
    rw [preorders, append_eq_append_iff] at split
    rcases split with ⟨behind, -, deeper⟩ | ⟨ahead, inner, whole⟩
    · exact later deeper
    · cases ahead with
      | nil => exact @later [] whole.symm
      | cons m ahead =>
        obtain ⟨rfl, rfl⟩ := cons.inj whole
        obtain ⟨rest, below⟩ := each c mem_cons_self front ahead inner
        exact ⟨rest ++ preorders others, by rw [← append_assoc, ← below]; rfl⟩

theorem preorder_split (split : preorder root = front ++ n :: back) : ∃ rest, n :: back = preorder n ++ rest := by
  induction root using Node.induction generalizing front back with
  | step label children ih =>
    cases front with
    | nil =>
      obtain ⟨rfl, rfl⟩ := cons.inj split
      exact ⟨[], by rw [preorder, append_nil]⟩
    | cons first front => exact preorders_split (fun c inside front back => ih c inside) (cons.inj split).2

theorem whole_iff (distinct : (preorder root).Nodup) (known : (name, n) ∈ recorded none (preorder root)) :
    Whole (preorder root) name n ↔ Unbroken name n := by
  obtain ⟨named, -, front, back, split, governs⟩ := mem_recorded.mp known
  obtain ⟨rest, below⟩ := preorder_split split
  rw [below] at split
  have here {f b : List Node} {d : Node} (inner : preorder n = f ++ d :: b) : preorder root = (front ++ f) ++ d :: (b ++ rest) := by
    rw [split, inner]
    simp
  have last (f : List Node) : nameAt none (front ++ f) = some name ↔ ∀ x ∈ (f.filterMap mark?).getLast?, x = some name := by
    rw [nameAt_append, governs, nameAt]
    cases (f.filterMap mark?).getLast? <;> simp
  constructor
  · intro whole f d b inner code
    obtain ⟨-, -, f', b', other, governs'⟩ := mem_recorded.mp (whole d (inner ▸ by simp) code)
    have once := distinct
    rw [here inner, nodup_middle, nodup_cons, mem_append, not_or] at once
    obtain ⟨same, -, -⟩ := (append_cons_inj_of_notMem once.1.1 once.1.2).mp ((here inner).symm.trans other)
    exact (last f).mp (same ▸ governs')
  · intro unbroken d inside code
    obtain ⟨f, b, inner⟩ := append_of_mem inside
    exact mem_recorded.mpr ⟨named, code, _, _, here inner, (last f).mpr (unbroken f d b inner code)⟩

end Wholeness

theorem mem_recorded_of_listed {root n : Node} {name : String} (inside : n ∈ listed name root) :
    (name, n) ∈ recorded none (preorder root) := by
  simpa [under] using (Source.nonoverlapping_subperm _).subset inside

/-- Taking out nodes takes out none. So a node that is listed for a template lies wholly inside it exactly if, before each of its nodes that
is no comment, the last mark inside it names the template. -/
theorem listed_node_whole_iff {source target : Node} {p : Parsed} (parsed : parseTemplates source target = .ok p)
    (distinct : ((preorder source).map Node.place).Nodup) (distinct' : ((preorder target).map Node.place).Nodup) :
    (∀ pair ∈ p.pairs, (∀ n ∈ pair.before, Whole (preorder source) pair.name n ↔ Unbroken pair.name n) ∧
        ∀ n ∈ pair.after, Whole (preorder target) pair.name n ↔ Unbroken pair.name n) ∧
      ∀ ns : List Node, (∀ n ∈ withoutPartial ns, ∀ c ∈ n.children, isComment c = false → c ∈ ns) ↔
        ∀ n ∈ ns, ∀ c ∈ n.children, isComment c = false → c ∈ ns := by
  refine ⟨?_, fun ns => by rw [withoutPartial_eq]⟩
  intro pair inside
  rw [parseTemplates_eq parsed, mem_map] at inside
  obtain ⟨name, -, rfl⟩ := inside
  exact ⟨fun n known => whole_iff distinct.of_map (mem_recorded_of_listed known),
    fun n known => whole_iff distinct'.of_map (mem_recorded_of_listed known)⟩

theorem script_parsed (text : String) (fine : (parseTemplates (script text) (script text)).isOk)
    (named : "1" ∈ templateNames (script text)) :
    ∃ p, parseTemplates (script text) (script text) = .ok p ∧ ⟨"1", listed "1" (script text), listed "1" (script text)⟩ ∈ p.pairs := by
  cases parsed : parseTemplates (script text) (script text) with
  | error e =>
    rw [parsed] at fine
    cases fine
  | ok p =>
    refine ⟨p, rfl, ?_⟩
    rw [parseTemplates_eq parsed]
    exact mem_map.mpr ⟨"1", named, rfl⟩

theorem block_listed (text : String) {rest : List Node} (all : under "1" (recorded none (preorder (script text))) = block text :: rest)
    (sorted : (block text :: rest).Pairwise fun n m => n.before m) : block text ∈ listed "1" (script text) := by
  rw [listed, all, nonoverlapping, mergeSort_of_pairwise sorted]
  exact mem_cons_self

/-- A block with an arrow inside is listed, and wholly inside its template. -/
theorem script_block_whole :
    ∃ p, parseTemplates (script "// 1 -> 2") (script "// 1 -> 2") = .ok p ∧ ∃ pair ∈ p.pairs, pair.name = "1" ∧
      block "// 1 -> 2" ∈ pair.before ∧ Whole (preorder (script "// 1 -> 2")) "1" (block "// 1 -> 2") := by
  obtain ⟨p, parsed, inside⟩ := script_parsed "// 1 -> 2" (by decide +kernel) (by decide)
  have known := block_listed "// 1 -> 2" rfl (by decide)
  refine ⟨p, parsed, _, inside, rfl, known, (((listed_node_whole_iff parsed (by decide) (by decide)).1 _ inside).1 _ known).mpr ?_⟩
  intro front d back split _ x last
  have unmarked : (preorder (block "// 1 -> 2")).filterMap mark? = [] := by decide
  rw [split, filterMap_append, append_eq_nil_iff] at unmarked
  rw [unmarked.1] at last
  cases last

/-- A block with the end of its template inside is listed too. -/
theorem script_block_broken :
    ∃ p, parseTemplates (script "// end") (script "// end") = .ok p ∧ ∃ pair ∈ p.pairs, pair.name = "1" ∧
      block "// end" ∈ pair.before ∧ ¬Whole (preorder (script "// end")) "1" (block "// end") := by
  obtain ⟨p, parsed, inside⟩ := script_parsed "// end" (by decide +kernel) (by decide)
  refine ⟨p, parsed, _, inside, rfl, block_listed "// end" rfl (by decide), fun whole => ?_⟩
  have last := whole (.stretch [0, 1, 2] 30 31 [])
    (Source.mem_preorder_of_child (by simp [block, Node.stretch]) (Source.self_mem_preorder _)) (by decide)
  have place := mem_map_of_mem (f := fun r => (r.1, r.2.place)) last
  revert place
  decide

end Rulewright.Inference
