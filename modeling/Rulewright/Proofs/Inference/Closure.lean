import Rulewright.Inference.Rule
import Rulewright.Proofs.Query.Tagging
import Rulewright.Proofs.Source.Ancestor
import Rulewright.Proofs.Text.Words

/-!
Inferred rules are closed. A name is put into a text as a whole and no step of the tagging puts one together: a name begins with a mark that
stands nowhere else in it (`Reads.tag_cases`). The text that is tagged holds no name before, for its words are those of leaves
(`unified_words`). So the names in a replacement are captures of the query (`inferred_rule_is_closed`).
-/

open List

namespace Rulewright.Query

open Text
open Source (Node)

/-- The form of a name, with any digits. -/
def tagName (digits : List Char) : List Char := ['@', 't', 'a', 'g'] ++ (digits ++ ['n'])

section Names

variable {digits old r s u v : List Char} {k : Nat}

theorem mark_digits (all : ∀ c ∈ digits, c.isDigit = true) : '@' ∉ ['t', 'a', 'g'] ++ (digits ++ ['n']) := by
  have free : '@' ∉ digits := fun inside => absurd (all _ inside) (by decide)
  simp [free]

theorem infix_of_free (free : '@' ∉ v) (inside : '@' :: u <:+: v ++ r) : '@' :: u <:+: r := by
  induction v with
  | nil => exact inside
  | cons c v ih =>
    obtain ⟨other, free⟩ := not_or.mp (mem_cons.not.mp free)
    obtain begins | inside := infix_cons_iff.mp inside
    · exact absurd (cons_prefix_cons.mp begins).1 other
    · exact ih free inside

theorem reads_replace (old new cs : List Char) : Reads [(new, old)] (Text.replace old new cs) cs := by
  by_cases empty : old = []
  · subst empty
    rw [Text.replace, isEmpty_nil, if_pos rfl]
    induction cs with
    | nil => simpa [between] using Reads.name (mem_singleton.mpr rfl) (@Reads.nil [(new, [])])
    | cons c cs ih => exact .name (mem_singleton.mpr rfl) (.char c ih)
  · exact (@Reads.refl [] cs).replace empty (by simp)

/-- A name in a text where another was put was there before or is the other. -/
theorem Reads.tag_cases (reads : Reads [((captureName k).toList, old)] r s) (all : ∀ c ∈ digits, c.isDigit = true)
    (inside : tagName digits <:+: r) : tagName digits <:+: s ∨ tagName digits = (captureName k).toList := by
  induction reads with
  | nil => exact .inl inside
  | @char r s c tail ih =>
    obtain begins | inside := infix_cons_iff.mp inside
    · obtain ⟨rfl, rest⟩ := cons_prefix_cons.mp begins
      obtain ⟨r', s', -, rfl, -⟩ := tail.front (fun entry listed v ends filled agree => by
        obtain ⟨c, v, rfl⟩ := exists_cons_of_ne_nil filled
        rw [mem_singleton.mp listed, digits_captureName] at agree
        exact mark_digits all (agree_head agree ▸ ends.subset mem_cons_self)) rest
      exact .inl (prefix_append (tagName digits) s').isInfix
    · exact (ih inside).imp_left fun inside => inside.trans (suffix_cons c s).isInfix
  | @name r s name text listed tail ih =>
    obtain ⟨rfl, rfl⟩ := Prod.mk.inj (mem_singleton.mp listed)
    rw [digits_captureName] at inside
    obtain begins | inside := infix_cons_iff.mp inside
    · obtain ⟨rest, equal⟩ : tagName digits <+: tagName (toString k).toList ++ r := begins
      simp only [tagName, append_assoc, cons_append, nil_append, List.cons.injEq, true_and] at equal
      have digits := congrArg (List.takeWhile (· != 'n')) equal
      rw [takeWhile_digits all, takeWhile_digits fun _ => isDigit_toString] at digits
      exact .inr (by rw [digits_captureName, digits]; rfl)
    · exact (ih (infix_of_free (mark_digits fun _ => isDigit_toString) inside)).imp_left fun inside => inside.trans (suffix_append text s).isInfix

theorem Writer.tagAll_names {captures : List (String × Node)} {text tagged : String} (done : tagAll captures text = .ok tagged)
    (named : ∀ c ∈ captures, ∃ k, c.1 = captureName k) (all : ∀ c ∈ digits, c.isDigit = true) (inside : tagName digits <:+: tagged.toList) :
    tagName digits <:+: text.toList ∨ ∃ c ∈ captures, tagName digits = c.1.toList := by
  induction captures generalizing text with
  | nil =>
    cases done
    exact .inl inside
  | cons capture rest ih =>
    obtain ⟨name, n⟩ := capture
    obtain ⟨source, -, done⟩ := bind_cases done
    obtain inside | ⟨c, listed, same⟩ := ih done fun c listed => named c (mem_cons_of_mem _ listed)
    · rw [replaceAll, String.toList_ofList] at inside
      obtain ⟨k, rfl⟩ : ∃ k, name = captureName k := named _ mem_cons_self
      exact ((reads_replace ..).tag_cases all inside).imp_right fun same => ⟨_, mem_cons_self, same⟩
    · exact .inr ⟨c, mem_cons_of_mem _ listed, same⟩

end Names

end Rulewright.Query

namespace Rulewright.Source

open Text
open Inference (preorder)

variable {n m k : Node} {leaveOut : List Node} {forest : Forest} {parts : List String} {s : String} {w : List Char}

/-- No leaf of the tree holds the beginning of a name or a placeholder. -/
def Node.IsClear (n : Node) : Prop :=
  ∀ k ∈ preorder n, k.children = [] → ∀ t, k.text = .ok t → ¬"@tag".toList <:+: t.toList ∧ ¬placeholder.toList <:+: t.toList

/-- No name begins in the words of the text, and a placeholder is a word of its own. -/
def Spaced (cs : List Char) : Prop := ∀ w ∈ words cs, ¬"@tag".toList <:+: w ∧ (placeholder.toList <:+: w → w = placeholder.toList)

theorem placeholder_filled : placeholder.toList ≠ [] := by decide

theorem placeholder_solid : Solid placeholder.toList := by simp [placeholder, Solid, isBlank]

theorem words_joined (parts : List String) : words (String.join (parts.map (· ++ " "))).toList = parts.flatMap fun part => words part.toList := by
  induction parts with
  | nil => rfl
  | cons part parts ih =>
    rw [flatMap_cons, ← ih, ← words_append_cons (show isBlank ' ' by decide)]
    simp

theorem words_intercalate (parts : List String) : words (" ".intercalate parts).toList = parts.flatMap fun part => words part.toList := by
  rw [String.toList_intercalate]
  induction parts with
  | nil => rfl
  | cons part parts ih =>
    cases parts with
    | nil => simp
    | cons next parts =>
      rw [flatMap_cons, ← ih, ← words_append_cons (show isBlank ' ' by decide)]
      simp

theorem unified_spaced (clear : n.IsClear) (read : n.unified leaveOut = .ok s) : Spaced s.toList := by
  induction n using Node.induction generalizing s with
  | step label children ih =>
    intro w held
    rw [unified_eq] at read
    split at read
    next =>
      cases read
      rw [words_solid placeholder_filled placeholder_solid, mem_singleton] at held
      subst held
      exact ⟨by decide, fun _ => rfl⟩
    next =>
      split at read
      next leaf =>
        obtain ⟨mark, slot⟩ := clear _ (self_mem_preorder _) (isEmpty_iff.mp leaf) s read
        exact ⟨fun inside => mark (inside.trans (infix_of_mem_words held)), fun inside => absurd (inside.trans (infix_of_mem_words held)) slot⟩
      next =>
        cases below : children.mapM (Node.unified leaveOut) with
        | error e => rw [below] at read; cases read
        | ok parts =>
          rw [below] at read
          cases read
          simp only [strip, String.toList_ofList, words_trim, words_joined] at held
          obtain ⟨part, listed, held⟩ := mem_flatMap.mp held
          obtain ⟨c, child, read⟩ := forall₂_mem_right (mapM_ok_iff.mp below) listed
          exact ih c child (fun k inside => clear k (mem_preorder_of_child child inside)) read w held

theorem mem_preorder_trans (lower : k ∈ preorder n) (below : n ∈ preorder m) : k ∈ preorder m := by
  induction m using Node.induction with
  | step label children ih =>
    obtain rfl | ⟨c, child, deeper⟩ := mem_preorder.mp below
    · exact lower
    · exact mem_preorder_of_child child (ih c child deeper)

theorem mem_preorder_of_descend {way : List Nat} (found : n.descend way = some m) : m ∈ preorder n := by
  induction way generalizing n with
  | nil =>
    cases found
    exact self_mem_preorder _
  | cons i way ih =>
    obtain ⟨c, child, found⟩ := Option.bind_eq_some_iff.mp found
    exact mem_preorder_of_child (mem_children_of_named (mem_of_getElem? child)) (ih found)

theorem exists_tree_of_ancestor {nodes : List Node} (found : lowestCommonAncestor forest nodes = .ok n) : ∃ tree ∈ forest, n ∈ preorder tree := by
  unfold lowestCommonAncestor at found
  split at found
  · cases found
  · split at found
    · cases found
    next a rest above =>
      cases found
      obtain ⟨place, -, found⟩ := mem_filterMap.mp (above ▸ (foldl_later a rest).1)
      cases place with
      | nil => cases found
      | cons i place =>
        obtain ⟨tree, held, found⟩ := Option.bind_eq_some_iff.mp found
        exact ⟨tree, mem_of_getElem? held, mem_preorder_of_below found⟩

end Rulewright.Source

namespace Rulewright.Inference

open Text
open Source (Node Forest placeholder)
open Query (Writer Pattern)

section Closing

variable {forest : Forest} {name : String} {before after : List Node} {r : Rule} {n : Node} {text : String}

/-- The query of the rule is one pattern, the rule replaces what this pattern captures, and the names in its replacement are captures in it. -/
def IsClosed (r : Rule) : Prop :=
  ∃ (p : Pattern) (constraints : List String) (node replace : String), p.Fits ∧
    r.query = .str ("(" ++ p.text 0 "" ++ "\n" ++ join "\n" constraints ++ ")") ∧ r.replaceNode = .str node ∧ p.capture = "@" ++ node ∧
    r.replace = .str replace ∧ ∀ digits : List Char, (∀ c ∈ digits, c.isDigit = true) → Query.tagName digits <:+: replace.toList →
      String.ofList (Query.tagName digits) ∈ p.captures.map Prod.fst

theorem ruleFor_closed (spaced : Source.Spaced text.toList) (made : ruleFor name n text = .ok r) : IsClosed r := by
  unfold ruleFor at made
  obtain ⟨w, written, made⟩ := bind_cases made
  obtain ⟨replace, tagged, made⟩ := bind_cases made
  cases made
  have written := liftSource_ok written
  obtain ⟨ps, tells⟩ := Writer.write_tells written
  obtain ⟨p, rfl, -⟩ := map_eq_singleton_iff.mp tells.roots
  obtain ⟨capture, outermost⟩ := tells.outermost p rfl
  have captures : p.captures = w.captures := (append_nil _).symm.trans tells.captures
  refine ⟨p, w.constraints, _, replace, tells.fits.1, ?_, rfl, ?_, rfl, fun digits all inside => ?_⟩
  · simp [tells.query, join]
  · rw [outermost, capture, ← String.toList_inj]
    simp [Query.captureName]
  · have numbered := Writer.write_numbered written
    obtain early | ⟨c, held, same⟩ := Writer.tagAll_names (liftSource_ok tagged) (fun c held => numbered.name (Writer.mem_longestFirst.mp held)) all inside
    · have free : ¬"@tag".toList <:+: text.toList := not_infix_of_words (by decide) (by simp [Solid, isBlank]) fun w held => (spaced w held).1
      exact absurd ((prefix_append _ _).isInfix.trans early) free
    · rw [captures, same, String.ofList_toList]
      exact mem_map_of_mem (Writer.mem_longestFirst.mp held)

theorem sources_spaced (clear : ∀ n ∈ after, n.IsClear) (done : sources after = .ok text) : Source.Spaced text.toList := by
  unfold sources at done
  obtain ⟨texts, each, done⟩ := bind_cases done
  cases done
  intro w held
  rw [Source.words_intercalate] at held
  obtain ⟨part, listed, held⟩ := mem_flatMap.mp held
  obtain ⟨n, inside, read⟩ := forall₂_mem_right (mapM_ok_iff.mp (liftSource_ok each)) listed
  exact Source.unified_spaced (clear n inside) read w held

/-- Whatever is inferred from trees whose leaves hold no name and no placeholder is closed. -/
theorem inferred_rule_is_closed (clear : ∀ tree ∈ forest, tree.IsClear) (known : ∀ n ∈ after, ∃ tree ∈ forest, n ∈ preorder tree)
    (inferred : infer forest name before after = .ok (some r)) : IsClosed r := by
  have within : ∀ n, (∃ tree ∈ forest, n ∈ preorder tree) → n.IsClear := fun n inside k lower => by
    obtain ⟨tree, listed, below⟩ := inside
    exact clear tree listed k (Source.mem_preorder_trans lower below)
  have texts : ∀ n ∈ after, n.IsClear := fun n inside => within n (known n inside)
  unfold infer at inferred
  split at inferred
  · cases inferred
  · cases inferred
  · obtain ⟨made, created, inferred⟩ := bind_cases inferred
    cases inferred
    unfold create at created
    split at created
    · obtain ⟨⟨n, m⟩, found, created⟩ := bind_cases created
      obtain ⟨text, read, created⟩ := bind_cases created
      obtain ⟨way, narrows⟩ := Source.findChange_way (liftSource_ok found)
      have inside : m.IsClear := fun k lower =>
        texts _ mem_cons_self k (Source.mem_preorder_trans lower (Source.mem_preorder_of_descend narrows.descend.2))
      exact ruleFor_closed (sources_spaced (by simpa using inside) read) created
    · obtain ⟨text, read, created⟩ := bind_cases created
      exact ruleFor_closed (sources_spaced texts read) created
    · obtain ⟨above, found, created⟩ := bind_cases created
      obtain ⟨whole, unified, created⟩ := bind_cases created
      obtain ⟨text, read, created⟩ := bind_cases created
      have spaced := Source.unified_spaced (within above (Source.exists_tree_of_ancestor (liftSource_ok found))) (liftSource_ok unified)
      have erased : Source.Spaced (replaceFirst (before.length - 1) placeholder "" whole).toList := fun w held =>
        spaced w (erased_words Source.placeholder_filled Source.placeholder_solid _ (fun w held => (spaced w held).2) (by simpa [replaceFirst] using held))
      refine ruleFor_closed (fun w held => ?_) created
      rw [replaceFirst, String.toList_ofList] at held
      obtain held | held := mem_append.mp (replaced_words Source.placeholder_filled Source.placeholder_solid (fun w held => (erased w held).2) held)
      · exact erased w held
      · exact sources_spaced texts read w held

end Closing

def wordAt (i : Nat) (text : String) : Node where
  label := { (Source.word "identifier" text true).label with place := [0, i], start := ⟨0, 8 * i⟩, stop := ⟨0, 8 * i + text.length⟩ }
  children := []

def threeWords : Node where
  label := { (default : Source.Label) with kind := "block", named := true, place := [0], stop := ⟨0, 24⟩, size := 24 }
  children := [wordAt 0 "first", wordAt 1 "g", wordAt 2 "third"]

def cutNameRule : Rule where
  name := .str "rule_1"
  query := .str ("((block \n (identifier ) @tag1n\n (identifier ) @tag2n\n (identifier ) @tag3n) @tag4n\n" ++
    "(#eq? @tag1n \"first\")\n(#eq? @tag2n \"g\")\n(#eq? @tag3n \"third\"))")
  replaceNode := .str "tag4n"
  replace := .str " @ta@tag2n3n @ta@tag2n3n"

/-- Here a capture's text lies in the name of another, which is cut into pieces. -/
theorem cutNameRule_is_closed :
    infer [threeWords] "rule_1" [wordAt 0 "first", wordAt 1 "g"] [wordAt 2 "third"] = .ok (some cutNameRule) ∧ IsClosed cutNameRule := by
  have inferred : infer [threeWords] "rule_1" [wordAt 0 "first", wordAt 1 "g"] [wordAt 2 "third"] = .ok (some cutNameRule) := by
    cbv
  refine ⟨inferred, inferred_rule_is_closed ?_ (fun n inside => ⟨threeWords, mem_singleton.mpr rfl, ?_⟩) inferred⟩
  · simp [Node.IsClear, threeWords, wordAt, preorder, preorders, Source.word, Node.text]
    decide
  · rw [mem_singleton.mp inside]
    exact Source.mem_preorder_of_child (by simp [threeWords]) (Source.self_mem_preorder _)

end Rulewright.Inference
