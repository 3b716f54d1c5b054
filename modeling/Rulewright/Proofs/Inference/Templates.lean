import Rulewright.Inference.Template
import Rulewright.Proofs.Grouping
import Rulewright.Proofs.Runs

/-!
What the comments of a tree name. The nodes of a tree are met from left to right, each before the nodes below it; a node
that is no comment is recorded under the name that holds there. Reading the templates groups what is recorded by its name,
names in the order of their first node, and the reduction to outermost nodes leaves every template a node.
-/

open List

namespace Rulewright.Inference

open Source (Node)

variable {root : Node} {p : Parsed}

mutual

def preorder : Node → List Node
  | ⟨label, children⟩ => ⟨label, children⟩ :: preorders children

def preorders : List Node → List Node
  | [] => []
  | n :: rest => preorder n ++ preorders rest

end

def isComment (n : Node) : Bool := Text.holds n.kind "comment"

def nameAfter (active : Option String) (text : String) : Option String :=
  if Text.holds text "->" then active
  else if Text.holds text "end" then none
  else some (Templates.afterMark text)

def recorded : Option String → List Node → List (String × Node)
  | _, [] => []
  | active, n :: rest =>
    if isComment n then recorded (nameAfter active (n.text.toOption.getD "")) rest
    else (active.filter (· ≠ "")).toList.map (·, n) ++ recorded active rest

def templateNames (root : Node) : List String := ((recorded none (preorder root)).map (·.1)).eraseDups

theorem walk_eq (t : Templates) (n : Node) : t.walk n = (preorder n).foldlM Templates.visit t := by
  refine (Templates.walk.mutual_induct (fun t n => t.walk n = (preorder n).foldlM Templates.visit t)
    (fun t ns => t.walkAll ns = (preorders ns).foldlM Templates.visit t) ?_ ?_ ?_).1 t n
  · intro t label children below
    rw [Templates.walk, preorder, foldlM_cons]
    simp only [below]
  · intro t
    rfl
  · intro t n rest first others
    rw [Templates.walkAll, preorders, foldlM_append, first]
    simp only [others]

theorem comment_ok {t u : Templates} {text : String} (said : t.comment text = .ok u) :
    u.active = nameAfter t.active text ∧ u.nodes = t.nodes := by
  unfold Templates.comment at said
  unfold nameAfter
  split at said
  · rename_i arrow
    rw [if_pos arrow]
    split at said
    · cases said
      exact ⟨rfl, rfl⟩
    · cases said
  · rename_i plain
    rw [if_neg plain]
    split at said
    · rename_i closing
      cases said
      rw [if_pos closing]
      exact ⟨rfl, rfl⟩
    · rename_i opening
      cases said
      rw [if_neg opening]
      exact ⟨rfl, rfl⟩

theorem visit_ok {t u : Templates} {n : Node} (seen : t.visit n = .ok u) (rest : List Node) :
    (recorded u.active rest).foldl (fun nodes r => Templates.addNode r.1 r.2 nodes) u.nodes =
      (recorded t.active (n :: rest)).foldl (fun nodes r => Templates.addNode r.1 r.2 nodes) t.nodes := by
  unfold Templates.visit at seen
  rw [recorded]
  split at seen
  · rename_i comment
    rw [if_pos (show isComment n from comment)]
    obtain ⟨text, decoded, said⟩ := bind_cases seen
    have content : n.text = .ok text := by
      cases read : n.text with
      | error e => rw [read] at decoded; cases decoded
      | ok s => rw [read] at decoded; cases decoded; rfl
    obtain ⟨active, nodes⟩ := comment_ok said
    rw [active, nodes, content]
    rfl
  · rename_i code
    rw [if_neg (show ¬isComment n from code)]
    cases active : t.active with
    | none =>
      rw [active] at seen
      cases seen
      rw [active]
      rfl
    | some name =>
      rw [active] at seen
      by_cases empty : name = ""
      · subst empty
        dsimp only at seen
        rw [if_pos (by decide)] at seen
        cases seen
        rw [active]
        rfl
      · cases seen
        simp [Option.filter, empty]

theorem foldlM_visit_ok {t u : Templates} {ns : List Node} (seen : ns.foldlM Templates.visit t = .ok u) :
    u.nodes = (recorded t.active ns).foldl (fun nodes r => Templates.addNode r.1 r.2 nodes) t.nodes := by
  induction ns generalizing t with
  | nil =>
    cases seen
    rfl
  | cons n rest ih =>
    obtain ⟨next, first, others⟩ := bind_cases seen
    rw [ih others, visit_ok first]

theorem addNode_eq (name : String) (n : Node) (nodes : List (String × List Node)) : Templates.addNode name n nodes = Draw.addTo name n nodes := by
  induction nodes with
  | nil => rfl
  | cons entry rest ih => rw [Templates.addNode, Draw.addTo, ih]

section Outermost

variable {ns : List Node}

theorem withoutPartial_eq : Source.withoutPartial ns = ns := by
  refine filter_eq_self.mpr fun n _ => ?_
  refine all_eq_true.mpr fun c inside => ?_
  exact any_eq_true.mpr ⟨c, inside, beq_self_eq_true _⟩

theorem nonoverlapping_ne_nil (some : ns ≠ []) : Source.nonoverlapping ns ≠ [] := by
  unfold Source.nonoverlapping
  have perm := mergeSort_perm ns Node.before
  cases sorted : ns.mergeSort Node.before with
  | nil =>
    rw [sorted] at perm
    exact absurd perm.nil_eq.symm some
  | cons n rest => simp [Source.keepDisjoint]

end Outermost

def listed (name : String) (root : Node) : List Node := Source.nonoverlapping (under name (recorded none (preorder root)))

theorem walk_reduced {edges : List (String × List String)} {t : Templates}
    (read : Templates.walk { edges } root = .ok t) : t.reduced = (templateNames root).map fun name => (name, listed name root) := by
  rw [walk_eq] at read
  rw [Templates.reduced, foldlM_visit_ok read]
  simp only [addNode_eq]
  rw [grouped, map_map]
  refine map_congr_left fun name _ => ?_
  simp only [Function.comp_apply, withoutPartial_eq, listed]

theorem listed_eq_nil_iff {name : String} : listed name root = [] ↔ name ∉ templateNames root := by
  rw [templateNames, mem_eraseDups]
  constructor
  · intro none known
    obtain ⟨r, recorded, rfl⟩ := mem_map.mp known
    have some : r.2 ∈ under r.1 _ := mem_map.mpr ⟨r, mem_filter.mpr ⟨recorded, by simp⟩, rfl⟩
    exact nonoverlapping_ne_nil (ne_nil_of_mem some) none
  · intro unknown
    rw [listed, under_eq_nil unknown]
    simp [Source.nonoverlapping, Source.keepDisjoint]

theorem parseTemplates_eq {source target : Node} (parsed : parseTemplates source target = .ok p) :
    p.pairs = (templateNames source).map fun name => { name, before := listed name source, after := listed name target } := by
  obtain ⟨before, first, parsed⟩ := bind_cases parsed
  obtain ⟨after, second, parsed⟩ := bind_cases parsed
  cases parsed
  simp only [walk_reduced first, walk_reduced second, map_map, find?_map, Option.map_map]
  refine map_congr_left fun name _ => ?_
  cases found : (templateNames target).find? ((·.1 == name) ∘ fun name => (name, listed name target)) with
  | none =>
    have unknown : name ∉ templateNames target := fun known => find?_eq_none.mp found name known (beq_self_eq_true name)
    rw [listed_eq_nil_iff.mpr unknown, Function.comp_apply, found]
    rfl
  | some other =>
    obtain rfl : other = name := by simpa using find?_some found
    rw [Function.comp_apply, found]
    rfl

theorem parseTemplates_pairs {source target : Node} (parsed : parseTemplates source target = .ok p) :
    p.pairs.map Pair.name = templateNames source ∧ ∀ pair ∈ p.pairs, pair.before ≠ [] := by
  rw [parseTemplates_eq parsed, map_map]
  refine ⟨map_id'' (fun _ => rfl) _, ?_⟩
  intro pair inside
  obtain ⟨name, known, rfl⟩ := mem_map.mp inside
  exact mt listed_eq_nil_iff.mp (not_not.mpr known)

end Rulewright.Inference
