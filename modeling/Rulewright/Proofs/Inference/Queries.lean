import Rulewright.Proofs.Agent.StaticGraph
import Rulewright.Proofs.Query.Patterns
import Rulewright.Proofs.Toml.Lines

/-!
The shape of an inferred query. The named children of a node stand on lines of their own, so the first line of its pattern ends after the kind and a
blank, unless the node has no named children.
-/

open List

namespace Rulewright.Query.Writer

open Source (Node)

theorem write_single {w : Writer} {n : Node} (done : write false [n] = .ok w) :
    ∃ k inner constraints, w.outermost = some (captureName k) ∧
      w.query.toList = ['(', '('] ++ n.kind.toList ++ ' ' :: (inner.toList ++ ')' :: ' ' :: (captureName k).toList ++ '\n' :: constraints) ∧
      (inner = "" ∧ n.children.any Node.named = false ∨ (∃ rest, inner = "\n" ++ rest) ∧ n.children.any Node.named) := by
  obtain ⟨ps, tells⟩ := write_tells done
  obtain ⟨p, rfl, rfl⟩ := map_eq_singleton_iff.mp tells.roots
  obtain ⟨n, inner, capture⟩ := p
  obtain ⟨name, outermost⟩ := tells.outermost _ rfl
  have named : capture = captureName w.count := name
  have children : inner.map Pattern.node = n.children.filter Node.named := tells.fits.1.1
  refine ⟨w.count, Pattern.texts 1 inner, (Text.join "\n" w.constraints).toList ++ [')'], by rw [outermost, name], ?_, ?_⟩
  · simp [tells.query, named, Pattern.text, Pattern.node, Text.join, Source.indent]
  · cases inner with
    | nil => exact .inl ⟨rfl, by simpa [Pattern.node] using children⟩
    | cons p ps =>
      have listed : p.node ∈ n.children.filter Node.named := children ▸ mem_cons_self
      obtain ⟨inside, named⟩ := List.mem_filter.mp listed
      exact .inr ⟨⟨_, String.append_assoc ..⟩, any_eq_true.mpr ⟨_, inside, named⟩⟩

end Rulewright.Query.Writer

namespace Rulewright.Inference

open Source (Node)

def Replaces (r : Rule) (n : Node) : Prop := ∃ name text, ruleFor name n text = .ok r

theorem ruleFor_query {name text : String} {n : Node} {r : Rule} (made : ruleFor name n text = .ok r) :
    ∃ (k : Nat) (query replace : String), r = Rule.plain name query ("tag" ++ toString k ++ "n") replace ∧ query ≠ "" ∧
      ('\n' ∉ n.kind.toList → (Toml.asRead query.toList = query.toList ↔ n.children.any Node.named = false)) := by
  obtain ⟨w, written, made⟩ := bind_cases made
  obtain ⟨replace, -, made⟩ := bind_cases made
  cases made
  obtain ⟨k, inner, constraints, outermost, query, shape⟩ := Query.Writer.write_single (liftSource_ok written)
  refine ⟨k, w.query, replace, ?_, ?_, fun single => ?_⟩
  · have node : String.ofList ((Query.captureName k).toList.drop 1) = "tag" ++ toString k ++ "n" := by
      rw [← String.ofList_toList (s := "tag" ++ toString k ++ "n")]
      simp [Query.captureName]
    rw [outermost, Option.getD_some, node]
    rfl
  · intro empty
    simp [empty] at query
  · rcases shape with ⟨rfl, none⟩ | ⟨⟨rest, rfl⟩, some⟩
    · -- all of the pattern is on the first line, which ends with the capture
      have line : w.query.toList =
          (['(', '('] ++ n.kind.toList ++ ' ' :: ')' :: ' ' :: ("@tag" ++ toString k).toList ++ ['n']) ++ '\n' :: constraints := by
        simp [query, Query.captureName]
      have visible : Text.isBlank 'n' = false := by decide
      have digits : '\n' ∉ Nat.toDigits 10 k := fun inside => absurd (Nat.isDigit_of_mem_toDigits (by decide) (by decide) inside) (by decide)
      rw [line, Toml.asRead_lines (by simp [single, digits]), Text.trimEnd_of_last visible]
      simp [none]
    · have line : w.query.toList =
          (['(', '('] ++ n.kind.toList ++ [' ']) ++ '\n' :: (rest.toList ++ ')' :: ' ' :: (Query.captureName k).toList ++ '\n' :: constraints) := by
        simp [query]
      have blank : Text.isBlank ' ' := by decide
      rw [line, Toml.asRead_lines (by simp [single]), append_cancel_right_eq]
      exact iff_of_false (Text.trimEnd_concat_ne blank) (by simp [some])

end Rulewright.Inference
