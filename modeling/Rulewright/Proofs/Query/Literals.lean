import Rulewright.Proofs.Query.Patterns

/-!
Reading the constraints of a query. A constraint quotes the text of a leaf as it stands, so a reader of the query language finds that text
again exactly if nothing in it ends the literal or escapes a character (`constraints_denote_iff`).
-/

open List

namespace Rulewright.Query

open Source (Node)

/-- A literal after its opening quote (or after a backslash in it), as the query language reads it, and what follows it. -/
def literal (escape : Char → Char) : Bool → List Char → Option (List Char × List Char)
  | _, [] => none
  | true, c :: rest => (literal escape false rest).map fun r => (escape c :: r.1, r.2)
  | false, c :: rest =>
    if c = '"' then some ([], rest)
    else if c = '\\' then literal escape true rest
    else (literal escape false rest).map fun r => (c :: r.1, r.2)

/-- The text that a constraint compares with: its first literal, if only the closing parenthesis follows. -/
def denoted (escape : Char → Char) (constraint : String) : Option String :=
  (literal escape false (constraint.toList.dropWhile (· != '"')).tail).bind fun r => if r.2 = [')'] then some (String.ofList r.1) else none

def IsBare (cs : List Char) : Prop := '"' ∉ cs ∧ '\\' ∉ cs

instance (cs : List Char) : Decidable (IsBare cs) := inferInstanceAs (Decidable (_ ∧ _))

section Literals

variable {escape : Char → Char} {cs text rest : List Char} {escaped : Bool}

theorem literal_bare (bare : IsBare text) : literal escape false (text ++ '"' :: rest) = some (text, rest) := by
  induction text with
  | nil => simp [literal]
  | cons c text ih =>
    obtain ⟨quote, quotes⟩ := not_or.mp (mem_cons.not.mp bare.1)
    obtain ⟨slash, slashes⟩ := not_or.mp (mem_cons.not.mp bare.2)
    rw [cons_append, literal, if_neg (Ne.symm quote), if_neg (Ne.symm slash), ih ⟨quotes, slashes⟩]
    rfl

/-- A literal is never shorter than what it denotes, and longer if it escapes anything. -/
theorem literal_body (read : literal escape escaped cs = some (text, rest)) :
    ∃ body, cs = body ++ '"' :: rest ∧ text.length ≤ body.length ∧ (escaped = false → text.length = body.length → IsBare body) := by
  fun_induction literal escape escaped cs generalizing text with
  | case1 => cases read
  | case2 c after ih =>
    obtain ⟨⟨inner, left⟩, found, same⟩ := Option.map_eq_some_iff.mp read
    cases same
    obtain ⟨body, rfl, shorter, -⟩ := ih found
    exact ⟨c :: body, rfl, Nat.succ_le_succ shorter, fun plain => by cases plain⟩
  | case3 =>
    cases read
    exact ⟨[], rfl, Nat.le_refl _, fun _ _ => by decide⟩
  | case4 after _ ih =>
    obtain ⟨body, rfl, shorter, -⟩ := ih read
    exact ⟨'\\' :: body, rfl, Nat.le_succ_of_le shorter, fun _ same => absurd shorter (by rw [same, length_cons]; omega)⟩
  | case5 c after quote slash ih =>
    obtain ⟨⟨inner, left⟩, found, same⟩ := Option.map_eq_some_iff.mp read
    cases same
    obtain ⟨body, rfl, shorter, bare⟩ := ih found
    refine ⟨c :: body, rfl, Nat.succ_le_succ shorter, fun _ same => ?_⟩
    have inside := bare rfl (Nat.succ.inj same)
    exact ⟨by simp [Ne.symm quote, inside.1], by simp [Ne.symm slash, inside.2]⟩

theorem denoted_equals (k : Nat) (x : String) :
    denoted escape (equals (captureName k) x) =
      (literal escape false (x.toList ++ ['"', ')'])).bind fun r => if r.2 = [')'] then some (String.ofList r.1) else none := by
  have digits : '"' ∉ Nat.toDigits 10 k := fun inside => absurd (Nat.isDigit_of_mem_toDigits (by decide) (by decide) inside) (by decide)
  have free : '"' ∉ ("(#eq? " ++ captureName k ++ " ").toList := by simpa [captureName] using digits
  have split : (equals (captureName k) x).toList = ("(#eq? " ++ captureName k ++ " ").toList ++ '"' :: (x.toList ++ ['"', ')']) := by
    simp [equals]
  have before : ∀ c ∈ ("(#eq? " ++ captureName k ++ " ").toList, (c != '"') := by
    intro c inside
    rw [bne_iff_ne]
    rintro rfl
    exact free inside
  rw [denoted, split, dropWhile_append_of_pos before]
  simp

theorem denoted_iff (k : Nat) (x : String) : denoted escape (equals (captureName k) x) = some x ↔ IsBare x.toList := by
  rw [denoted_equals]
  constructor
  · intro read
    obtain ⟨⟨text, rest⟩, found, read⟩ := Option.bind_eq_some_iff.mp read
    obtain ⟨rfl, read⟩ := Option.ite_none_right_eq_some.mp read
    cases read
    obtain ⟨body, whole, -, bare⟩ := literal_body found
    have same : (String.ofList text).toList = body := append_cancel_right (whole : _ ++ ['"', ')'] = body ++ ['"', ')'])
    rw [same]
    exact bare rfl (by rw [← same, String.toList_ofList])
  · intro bare
    rw [literal_bare bare]
    simp

end Literals

namespace Writer

variable {nodes : List Node} {simplify : Bool}

/-- Every constraint denotes the text of its leaf exactly if no such text has a quote or a backslash. -/
theorem constraints_denote_iff (escape : Char → Char) (readable : ∀ leaf ∈ nodes.flatMap (constrained simplify), ∃ text, leaf.text = .ok text) :
    ∃ w, write simplify nodes = .ok w ∧
      (List.Forall₂ (fun constraint leaf => ∃ text, leaf.text = .ok text ∧ denoted escape constraint = some text) w.constraints
        (nodes.flatMap (constrained simplify)) ↔
      ∀ leaf ∈ nodes.flatMap (constrained simplify), ∀ text, leaf.text = .ok text → '"' ∉ text.toList ∧ '\\' ∉ text.toList) := by
  have checked : ∀ m ∈ nodes.flatMap (asked simplify), m.IsReadable := fun m inside leaf => by
    obtain ⟨n, listed, inside⟩ := mem_flatMap.mp inside
    exact readable m (mem_flatMap.mpr ⟨n, listed, List.mem_filter.mpr ⟨inside, by simp [leaf]⟩⟩)
  obtain ⟨texts, taken, -, written⟩ := write_eq simplify nodes
  rw [checkAll_ok_iff.mpr checked] at written
  have same : nodes.flatMap (constrained simplify) = (leaves (number 1 (nodes.flatMap (asked simplify)))).map Prod.snd := by
    have apart := @filter_map _ _ Prod.snd (fun n => n.children.isEmpty) (number 1 (nodes.flatMap (asked simplify)))
    rwa [map_snd_number, filter_flatMap] at apart
  refine ⟨_, written, ?_⟩
  dsimp only [Writer.plus]
  rw [nil_append, same, forall₂_map_left_iff, forall₂_map_right_iff, forall₂_same, forall_mem_map]
  refine forall₂_congr fun c inside => ?_
  obtain ⟨numbered, leaf⟩ := mem_leaves.mp inside
  obtain ⟨i, at_i, tag⟩ := mem_number.mp numbered
  obtain ⟨text, read⟩ := checked c.2 (mem_of_getElem? at_i) leaf
  simp only [read, Except.ok.injEq, exists_eq_left', forall_eq']
  rw [spell_eq read, tag, denoted_iff]
  rfl

theorem operands_denote :
    ∃ w, write true [Source.operation "a" "+" "b"] = .ok w ∧
      List.Forall₂ (fun constraint leaf => ∃ text, leaf.text = .ok text ∧ denoted id constraint = some text) w.constraints
        [Source.word "identifier" "a" true, Source.word "identifier" "b" true] := by
  obtain ⟨w, done, right⟩ := @constraints_denote_iff [Source.operation "a" "+" "b"] true id fun leaf inside => by
    rcases inside with _ | ⟨_, _ | ⟨_, nothing⟩⟩
    · exact ⟨"a", rfl⟩
    · exact ⟨"b", rfl⟩
    · cases nothing
  refine ⟨w, done, right.mpr fun leaf inside text read => ?_⟩
  rcases inside with _ | ⟨_, _ | ⟨_, nothing⟩⟩
  · cases read
    decide
  · cases read
    decide
  · cases nothing

/-- The texts that the constraints of a query denote where a backslash stands for the next character. -/
def reread (nodes : List Node) : Except Source.Error (List (Option String)) := do
  let w ← write false nodes
  return w.constraints.map (denoted id)

/-- The literal of a quoted leaf ends within its text, and that of an escape loses the backslash. -/
theorem quoted_leaves_denote_less :
    reread [Source.word "string" "\"a\"" true, Source.word "regex" "\\d" true] = .ok [none, some "d"] := by
  cbv

end Writer
end Rulewright.Query
