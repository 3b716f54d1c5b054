import Rulewright.Diff.Match

/-!
The unified form of a diff: groups of changes, each with three lines around it.
-/

namespace Rulewright.Diff

structure Step where
  equal : Bool
  leftFrom : Nat
  leftTo : Nat
  rightFrom : Nat
  rightTo : Nat
  deriving DecidableEq, Repr

def stepsFrom (left right : Nat) : List Block → List Step
  | [] => []
  | m :: rest =>
    (if left < m.left || right < m.right then
      [{ equal := false, leftFrom := left, leftTo := m.left, rightFrom := right, rightTo := m.right }] else []) ++
    (if 0 < m.size then
      [{ equal := true, leftFrom := m.left, leftTo := m.left + m.size, rightFrom := m.right
         rightTo := m.right + m.size }] else []) ++
    stepsFrom (m.left + m.size) (m.right + m.size) rest

def steps (a b : List String) : List Step :=
  stepsFrom 0 0 (blocks a b ++ [{ left := a.length, right := b.length, size := 0 }])

def Step.lastLines (n : Nat) (s : Step) : Step :=
  { s with leftFrom := max s.leftFrom (s.leftTo - n), rightFrom := max s.rightFrom (s.rightTo - n) }

def Step.firstLines (n : Nat) (s : Step) : Step :=
  { s with leftTo := min s.leftTo (s.leftFrom + n), rightTo := min s.rightTo (s.rightFrom + n) }

def trimEnds (n : Nat) (steps : List Step) : List Step :=
  let steps :=
    match steps with
    | s :: rest => (if s.equal then s.lastLines n else s) :: rest
    | [] => []
  match steps.reverse with
  | s :: rest => ((if s.equal then s.firstLines n else s) :: rest).reverse
  | [] => []

def groupsFrom (n : Nat) : List Step → List Step → List (List Step)
  | group, [] =>
    match group with
    | [] => []
    | [s] => if s.equal then [] else [[s]]
    | group => [group]
  | group, s :: rest =>
    if s.equal && 2 * n < s.leftTo - s.leftFrom then
      (group ++ [s.firstLines n]) :: groupsFrom n [s.lastLines n] rest
    else groupsFrom n (group ++ [s]) rest

def groups (n : Nat) (a b : List String) : List (List Step) :=
  groupsFrom n [] (trimEnds n (steps a b))

def range (start stop : Nat) : String :=
  let size := stop - start
  if size == 1 then toString (start + 1)
  else if size == 0 then toString start ++ "," ++ toString size
  else toString (start + 1) ++ "," ++ toString size

def stepLines (a b : List String) (s : Step) : List String :=
  if s.equal then (slice a s.leftFrom s.leftTo).map (" " ++ ·)
  else (slice a s.leftFrom s.leftTo).map ("-" ++ ·) ++ (slice b s.rightFrom s.rightTo).map ("+" ++ ·)

def groupLines (a b : List String) (group : List Step) : List String :=
  match group.head?, group.getLast? with
  | some first, some last =>
    ("@@ -" ++ range first.leftFrom last.leftTo ++ " +" ++ range first.rightFrom last.rightTo ++ " @@\n") ::
      group.flatMap (stepLines a b)
  | _, _ => []

def unified (a b : List String) : List String :=
  match groups 3 a b with
  | [] => []
  | gs => "--- \n" :: "+++ \n" :: gs.flatMap (groupLines a b)

end Rulewright.Diff
