/-!
Matching two sequences of lines: the longest run they share, then the same on both sides of it. Lines
that occur very often in a long second sequence are not used to start a run.
-/

namespace Rulewright.Diff

structure Block where
  left : Nat
  right : Nat
  size : Nat
  deriving DecidableEq, Repr

structure Window where
  leftFrom : Nat
  leftTo : Nat
  rightFrom : Nat
  rightTo : Nat
  deriving DecidableEq, Repr

def isPopular (lines : List String) (line : String) : Bool :=
  200 ≤ lines.length && lines.length / 100 + 1 < lines.count line

/-- The lengths of the runs that end at each position of the second sequence, after one more line of the
first. A popular line ends no run. -/
def extendRuns (line : String) (usable : Bool) : Nat → List Nat → List String → List Nat
  | _, _, [] => []
  | before, runs, other :: rest =>
    (if usable && other == line then before + 1 else 0) ::
      extendRuns line usable (runs.head?.getD 0) (runs.drop 1) rest

def better (i : Nat) : Nat → Block → List Nat → Block
  | _, best, [] => best
  | j, best, k :: rest =>
    better i (j + 1) (if best.size < k then { left := i + 1 - k, right := j + 1 - k, size := k } else best) rest

def longestRun (popular : String → Bool) (right : List String) (rightFrom : Nat) :
    Nat → Block → List Nat → List String → Block
  | _, best, _, [] => best
  | i, best, runs, line :: rest =>
    let runs := extendRuns line (!popular line) 0 runs right
    longestRun popular right rightFrom (i + 1) (better i rightFrom best runs) runs rest

def commonStart : List String → List String → Nat
  | a :: as, b :: bs => if a == b then commonStart as bs + 1 else 0
  | _, _ => 0

def slice (xs : List String) (start stop : Nat) : List String := (xs.take stop).drop start

def longestMatch (a b : List String) (w : Window) : Block :=
  let left := slice a w.leftFrom w.leftTo
  let right := slice b w.rightFrom w.rightTo
  let best := longestRun (isPopular b) right w.rightFrom w.leftFrom
    { left := w.leftFrom, right := w.rightFrom, size := 0 } [] left
  let back := commonStart (slice a w.leftFrom best.left).reverse (slice b w.rightFrom best.right).reverse
  let on := commonStart (slice a (best.left + best.size) w.leftTo) (slice b (best.right + best.size) w.rightTo)
  { left := best.left - back, right := best.right - back, size := back + best.size + on }

/-- The runs shared in a window, in order. Every run shortens what is left, so the number of lines is
enough fuel. -/
def blocksIn (a b : List String) : Nat → Window → List Block
  | 0, _ => []
  | fuel + 1, w =>
    let m := longestMatch a b w
    if m.size == 0 then []
    else
      (if w.leftFrom < m.left && w.rightFrom < m.right then
        blocksIn a b fuel { w with leftTo := m.left, rightTo := m.right } else []) ++
      m ::
      (if m.left + m.size < w.leftTo && m.right + m.size < w.rightTo then
        blocksIn a b fuel { w with leftFrom := m.left + m.size, rightFrom := m.right + m.size } else [])

def joinBlocks : Block → List Block → List Block
  | m, [] => if m.size == 0 then [] else [m]
  | m, n :: rest =>
    if m.left + m.size == n.left && m.right + m.size == n.right then joinBlocks { m with size := m.size + n.size } rest
    else if m.size == 0 then joinBlocks n rest
    else m :: joinBlocks n rest

def blocks (a b : List String) : List Block :=
  joinBlocks { left := 0, right := 0, size := 0 }
    (blocksIn a b (a.length + b.length + 1)
      { leftFrom := 0, leftTo := a.length, rightFrom := 0, rightTo := b.length })

end Rulewright.Diff
