import Rulewright.Flag.Comment

/-!
Comments that stand at several places. A comment is numbered by the place where it was first seen; moving
it to another node leaves a copy behind that carries the same number. When one copy changes, the others
follow. What is shown of a tree has no numbers.
-/

namespace Rulewright.Flag

open Comment

def label (place : String) : Value → Value
  | .dict entries => .dict (Entries.put numberKey (.str place) entries)
  | v => v

def labelItems (place : String) (comments : List Value) : List Value :=
  comments.mapIdx fun i c => label (place ++ "/" ++ toString i) c

mutual

def labelAll (place : String) : Value → Value
  | .list items => .list (labelElements place 0 items)
  | .dict entries => .dict (labelFields place entries)
  | v => v

def labelElements (place : String) (i : Nat) : List Value → List Value
  | [] => []
  | v :: rest => labelAll (place ++ "/" ++ toString i) v :: labelElements place (i + 1) rest

def labelFields (place : String) : List (String × Value) → List (String × Value)
  | [] => []
  | (key, .list items) :: rest =>
    let inside := place ++ "/" ++ key
    let items := labelElements inside 0 items
    (key, .list (if key == "comments" then labelItems inside items else items)) :: labelFields place rest
  | (key, v) :: rest => (key, labelAll (place ++ "/" ++ key) v) :: labelFields place rest

end

mutual

def copies : Value → List Value
  | .list items => copiesInItems items
  | .dict entries =>
    let inside := copiesInFields entries
    if (number? (.dict entries)).isSome then .dict entries :: inside else inside
  | _ => []

def copiesInItems : List Value → List Value
  | [] => []
  | v :: rest => copies v ++ copiesInItems rest

def copiesInFields : List (String × Value) → List Value
  | [] => []
  | (_, v) :: rest => copies v ++ copiesInFields rest

end

mutual

def refreshAll (fresh : List Value) : Value → Value
  | .list items => .list (refreshItems fresh items)
  | .dict entries => refresh fresh (.dict (refreshFields fresh entries))
  | v => v

def refreshItems (fresh : List Value) : List Value → List Value
  | [] => []
  | v :: rest => refreshAll fresh v :: refreshItems fresh rest

def refreshFields (fresh : List Value) : List (String × Value) → List (String × Value)
  | [] => []
  | (key, v) :: rest => (key, refreshAll fresh v) :: refreshFields fresh rest

end

def followCopies (before after : Value) : Value :=
  let old := copies before
  let fresh := (copies after).filter fun c => (old.find? (isCopy c)).any fun o => o != c
  if fresh.isEmpty then after else refreshAll fresh after

/-- A number as it is written: whole if it has no fraction and is not too large, and a text if it is not
finite. -/
def shownNumber (x : Double) : Value :=
  let text := x.render .plain
  match x with
  | .finite negative _ _ =>
    let digits := text.toList.filter (· != '-')
    if digits.all Char.isDigit then
      let n : Int := digits.foldl (fun n c => n * 10 + (c.toNat - '0'.toNat)) 0
      .int (if negative then -n else n)
    else .real x
  | _ => .str text

mutual

def shown : Value → Value
  | .list items => .list (shownItems items)
  | .dict entries => .dict (shownFields entries)
  | .real x => shownNumber x
  | v => v

def shownItems : List Value → List Value
  | [] => []
  | v :: rest => shown v :: shownItems rest

def shownFields : List (String × Value) → List (String × Value)
  | [] => []
  | (key, v) :: rest => if key == numberKey then shownFields rest else (key, shown v) :: shownFields rest

end

end Rulewright.Flag
