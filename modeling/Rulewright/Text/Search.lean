/-!
Finding, splitting and replacing inside a text. Occurrences are taken from left to right and do
not overlap.
-/

namespace Rulewright.Text

def pieces (sep : List Char) : Nat → List Char → List Char → List (List Char)
  | _, done, [] => [done.reverse]
  | skip + 1, done, _ :: rest => pieces sep skip done rest
  | 0, done, c :: rest =>
    if sep.isPrefixOf (c :: rest) then done.reverse :: pieces sep (sep.length - 1) [] rest
    else pieces sep 0 (c :: done) rest

def cut (sep cs : List Char) : List (List Char) := pieces sep 0 [] cs

def cutOnce (sep : List Char) : List Char → Option (List Char × List Char)
  | [] => if sep.isEmpty then some ([], []) else none
  | c :: rest =>
    if sep.isPrefixOf (c :: rest) then some ([], (c :: rest).drop sep.length)
    else (cutOnce sep rest).map fun (front, back) => (c :: front, back)

def cutAtMost (sep : List Char) : Nat → List Char → List (List Char)
  | 0, cs => [cs]
  | n + 1, cs =>
    match cutOnce sep cs with
    | none => [cs]
    | some (front, back) => front :: cutAtMost sep n back

def contains (part : List Char) : List Char → Bool
  | [] => part.isEmpty
  | c :: rest => part.isPrefixOf (c :: rest) || contains part rest

def occurrences (part cs : List Char) : Nat := (cut part cs).length - 1

def between (new : List Char) : List Char → List Char
  | [] => new
  | c :: rest => new ++ c :: between new rest

def replace (old new cs : List Char) : List Char :=
  if old.isEmpty then between new cs else new.intercalate (cut old cs)

def replaceAll (s old new : String) : String :=
  String.ofList (replace old.toList new.toList s.toList)

def holds (s part : String) : Bool := contains part.toList s.toList

def splitAt (s sep : String) : List String := (cut sep.toList s.toList).map String.ofList

def join (sep : String) (parts : List String) : String := sep.intercalate parts

end Rulewright.Text
