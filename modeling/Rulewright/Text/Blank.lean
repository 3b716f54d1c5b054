/-!
White space: the characters Unicode counts as blank, and trimming and deleting them.
-/

namespace Rulewright.Text

def isBlank (c : Char) : Bool :=
  let n := c.toNat
  (9 ≤ n && n ≤ 13) || (28 ≤ n && n ≤ 32) || n == 0x85 || n == 0xA0 || n == 0x1680 ||
    (0x2000 ≤ n && n ≤ 0x200A) || n == 0x2028 || n == 0x2029 || n == 0x202F || n == 0x205F || n == 0x3000

def trimStart (cs : List Char) : List Char := cs.dropWhile isBlank

def trimEnd (cs : List Char) : List Char := (cs.reverse.dropWhile isBlank).reverse

def trim (cs : List Char) : List Char := trimEnd (trimStart cs)

def squeeze (cs : List Char) : List Char := cs.filter (fun c => !isBlank c)

def strip (s : String) : String := String.ofList (trim s.toList)

def withoutBlanks (s : String) : String := String.ofList (squeeze s.toList)

end Rulewright.Text
