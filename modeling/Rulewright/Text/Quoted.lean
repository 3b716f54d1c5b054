import Rulewright.Text.Printable
import Rulewright.Text.Search

/-!
Texts in quotes, as they stand in messages: single quotes unless the text holds a single and no
double quote; backslashes, line ends and tabs are escaped, and so is what cannot be printed.
-/

namespace Rulewright.Text

def hexWide (width n : Nat) : String :=
  let digits := Nat.toDigits 16 n
  String.ofList (List.replicate (width - digits.length) '0' ++ digits)

def quoteFor (s : String) : Char :=
  if s.toList.contains '\'' && !s.toList.contains '"' then '"' else '\''

def escapeOf (c : Char) : String :=
  let n := c.toNat
  if n < 0x100 then "\\x" ++ hexWide 2 n
  else if n < 0x10000 then "\\u" ++ hexWide 4 n
  else "\\U" ++ hexWide 8 n

def escapeIn (quote c : Char) : String :=
  if c == quote || c == '\\' then String.ofList ['\\', c]
  else if c == '\n' then "\\n"
  else if c == '\r' then "\\r"
  else if c == '\t' then "\\t"
  else if isPrintable c then String.singleton c
  else escapeOf c

def quotedBody (s : String) : String := String.join (s.toList.map (escapeIn (quoteFor s)))

def quoted (s : String) : String :=
  String.singleton (quoteFor s) ++ quotedBody s ++ String.singleton (quoteFor s)

end Rulewright.Text
