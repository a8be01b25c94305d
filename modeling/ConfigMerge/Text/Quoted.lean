import ConfigMerge.Text.Invisible

/-!
# Text/Quoted — texts in quotation marks, as diagnostics show them

A diagnostic shows a text between quotation marks so that its ends and its control characters can be
seen: quotation marks, backslashes, tabs and line ends get a backslash, and other characters that
cannot be seen are shown by their number.
-/

namespace ConfigMerge.Quoted

/-- A character between quotation marks. -/
def escapeChar (c : Char) : List Char :=
  if c = '"' then ['\\', '"']
  else if c = '\\' then ['\\', '\\']
  else if c = '\t' then ['\\', 't']
  else if c = '\n' then ['\\', 'n']
  else if c = '\r' then ['\\', 'r']
  else if c.toNat = 0 then ['\\', '0']
  else if Text.isInvisible c then
    '\\' :: 'u' :: '\x7b' :: Nat.toDigits 16 c.toNat ++ ['\x7d']
  else [c]

/-- A text between quotation marks. -/
def quote (s : String) : String :=
  String.ofList ('"' :: s.toList.flatMap escapeChar ++ ['"'])

end ConfigMerge.Quoted
