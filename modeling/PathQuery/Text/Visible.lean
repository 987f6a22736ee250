import PathQuery.Text.Invisible
import PathQuery.Text.Quoted

/-!
# Text made visible

A text as an error message shows it: in double quotes, every character that has no glyph replaced
by its code point.
-/

namespace PathQuery.Text

/-- A character as a message shows it. -/
def visibleChar (c : Char) : String :=
  if c == '"' then "\\\""
  else if c == '\\' then "\\\\"
  else if c == '\n' then "\\n"
  else if c == '\r' then "\\r"
  else if c == '\t' then "\\t"
  else if c == '\x00' then "\\0"
  else if isInvisible c then "\\u\x7b" ++ hex 1 c.toNat ++ "\x7d"
  else String.singleton c

/-- The text in double quotes, with nothing hidden. -/
def visible (s : String) : String := "\"" ++ String.join (s.toList.map visibleChar) ++ "\""

end PathQuery.Text
