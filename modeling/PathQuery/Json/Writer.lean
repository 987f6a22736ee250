import PathQuery.Decimal.Layout
import PathQuery.Json.Basic

/-!
# Writing JSON

`compact` writes a value without blanks, `pretty` over several lines with two spaces a level.
Characters outside ASCII are written as they are.
-/

namespace PathQuery.Json

/-- Numbers from `1e-5` to below `1e16` are positional; other exponents carry their sign. -/
def numberLayout : Layout where
  plainFrom := -5
  plainTo := 15
  plus := true
  tie := .toEven

/-- Two hexadecimal digits in lower case. -/
def hexByte (n : Nat) : String :=
  String.ofList [Nat.digitChar (n / 16 % 16), Nat.digitChar (n % 16)]

/-- A character as it stands in a quoted string. -/
def escape (c : Char) : String :=
  if c == '"' then "\\\""
  else if c == '\\' then "\\\\"
  else if c == '\x08' then "\\b"
  else if c == '\x0c' then "\\f"
  else if c == '\n' then "\\n"
  else if c == '\r' then "\\r"
  else if c == '\t' then "\\t"
  else if c < ' ' then "\\u00" ++ hexByte c.toNat
  else String.singleton c

def quote (s : String) : String := "\"" ++ String.join (s.toList.map escape) ++ "\""

/-- A value that is neither an array nor an object. -/
def scalar : Json → String
  | .null => "null"
  | .bool b => if b then "true" else "false"
  | .integer n => toString n
  | .float x => if x.isFinite then numberLayout.render x else "null"
  | .string s => quote s
  | .array _ => "[]"
  | .object _ => "\x7b\x7d"

mutual

/-- The text without blanks. -/
def compact : Json → String
  | .array items => "[" ++ ",".intercalate (compactItems items) ++ "]"
  | .object members => "\x7b" ++ ",".intercalate (compactMembers members) ++ "\x7d"
  | j => scalar j

@[inherit_doc compact]
def compactItems : List Json → List String
  | [] => []
  | item :: items => item.compact :: compactItems items

@[inherit_doc compact]
def compactMembers : List (String × Json) → List String
  | [] => []
  | (key, item) :: members => (quote key ++ ":" ++ item.compact) :: compactMembers members

end

/-- A line break and the indentation of level `level`. -/
def newline (level : Nat) : String := "\n" ++ String.join (List.replicate level "  ")

/-- The parts of an array or object between its brackets, one a line, the brackets at level
`level`. -/
def block (level : Nat) (opening closing : String) (parts : List String) : String :=
  opening ++ newline (level + 1) ++ ("," ++ newline (level + 1)).intercalate parts ++
    newline level ++ closing

mutual

/-- The text over several lines, starting at level `level`. An empty array or object is written as
its brackets. -/
def indented (level : Nat) : Json → String
  | .array (item :: items) =>
    block level "[" "]" (item.indented (level + 1) :: indentedItems (level + 1) items)
  | .object (member :: members) =>
    block level "\x7b" "\x7d" (indentedMembers (level + 1) (member :: members))
  | j => scalar j

@[inherit_doc indented]
def indentedItems (level : Nat) : List Json → List String
  | [] => []
  | item :: items => item.indented level :: indentedItems level items

@[inherit_doc indented]
def indentedMembers (level : Nat) : List (String × Json) → List String
  | [] => []
  | (key, item) :: members =>
    (quote key ++ ": " ++ item.indented level) :: indentedMembers level members

end

/-- The text over several lines. -/
def pretty (j : Json) : String := j.indented 0

end PathQuery.Json
