import PathQuery.Decimal.Layout
import PathQuery.Node.Interchange
import PathQuery.Text.Quoted

/-!
# Literals

The text of a value in a listing.
-/

namespace PathQuery.Value

/-- Numbers from `1e-4` to below `1e16` are positional; other exponents carry no plus sign. -/
def floatLayout : Layout where
  plainFrom := -4
  plainTo := 15
  plus := false
  tie := .up

def floatLiteral (x : Binary64) : String :=
  if x.isFinite then floatLayout.render x
  else if x.isNaN then "NaN"
  else if x.negative then "-inf"
  else "inf"

mutual

/-- The text of a value. Strings are quoted, items and entries are divided by commas, and an
expression reference shows its node. -/
def literal : Value → String
  | .null => "null"
  | .boolean b => if b then "true" else "false"
  | .integer n => toString n
  | .float x => floatLiteral x
  | .string s => Text.quote s
  | .array items => "[" ++ ", ".intercalate (literalItems items) ++ "]"
  | .object entries => "\x7b" ++ ", ".intercalate (literalEntries entries) ++ "\x7d"
  | .expref _ node => "expref(" ++ node.text ++ ")"

@[inherit_doc literal]
def literalItems : List Value → List String
  | [] => []
  | item :: items => item.literal :: literalItems items

@[inherit_doc literal]
def literalEntries : List (String × Value) → List String
  | [] => []
  | (key, item) :: entries => (Text.quote key ++ ": " ++ item.literal) :: literalEntries entries

end

end PathQuery.Value
