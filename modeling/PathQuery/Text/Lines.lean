/-!
# Lines

A text is divided at its line feeds; a carriage return right before a line feed belongs to the
line end. A final line feed opens no further line.
-/

namespace PathQuery.Text

/-- The lines of `cs`, where `line` holds what was read of the current line, last character first.
-/
def linesFrom (line : List Char) : List Char → List String
  | [] => if line.isEmpty then [] else [String.ofList line.reverse]
  | '\r' :: '\n' :: rest => String.ofList line.reverse :: linesFrom [] rest
  | '\n' :: rest => String.ofList line.reverse :: linesFrom [] rest
  | c :: rest => linesFrom (c :: line) rest

def lines (s : String) : List String := linesFrom [] s.toList

end PathQuery.Text
