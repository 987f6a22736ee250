/-!
# Indented lines

A listing is a sequence of steps: write a line, go one level in, go one level out. Each line is
indented by four spaces a level and ends in a line feed.
-/

namespace PathQuery

/-- The text written so far and the current level. -/
structure Emitter where
  text : String := ""
  depth : Nat := 0

namespace Emitter

inductive Step where
  | emit (line : String)
  | indent
  | outdent
deriving DecidableEq

def indentation (depth : Nat) : String := String.join (List.replicate depth "    ")

def apply (emitter : Emitter) : Step → Emitter
  | .emit line => { emitter with text := emitter.text ++ indentation emitter.depth ++ line ++ "\n" }
  | .indent => { emitter with depth := emitter.depth + 1 }
  | .outdent => { emitter with depth := emitter.depth - 1 }

def run (emitter : Emitter) (steps : List Step) : Emitter := steps.foldl apply emitter

theorem run_append (emitter : Emitter) (first second : List Step) :
    emitter.run (first ++ second) = (emitter.run first).run second :=
  List.foldl_append

end Emitter

end PathQuery
