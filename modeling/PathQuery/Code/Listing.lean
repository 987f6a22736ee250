import PathQuery.Code.Basic
import PathQuery.Emitter
import PathQuery.Text.Lines
import PathQuery.Value.Literal

/-!
# Listings

A procedure written out as text, one statement a line. `Stmt.steps` gives the lines of a statement
as emitter steps, so that the text is fixed by the lines and their levels.
-/

namespace PathQuery

/-- The names of the slots, by their index. -/
abbrev SlotNames := List String

namespace SlotNames

def name (slots : SlotNames) (slot : Slot) : String := slots.getD slot.index ""

end SlotNames

def Operand.listing (slots : SlotNames) : Operand → String
  | .slot source => slots.name source
  | .literal value => value.literal

def Expr.listing (slots : SlotNames) : Expr → String
  | .literal value => value.literal
  | .load slot => slots.name slot
  | .field source name => "field(" ++ slots.name source ++ ", " ++ Text.quote name ++ ")"
  | .element source index =>
    "element(" ++ slots.name source ++ ", " ++ index.listing slots ++ ")"
  | .offset source delta =>
    "length(" ++ slots.name source ++ (if delta < 0 then ") - " else ") + ") ++
      toString delta.natAbs
  | .list items => "[" ++ ", ".intercalate (items.map (Operand.listing slots)) ++ "]"
  | .emptyObject => "\x7b\x7d"
  | .compare op left right =>
    let l := slots.name left
    let r := slots.name right
    if op.isOrdering then
      "is_int(" ++ l ++ ") && is_int(" ++ r ++ ") && " ++ l ++ " " ++ op.symbol ++ " " ++ r
    else (if op = .notEqual then "!" else "") ++ "equals(" ++ l ++ ", " ++ r ++ ")"
  | .not slot => "!truthy(" ++ slots.name slot ++ ")"
  | .call name args =>
    "interpreter.functions.invoke(" ++ Text.quote name ++ ", " ++ slots.name args ++ ")"
  | .expref _ node => "expref(" ++ node.text ++ ")"

def Test.listing (slots : SlotNames) : Test → String
  | .isNull slot => "is_null(" ++ slots.name slot ++ ")"
  | .isSequence slot => "is_sequence(" ++ slots.name slot ++ ")"
  | .isMapping slot => "is_mapping(" ++ slots.name slot ++ ")"
  | .falsy slot => "!truthy(" ++ slots.name slot ++ ")"
  | .isTrue slot => slots.name slot ++ " == true"
  | .emptySequence slot => "is_empty_sequence(" ++ slots.name slot ++ ")"
  | .nonEmptySequence slot => "is_nonempty_sequence(" ++ slots.name slot ++ ")"
  | .not (.falsy slot) => "truthy(" ++ slots.name slot ++ ")"
  | .not (.isTrue slot) => slots.name slot ++ " != true"
  | .not test => "!" ++ test.listing slots

namespace Stmt

open Emitter (Step)

mutual

/-- The lines of a statement. A branch without alternative has no `else`. -/
def steps (slots : SlotNames) : Stmt → List Step
  | .assign target expr => [.emit (slots.name target ++ " = " ++ expr.listing slots ++ ";")]
  | .branch test yes no =>
    .emit ("if " ++ test.listing slots ++ " \x7b") :: .indent :: stepsAll slots yes ++ .outdent ::
      (match no with
        | [] => []
        | _ => .emit "\x7d else \x7b" :: .indent :: stepsAll slots no ++ [.outdent]) ++
      [.emit "\x7d"]
  | .forEach item source body =>
    .emit ("for " ++ slots.name item ++ " in iterate(" ++ slots.name source ++ ") \x7b") ::
      .indent :: stepsAll slots body ++ [.outdent, .emit "\x7d"]
  | .push list item => [.emit ("push(" ++ slots.name list ++ ", " ++ slots.name item ++ ");")]
  | .extend list items => [.emit ("extend(" ++ slots.name list ++ ", " ++ slots.name items ++ ");")]
  | .insert object key item =>
    [.emit ("insert(" ++ slots.name object ++ ", " ++ Text.quote key ++ ", " ++ slots.name item ++
      ");")]

/-- The lines of a block. -/
def stepsAll (slots : SlotNames) : List Stmt → List Step
  | [] => []
  | stmt :: stmts => stmt.steps slots ++ stepsAll slots stmts

end

end Stmt

namespace Listing

open Emitter (Step)

/-- The lines of a procedure: the query it came from as comments, a header, the body and the
result. -/
def steps (name display : String) (slots : SlotNames) (body : List Stmt) : List Step :=
  (Text.lines display).map (fun line => .emit ("// " ++ line)) ++
    .emit ("fn " ++ name ++ "(interpreter, " ++ slots.name .value ++ ") \x7b") :: .indent ::
    Stmt.stepsAll slots body ++
    [.emit ("return " ++ slots.name .value ++ ";"), .outdent, .emit "\x7d"]

/-- The text of a procedure. -/
def render (name display : String) (slots : SlotNames) (body : List Stmt) : String :=
  (Emitter.run {} (steps name display slots body)).text

end Listing

end PathQuery
