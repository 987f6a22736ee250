import PathQuery.Code.Basic
import PathQuery.Host.Basic
import PathQuery.Value.Equality

/-!
# Running code

Statements change a frame of slots under a host. Data that does not fit a statement gives null or
leaves the frame alone; a run stops early only where the host fails, and then keeps the frame that
it had reached.
-/

namespace PathQuery

/-- The contents of the slots. -/
structure Frame where
  slots : Array Value

namespace Frame

/-- A frame of `size` slots that holds `root` as the running result. -/
def start (size : Nat) (root : Value) : Frame :=
  ⟨(Array.replicate size Value.null).setIfInBounds Slot.value.index root⟩

def get (frame : Frame) (slot : Slot) : Value := frame.slots.getD slot.index .null

def set (frame : Frame) (slot : Slot) (value : Value) : Frame :=
  ⟨frame.slots.setIfInBounds slot.index value⟩

end Frame

namespace Frame

@[simp]
theorem size_set (frame : Frame) (slot : Slot) (value : Value) :
    (frame.set slot value).slots.size = frame.slots.size := by
  simp [set]

theorem get_set_self (frame : Frame) {slot : Slot} (h : slot.index < frame.slots.size)
    (value : Value) : (frame.set slot value).get slot = value := by
  simp [get, set, h]

theorem get_set_of_ne (frame : Frame) {a b : Slot} (h : a.index ≠ b.index) (value : Value) :
    (frame.set a value).get b = frame.get b := by
  simp [get, set, h]

end Frame

/-- What a run leaves behind: the frame, the state of the host, and the error it stopped at. -/
structure Outcome (σ : Type) where
  frame : Frame
  state : σ
  error : Option RuntimeError

namespace Outcome

variable {σ : Type}

/-- Goes on where a run ended, unless it stopped at an error. -/
@[inline]
def andThen (outcome : Outcome σ) (next : Frame → σ → Outcome σ) : Outcome σ :=
  match outcome.error with
  | none => next outcome.frame outcome.state
  | some _ => outcome

theorem andThen_assoc (outcome : Outcome σ) (f g : Frame → σ → Outcome σ) :
    (outcome.andThen f).andThen g = outcome.andThen fun frame s => (f frame s).andThen g := by
  rcases outcome with ⟨frame, s, _ | e⟩ <;> rfl

/-- The running result, or the error. -/
def result (outcome : Outcome σ) : Except RuntimeError Value :=
  match outcome.error with
  | none => .ok (outcome.frame.get .value)
  | some error => .error error

end Outcome

def Operand.eval (frame : Frame) : Operand → Value
  | .slot source => frame.get source
  | .literal value => value

/-- Compares two values. Ordering is defined between integers only. -/
def Comparator.compare (op : Comparator) (a b : Value) : Bool :=
  match op with
  | .equal => a.deepEq b
  | .notEqual => !a.deepEq b
  | _ =>
    match a, b with
    | .integer m, .integer n => op.compareInts m n
    | _, _ => false

def Expr.eval {σ : Type} (host : Host σ) (frame : Frame) (s : σ) :
    Expr → Except RuntimeError Value × σ
  | .literal value => (.ok value, s)
  | .load slot => (.ok (frame.get slot), s)
  | .field source name => (.ok ((frame.get source).field name), s)
  | .element source index => (.ok ((frame.get source).element (index.eval frame)), s)
  | .offset source delta =>
    match frame.get source with
    | .array items => (.ok (.integer (items.length + delta)), s)
    | _ => (.ok .null, s)
  | .list items => (.ok (.array (items.map (Operand.eval frame))), s)
  | .emptyObject => (.ok (.object []), s)
  | .compare op left right => (.ok (.boolean (op.compare (frame.get left) (frame.get right))), s)
  | .not slot => (.ok (.boolean (!(frame.get slot).truthy)), s)
  | .call name args => host.invoke name (frame.get args).opened s
  | .expref site node => (.ok (.expref (.site site) node), s)

def Test.holds (frame : Frame) : Test → Bool
  | .isNull slot => (frame.get slot).isNull
  | .isSequence slot => (frame.get slot).isSequence
  | .isMapping slot => (frame.get slot).isMapping
  | .falsy slot => !(frame.get slot).truthy
  | .isTrue slot =>
    match frame.get slot with
    | .boolean b => b
    | _ => false
  | .emptySequence slot =>
    match frame.get slot with
    | .array items => items.isEmpty
    | _ => false
  | .nonEmptySequence slot =>
    match frame.get slot with
    | .array items => !items.isEmpty
    | _ => false
  | .not test => !test.holds frame

namespace Frame

/-- Appends a slot's value to the array in another slot. -/
def push (frame : Frame) (list item : Slot) : Frame :=
  match frame.get list with
  | .array items => frame.set list (.array (items ++ [frame.get item]))
  | _ => frame

/-- Appends the items of an array to the array in another slot. -/
def extend (frame : Frame) (list items : Slot) : Frame :=
  match frame.get items, frame.get list with
  | .array new, .array old => frame.set list (.array (old ++ new))
  | _, _ => frame

/-- Inserts a slot's value into the object in another slot. -/
def insert (frame : Frame) (object : Slot) (key : String) (item : Slot) : Frame :=
  match frame.get object with
  | .object entries => frame.set object (.object (Entries.insert key (frame.get item) entries))
  | _ => frame

end Frame

namespace Stmt

variable {σ : Type}

/-- Runs `body` once for each value, with the value in slot `item`. -/
def loop (body : Frame → σ → Outcome σ) (item : Slot) : List Value → Frame → σ → Outcome σ
  | [], frame, s => ⟨frame, s, none⟩
  | value :: values, frame, s => (body (frame.set item value) s).andThen (loop body item values)

mutual

/-- Runs a statement. A loop runs over the elements that its source had at the start. -/
def exec (host : Host σ) : Stmt → Frame → σ → Outcome σ
  | .assign target expr, frame, s =>
    match expr.eval host frame s with
    | (.ok value, s) => ⟨frame.set target value, s, none⟩
    | (.error error, s) => ⟨frame, s, some error⟩
  | .branch test yes no, frame, s =>
    if test.holds frame then execAll host yes frame s else execAll host no frame s
  | .forEach item source body, frame, s =>
    loop (fun frame s => execAll host body frame s) item (frame.get source).elements frame s
  | .push list item, frame, s => ⟨frame.push list item, s, none⟩
  | .extend list items, frame, s => ⟨frame.extend list items, s, none⟩
  | .insert object key item, frame, s => ⟨frame.insert object key item, s, none⟩

/-- Runs the statements of a block in order. -/
def execAll (host : Host σ) : List Stmt → Frame → σ → Outcome σ
  | [], frame, s => ⟨frame, s, none⟩
  | stmt :: stmts, frame, s =>
    (stmt.exec host frame s).andThen fun frame s => execAll host stmts frame s

end

/-- A block runs as its parts do, one after the other. -/
theorem execAll_append (host : Host σ) (first second : List Stmt) (frame : Frame) (s : σ) :
    execAll host (first ++ second) frame s =
      (execAll host first frame s).andThen fun frame s => execAll host second frame s := by
  induction first generalizing frame s with
  | nil => rfl
  | cons stmt stmts ih => simp only [List.cons_append, execAll, Outcome.andThen_assoc, ih]

end Stmt

end PathQuery
