import PathQuery.Code.Exec
import PathQuery.Proofs.Induction

/-!
# The slots of code

Which slots a statement names, and what follows for its runs:

* `Stmt.slots`: the slots that a statement reads or writes, at any depth;
* `Frame.ChangedIn`: two frames of one size that differ in some slots at most;
* `Stmt.execAll_changedIn`: a run changes no slot that its code does not name, under any host, also
  when it stops at an error.
-/

namespace PathQuery

@[simp, grind =] theorem Slot.index_value : Slot.value.index = 0 := rfl
@[simp, grind =] theorem Slot.index_current : Slot.current.index = 1 := rfl

theorem Slot.ext {a b : Slot} (h : a.index = b.index) : a = b := by
  cases a; cases b; exact congrArg Slot.mk h

def Operand.slots : Operand → List Slot
  | .slot source => [source]
  | .literal _ => []

def Expr.slots : Expr → List Slot
  | .literal _ | .emptyObject | .expref _ _ => []
  | .load source | .field source _ | .offset source _ | .not source | .call _ source => [source]
  | .element source index => source :: index.slots
  | .list items => items.flatMap Operand.slots
  | .compare _ left right => [left, right]

def Test.slot : Test → Slot
  | .isNull source | .isSequence source | .isMapping source | .falsy source | .isTrue source
  | .emptySequence source | .nonEmptySequence source => source
  | .not test => test.slot

namespace Stmt

mutual

/-- The slots that a statement reads or writes, those of the blocks in it included. -/
def slots : Stmt → List Slot
  | .assign target expr => target :: expr.slots
  | .branch test yes no => test.slot :: (slotsAll yes ++ slotsAll no)
  | .forEach item source body => item :: source :: slotsAll body
  | .push list item => [list, item]
  | .extend list items => [list, items]
  | .insert object _ item => [object, item]

@[inherit_doc slots]
def slotsAll : List Stmt → List Slot
  | [] => []
  | stmt :: stmts => stmt.slots ++ slotsAll stmts

end

theorem slotsAll_append (first second : List Stmt) :
    slotsAll (first ++ second) = slotsAll first ++ slotsAll second := by
  induction first with
  | nil => rfl
  | cons stmt stmts ih => simp only [List.cons_append, slotsAll, ih, List.append_assoc]

end Stmt

namespace Frame

attribute [grind =] size_set

@[grind =]
theorem get_set (frame : Frame) (a b : Slot) (value : Value) :
    (frame.set a value).get b =
      if a.index = b.index ∧ a.index < frame.slots.size then value else frame.get b := by
  by_cases h : a.index = b.index
  · cases Slot.ext h
    by_cases hs : a.index < frame.slots.size
    · rw [get_set_self frame hs, if_pos ⟨rfl, hs⟩]
    · simp [get, set, hs]
  · rw [get_set_of_ne frame h, if_neg fun hc => h hc.1]

/-- The frames have one size, and the same values in all slots but some. -/
structure ChangedIn (slots : List Slot) (before after : Frame) : Prop where
  size : after.slots.size = before.slots.size
  get : ∀ slot ∉ slots, after.get slot = before.get slot

namespace ChangedIn

variable {slots more : List Slot} {a b c : Frame}

theorem refl (slots : List Slot) (frame : Frame) : ChangedIn slots frame frame :=
  ⟨rfl, fun _ _ => rfl⟩

theorem trans (hab : ChangedIn slots a b) (hbc : ChangedIn slots b c) : ChangedIn slots a c :=
  ⟨hbc.size.trans hab.size, fun slot hs => (hbc.get slot hs).trans (hab.get slot hs)⟩

theorem mono (h : ChangedIn slots a b) (hs : slots ⊆ more) : ChangedIn more a b :=
  ⟨h.size, fun slot hm => h.get slot fun hi => hm (hs hi)⟩

end ChangedIn

@[simp] theorem size_start (size : Nat) (root : Value) : (start size root).slots.size = size := by
  simp [start]

variable {slots : List Slot} (frame : Frame)

theorem changedIn_set {slot : Slot} (h : slot ∈ slots) (value : Value) :
    ChangedIn slots frame (frame.set slot value) := by
  refine ⟨frame.size_set slot value, fun other ho => get_set_of_ne frame ?_ value⟩
  intro he
  exact ho (Slot.ext he ▸ h)

theorem changedIn_push {list : Slot} (h : list ∈ slots) (item : Slot) :
    ChangedIn slots frame (frame.push list item) := by
  unfold push
  split
  · exact changedIn_set frame h _
  · exact .refl _ _

theorem changedIn_extend {list : Slot} (h : list ∈ slots) (items : Slot) :
    ChangedIn slots frame (frame.extend list items) := by
  unfold extend
  split
  · exact changedIn_set frame h _
  · exact .refl _ _

theorem changedIn_insert {object : Slot} (h : object ∈ slots) (key : String) (item : Slot) :
    ChangedIn slots frame (frame.insert object key item) := by
  unfold insert
  split
  · exact changedIn_set frame h _
  · exact .refl _ _

end Frame

namespace Outcome

variable {σ : Type}

theorem changedIn_andThen {slots : List Slot} {frame : Frame} {outcome : Outcome σ}
    {next : Frame → σ → Outcome σ} (h : Frame.ChangedIn slots frame outcome.frame)
    (hn : ∀ frame s, Frame.ChangedIn slots frame (next frame s).frame) :
    Frame.ChangedIn slots frame (outcome.andThen next).frame := by
  unfold andThen
  split
  · exact h.trans (hn _ _)
  · exact h

end Outcome

namespace Stmt

variable {σ : Type} (host : Host σ)

theorem loop_changedIn {slots : List Slot} {body : Frame → σ → Outcome σ} {item : Slot}
    (hi : item ∈ slots) (hb : ∀ frame s, Frame.ChangedIn slots frame (body frame s).frame)
    (values : List Value) (frame : Frame) (s : σ) :
    Frame.ChangedIn slots frame (loop body item values frame s).frame := by
  induction values generalizing frame s with
  | nil => exact .refl _ _
  | cons value values ih =>
    exact Outcome.changedIn_andThen ((frame.changedIn_set hi value).trans (hb _ _)) ih

/-- What holds of the statements of a block holds of the block. -/
theorem execAll_changedIn_of {block : List Stmt}
    (h : ∀ stmt ∈ block, ∀ frame s, Frame.ChangedIn stmt.slots frame (stmt.exec host frame s).frame)
    (frame : Frame) (s : σ) :
    Frame.ChangedIn (slotsAll block) frame (execAll host block frame s).frame := by
  induction block generalizing frame s with
  | nil => exact .refl _ _
  | cons stmt stmts ih =>
    obtain ⟨hs, hr⟩ := List.forall_mem_cons.1 h
    rw [execAll, slotsAll]
    refine Outcome.changedIn_andThen ((hs frame s).mono (List.subset_append_left ..)) ?_
    exact fun frame s => (ih hr frame s).mono (List.subset_append_right ..)

/-- A statement changes no slot that it does not name. -/
theorem exec_changedIn (stmt : Stmt) (frame : Frame) (s : σ) :
    Frame.ChangedIn stmt.slots frame (stmt.exec host frame s).frame := by
  induction stmt generalizing frame s with
  | assign target expr =>
    simp only [exec, slots]
    split
    · exact frame.changedIn_set (List.mem_cons_self ..) _
    · exact .refl _ _
  | branch test yes no ihy ihn =>
    simp only [exec, slots]
    split
    · exact (execAll_changedIn_of host ihy frame s).mono (by simp)
    · exact (execAll_changedIn_of host ihn frame s).mono (by simp)
  | forEach item source body ih =>
    simp only [exec, slots]
    refine loop_changedIn (List.mem_cons_self ..) (fun frame s => ?_) _ frame s
    exact (execAll_changedIn_of host ih frame s).mono (by simp)
  | push list item => exact frame.changedIn_push (List.mem_cons_self ..) item
  | extend list items => exact frame.changedIn_extend (List.mem_cons_self ..) items
  | insert object key item => exact frame.changedIn_insert (List.mem_cons_self ..) key item

/-- A block changes no slot that it does not name. -/
theorem execAll_changedIn (block : List Stmt) (frame : Frame) (s : σ) :
    Frame.ChangedIn (slotsAll block) frame (execAll host block frame s).frame :=
  execAll_changedIn_of host (fun stmt _ => exec_changedIn host stmt) frame s

end Stmt

end PathQuery
