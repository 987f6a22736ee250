import Mathlib
import PathQuery.Proofs.Alike
import PathQuery.Proofs.Renumbering

/-!
# Code that is moved elsewhere

A block with its slots and the numbers of its expression references exchanged for others:

* `Stmt.moveAll`: the block moved elsewhere. Blocks that are alike up to the numbers of their
  references are alike to the letter once the one has the numbers of the other (`AlikeAll.move`);
* `Stmt.FixedAll`: the literals of the block hold nothing that the other numbers change;
* `Stmt.ReadsOnlyAll`: the block reads no slot that was not known before or assigned on the way, so
  what the other slots hold at the start is of no account;
* `Stmt.execAll_mirrors`: such a block and the block moved elsewhere run alike, from frames that
  agree on the known slots.
-/

namespace PathQuery

/-! ## Moving code -/

def Operand.move (p : Slot → Slot) : Operand → Operand
  | .slot source => .slot (p source)
  | .literal value => .literal value

def Expr.move (p : Slot → Slot) (e : Nat → Nat) : Expr → Expr
  | .literal value => .literal value
  | .load source => .load (p source)
  | .field source name => .field (p source) name
  | .element source index => .element (p source) (index.move p)
  | .offset source delta => .offset (p source) delta
  | .list items => .list (items.map (Operand.move p))
  | .emptyObject => .emptyObject
  | .compare op left right => .compare op (p left) (p right)
  | .not source => .not (p source)
  | .call name args => .call name (p args)
  | .expref site node => .expref (e site) node

def Test.move (p : Slot → Slot) : Test → Test
  | .isNull source => .isNull (p source)
  | .isSequence source => .isSequence (p source)
  | .isMapping source => .isMapping (p source)
  | .falsy source => .falsy (p source)
  | .isTrue source => .isTrue (p source)
  | .emptySequence source => .emptySequence (p source)
  | .nonEmptySequence source => .nonEmptySequence (p source)
  | .not test => .not (test.move p)

namespace Stmt

mutual

/-- The statement with `p slot` for each slot and number `e n` for each expression reference of
number `n`. -/
def move (p : Slot → Slot) (e : Nat → Nat) : Stmt → Stmt
  | .assign target expr => .assign (p target) (expr.move p e)
  | .branch test yes no => .branch (test.move p) (moveAll p e yes) (moveAll p e no)
  | .forEach item source body => .forEach (p item) (p source) (moveAll p e body)
  | .push list item => .push (p list) (p item)
  | .extend list items => .extend (p list) (p items)
  | .insert object key item => .insert (p object) key (p item)

@[inherit_doc move]
def moveAll (p : Slot → Slot) (e : Nat → Nat) : List Stmt → List Stmt
  | [] => []
  | stmt :: stmts => stmt.move p e :: moveAll p e stmts

end

variable {p : Slot → Slot} {e e' : Nat → Nat}

theorem moveAll_append (first second : List Stmt) :
    moveAll p e (first ++ second) = moveAll p e first ++ moveAll p e second := by
  induction first with
  | nil => rfl
  | cons stmt stmts ih => simp only [List.cons_append, moveAll, ih]

theorem moveAll_congr_of {block : List Stmt}
    (hb : ∀ stmt ∈ block, (∀ n ∈ stmt.sites, e n = e' n) → stmt.move p e = stmt.move p e')
    (h : ∀ n ∈ sitesAll block, e n = e' n) : moveAll p e block = moveAll p e' block := by
  induction block with
  | nil => rfl
  | cons stmt stmts ih =>
    obtain ⟨hstmt, hstmts⟩ := List.forall_mem_cons.1 hb
    obtain ⟨hhead, htail⟩ := List.forall_mem_append.1 h
    rw [moveAll, moveAll, hstmt hhead, ih hstmts htail]

theorem move_congr (stmt : Stmt) (h : ∀ n ∈ stmt.sites, e n = e' n) :
    stmt.move p e = stmt.move p e' := by
  induction stmt with
  | assign target expr =>
    cases expr with
    | expref site node => simp only [move, Expr.move, h site (List.mem_singleton_self site)]
    | _ => rfl
  | branch test yes no ihy ihn =>
    obtain ⟨hyes, hno⟩ := List.forall_mem_append.1 h
    rw [move, move, moveAll_congr_of ihy hyes, moveAll_congr_of ihn hno]
  | forEach item source body ih => rw [move, move, moveAll_congr_of ih h]
  | push _ _ | extend _ _ | insert _ _ _ => rfl

/-- Only the numbers of the expression references that stand in a block matter. -/
theorem moveAll_congr {block : List Stmt} (h : ∀ n ∈ sitesAll block, e n = e' n) :
    moveAll p e block = moveAll p e' block :=
  moveAll_congr_of (fun stmt _ => move_congr stmt) h

end Stmt

/-! ## Code that is alike up to the numbers -/

section

variable {r : Slot → Slot → Prop} {e : Nat → Nat}

theorem Operand.move_id (operand : Operand) : operand.move id = operand := by
  cases operand <;> rfl

theorem Test.move_id (test : Test) : test.move id = test := by
  induction test with
  | not test ih => rw [move, ih]
  | _ => rfl

theorem Expr.Alike.move {x y : Expr} (h : x.Alike r (fun i j => e i = j) y) :
    (x.move id e).Alike r Eq y := by
  cases h with
  | literal value => exact .literal value
  | load h => exact .load h
  | field name h => exact .field name h
  | @element _ _ i _ h hi => exact .element h (i.move_id.symm ▸ hi)
  | offset delta h => exact .offset delta h
  | @list items _ h =>
    have hitems : items.map (Operand.move id) = items := by
      rw [funext Operand.move_id, List.map_id']
    rw [Expr.move, hitems]
    exact .list h
  | emptyObject => exact .emptyObject
  | compare op h h' => exact .compare op h h'
  | not h => exact .not h
  | call name h => exact .call name h
  | expref node h => exact .expref node h

namespace Stmt

theorem AlikeAll.move_of {block other : List Stmt}
    (hb : ∀ stmt ∈ block, ∀ stmt', stmt.Alike r (fun i j => e i = j) stmt' →
      (stmt.move id e).Alike r Eq stmt')
    (h : AlikeAll r (fun i j => e i = j) block other) :
    AlikeAll r Eq (moveAll id e block) other := by
  induction h with
  | nil => exact .nil
  | cons hhead _ ih =>
    obtain ⟨hstmt, hstmts⟩ := List.forall_mem_cons.1 hb
    exact .cons (hstmt _ hhead) (ih hstmts)

theorem Alike.move {stmt other : Stmt} (h : stmt.Alike r (fun i j => e i = j) other) :
    (stmt.move id e).Alike r Eq other := by
  induction stmt generalizing other with
  | assign target expr =>
    cases h with
    | assign hab hxy => exact .assign hab hxy.move
  | branch test yes no ihy ihn =>
    cases h with
    | branch ht hyes hno =>
      rw [Stmt.move, Test.move_id]
      exact .branch ht (AlikeAll.move_of (fun stmt hm _ ha => ihy stmt hm ha) hyes)
        (AlikeAll.move_of (fun stmt hm _ ha => ihn stmt hm ha) hno)
  | forEach item source body ih =>
    cases h with
    | forEach hab hcd hbody =>
      exact .forEach hab hcd (AlikeAll.move_of (fun stmt hm _ ha => ih stmt hm ha) hbody)
  | push _ _ =>
    cases h with
    | push hab hcd => exact .push hab hcd
  | extend _ _ =>
    cases h with
    | extend hab hcd => exact .extend hab hcd
  | insert _ _ _ =>
    cases h with
    | insert _ hab hcd => exact .insert _ hab hcd

/-- Blocks that are alike up to the numbers of their expression references are alike once the first
has the numbers of the second. -/
theorem AlikeAll.move {block other : List Stmt} (h : AlikeAll r (fun i j => e i = j) block other) :
    AlikeAll r Eq (moveAll id e block) other :=
  AlikeAll.move_of (fun _ _ _ ha => ha.move) h

end Stmt

end

/-! ## Literals and nodes in code -/

def Operand.Fixed (e : Nat → Nat) : Operand → Prop
  | .slot _ => True
  | .literal value => value.renumber e = value

def Expr.Fixed (e : Nat → Nat) : Expr → Prop
  | .literal value => value.renumber e = value
  | .element _ index => index.Fixed e
  | .list items => ∀ item ∈ items, item.Fixed e
  | .expref _ node => node.renumber e = node
  | .load _ | .field _ _ | .offset _ _ | .emptyObject | .compare _ _ _ | .not _ | .call _ _ => True

namespace Stmt

mutual

/-- The literals in the statement and the nodes of its expression references stay as they are when
expression references get other numbers. -/
def Fixed (e : Nat → Nat) : Stmt → Prop
  | .assign _ expr => expr.Fixed e
  | .branch _ yes no => FixedAll e yes ∧ FixedAll e no
  | .forEach _ _ body => FixedAll e body
  | .push _ _ | .extend _ _ | .insert _ _ _ => True

@[inherit_doc Fixed]
def FixedAll (e : Nat → Nat) : List Stmt → Prop
  | [] => True
  | stmt :: stmts => stmt.Fixed e ∧ FixedAll e stmts

end

theorem fixedAll_append {e : Nat → Nat} {first second : List Stmt} :
    FixedAll e (first ++ second) ↔ FixedAll e first ∧ FixedAll e second := by
  induction first with
  | nil => exact (true_and _).symm.to_iff
  | cons stmt stmts ih =>
    rw [List.cons_append, FixedAll, FixedAll, ih]
    exact and_assoc.symm

/-! ## Slots that are assigned before they are read -/

/-- The slots whose contents are known after a statement. -/
def after (known : List Slot) : Stmt → List Slot
  | .assign target _ => target :: known
  | .branch _ _ _ | .forEach _ _ _ | .push _ _ | .extend _ _ | .insert _ _ _ => known

@[inherit_doc after]
def afterAll (known : List Slot) (block : List Stmt) : List Slot := block.foldl after known

mutual

/-- The statement reads no slots but those that are known and those that it has assigned before. A
branch may be skipped and a loop may have no round, so what they assign is not known behind them. -/
def ReadsOnly (known : List Slot) : Stmt → Prop
  | .assign _ expr => expr.slots ⊆ known
  | .branch test yes no => test.slot ∈ known ∧ ReadsOnlyAll known yes ∧ ReadsOnlyAll known no
  | .forEach item source body => source ∈ known ∧ ReadsOnlyAll (item :: known) body
  | .push list item => list ∈ known ∧ item ∈ known
  | .extend list items => list ∈ known ∧ items ∈ known
  | .insert object _ item => object ∈ known ∧ item ∈ known

@[inherit_doc ReadsOnly]
def ReadsOnlyAll (known : List Slot) : List Stmt → Prop
  | [] => True
  | stmt :: stmts => stmt.ReadsOnly known ∧ ReadsOnlyAll (stmt.after known) stmts

end

variable {known : List Slot}

theorem subset_after (known : List Slot) (stmt : Stmt) : known ⊆ stmt.after known := by
  cases stmt with
  | assign target expr => exact List.subset_cons_self target known
  | _ => exact List.Subset.refl known

theorem subset_afterAll (known : List Slot) (block : List Stmt) : known ⊆ afterAll known block := by
  induction block generalizing known with
  | nil => exact List.Subset.refl known
  | cons stmt stmts ih => exact List.Subset.trans (subset_after known stmt) (ih (stmt.after known))

theorem mem_afterAll {slot : Slot} (h : slot ∈ known) (block : List Stmt) :
    slot ∈ afterAll known block :=
  subset_afterAll known block h

theorem readsOnlyAll_append {first second : List Stmt} :
    ReadsOnlyAll known (first ++ second) ↔
      ReadsOnlyAll known first ∧ ReadsOnlyAll (afterAll known first) second := by
  induction first generalizing known with
  | nil => exact (true_and _).symm.to_iff
  | cons stmt stmts ih =>
    rw [List.cons_append, ReadsOnlyAll, ReadsOnlyAll, ih]
    exact and_assoc.symm

end Stmt

/-! ## Runs of moved code -/

variable {σ : Type} {p : Slot → Slot} {e : Nat → Nat} {t : σ → σ} {P : Slot → Prop}
  {known : List Slot}

/-- The second frame holds in `p slot` what the first holds in `slot`, under other numbers, for all
slots that are known. Both have room for the slots in `P`, which the known ones are among. -/
structure Frame.Mirrors (p : Slot → Slot) (e : Nat → Nat) (P : Slot → Prop) (known : List Slot)
    (f g : Frame) : Prop where
  get : ∀ slot ∈ known, g.get (p slot) = (f.get slot).renumber e
  mem : ∀ slot ∈ known, P slot
  left_lt : ∀ slot, P slot → slot.index < f.slots.size
  right_lt : ∀ slot, P slot → (p slot).index < g.slots.size

namespace Frame.Mirrors

variable {f g : Frame} {a b : Slot}

theorem mono {fewer : List Slot} (h : Mirrors p e P known f g) (hk : fewer ⊆ known) :
    Mirrors p e P fewer f g :=
  ⟨fun slot hs => h.get slot (hk hs), fun slot hs => h.mem slot (hk hs), h.left_lt, h.right_lt⟩

/-- A slot that both runs assign is known from then on. -/
theorem set (hp : Set.InjOn p {slot | P slot}) (h : Mirrors p e P known f g) (ha : P a)
    (value : Value) :
    Mirrors p e P (a :: known) (f.set a value) (g.set (p a) (value.renumber e)) where
  get := by
    intro slot hs
    by_cases hc : slot = a
    · rw [hc, get_set_self f (h.left_lt a ha), get_set_self g (h.right_lt a ha)]
    · have hknown : slot ∈ known := List.mem_of_ne_of_mem hc hs
      have hmoved : p a ≠ p slot := fun heq => hc (hp (h.mem slot hknown) ha heq.symm)
      rw [get_set_of_ne f (fun hi => hc (Slot.ext hi).symm),
        get_set_of_ne g (fun hi => hmoved (Slot.ext hi)), h.get slot hknown]
  mem := List.forall_mem_cons.2 ⟨ha, h.mem⟩
  left_lt slot hs := by
    rw [size_set]
    exact h.left_lt slot hs
  right_lt slot hs := by
    rw [size_set]
    exact h.right_lt slot hs

theorem set_known (hp : Set.InjOn p {slot | P slot}) (h : Mirrors p e P known f g) (ha : a ∈ known)
    (value : Value) :
    Mirrors p e P known (f.set a value) (g.set (p a) (value.renumber e)) :=
  (h.set hp (h.mem a ha) value).mono (List.subset_cons_self a known)

theorem push (hp : Set.InjOn p {slot | P slot}) (h : Mirrors p e P known f g) (ha : a ∈ known)
    (hb : b ∈ known) : Mirrors p e P known (f.push a b) (g.push (p a) (p b)) := by
  rw [Frame.push, Frame.push, h.get a ha, h.get b hb]
  cases f.get a with
  | array items =>
    have hitems : Value.renumberItems e items ++ [(f.get b).renumber e] =
        Value.renumberItems e (items ++ [f.get b]) := by
      simp only [Value.renumberItems_eq_map, List.map_append, List.map_cons, List.map_nil]
    simp only [Value.renumber, hitems]
    exact h.set_known hp ha (.array (items ++ [f.get b]))
  | _ => exact h

theorem extend (hp : Set.InjOn p {slot | P slot}) (h : Mirrors p e P known f g) (ha : a ∈ known)
    (hb : b ∈ known) : Mirrors p e P known (f.extend a b) (g.extend (p a) (p b)) := by
  rw [Frame.extend, Frame.extend, h.get a ha, h.get b hb]
  cases f.get b with
  | array new =>
    cases f.get a with
    | array old =>
      have hitems : Value.renumberItems e old ++ Value.renumberItems e new =
          Value.renumberItems e (old ++ new) := by
        simp only [Value.renumberItems_eq_map, List.map_append]
      simp only [Value.renumber, hitems]
      exact h.set_known hp ha (.array (old ++ new))
    | _ => exact h
  | _ => exact h

theorem insert (hp : Set.InjOn p {slot | P slot}) (h : Mirrors p e P known f g) (ha : a ∈ known)
    (key : String) (hb : b ∈ known) :
    Mirrors p e P known (f.insert a key b) (g.insert (p a) key (p b)) := by
  rw [Frame.insert, Frame.insert, h.get a ha, h.get b hb]
  cases f.get a with
  | object entries =>
    simp only [Value.renumber, ← Value.renumberEntries_insert]
    exact h.set_known hp ha (.object (Entries.insert key (f.get b) entries))
  | _ => exact h

end Frame.Mirrors

theorem Operand.eval_move {operand : Operand} {f g : Frame} (h : f.Mirrors p e P known g)
    (hr : operand.slots ⊆ known) (hfixed : operand.Fixed e) :
    (operand.move p).eval g = (operand.eval f).renumber e := by
  cases operand with
  | slot source => exact h.get source (hr (List.mem_singleton_self source))
  | literal value => exact Eq.symm hfixed

theorem Expr.eval_move {host : Host σ} (he : Function.Injective e) (hh : host.Respects e t)
    {expr : Expr} {f g : Frame} (h : f.Mirrors p e P known g) (hr : expr.slots ⊆ known)
    (hfixed : expr.Fixed e) (s : σ) :
    (expr.move p e).eval host g (t s) =
      ((expr.eval host f s).1.map (Value.renumber e), t (expr.eval host f s).2) := by
  cases expr with
  | literal value =>
    have hvalue : value.renumber e = value := hfixed
    rw [move, eval, eval, Except.map, hvalue]
  | load source => rw [move, eval, eval, Except.map, h.get source (hr (by simp [slots]))]
  | field source name =>
    rw [move, eval, eval, Except.map, h.get source (hr (by simp [slots])), Value.field_renumber]
  | element source index =>
    have hindex : index.slots ⊆ known := fun slot hs => hr (List.mem_cons_of_mem source hs)
    rw [move, eval, eval, Except.map, h.get source (hr (by simp [slots])),
      Operand.eval_move h hindex hfixed, Value.element_renumber]
  | offset source delta =>
    rw [move, eval, eval, h.get source (hr (by simp [slots]))]
    cases f.get source with
    | array items => simp [Value.renumber, Value.renumberItems_eq_map, Except.map]
    | _ => rfl
  | list items =>
    have hitems : (items.map (Operand.move p)).map (Operand.eval g) =
        (items.map (Operand.eval f)).map (Value.renumber e) := by
      rw [List.map_map, List.map_map]
      refine List.map_congr_left fun item hi => Operand.eval_move h ?_ (hfixed item hi)
      exact fun slot hs => hr (List.mem_flatMap.2 ⟨item, hi, hs⟩)
    rw [move, eval, eval, Except.map, hitems, Value.renumber, Value.renumberItems_eq_map]
  | emptyObject => rfl
  | compare op left right =>
    rw [move, eval, eval, Except.map, h.get left (hr (by simp [slots])),
      h.get right (hr (by simp [slots])), Comparator.compare_renumber he, Value.renumber]
  | not source =>
    rw [move, eval, eval, Except.map, h.get source (hr (by simp [slots])), Value.truthy_renumber,
      Value.renumber]
  | call name args =>
    rw [move, eval, eval, h.get args (hr (by simp [slots])), Value.opened_renumber, hh]
  | expref site node =>
    have hnode : node.renumber e = node := hfixed
    rw [move, eval, eval, Except.map, Value.renumber, hnode, Origin.renumber]

theorem Test.holds_move {test : Test} {f g : Frame} (h : f.Mirrors p e P known g)
    (hr : test.slot ∈ known) : (test.move p).holds g = test.holds f := by
  induction test with
  | isNull source => rw [move, holds, holds, h.get source hr, Value.isNull_renumber]
  | isSequence source => rw [move, holds, holds, h.get source hr, Value.isSequence_renumber]
  | isMapping source => rw [move, holds, holds, h.get source hr, Value.isMapping_renumber]
  | falsy source => rw [move, holds, holds, h.get source hr, Value.truthy_renumber]
  | isTrue source | emptySequence source | nonEmptySequence source =>
    rw [move, holds, holds, h.get source hr]
    cases f.get source with
    | array items => cases items <;> rfl
    | _ => rfl
  | not test ih => rw [move, holds, holds, ih hr]

/-- The runs stop at the same error if at all, and end in frames that mirror each other: on the
slots in `after` unless they stopped, and else on the slots in `known`. -/
structure Outcome.Mirrors (p : Slot → Slot) (e : Nat → Nat) (t : σ → σ) (P : Slot → Prop)
    (known after : List Slot) (o o' : Outcome σ) : Prop where
  error : o'.error = o.error
  state : o'.state = t o.state
  kept : o.frame.Mirrors p e P known o'.frame
  frame : o.error = none → o.frame.Mirrors p e P after o'.frame

theorem Frame.Mirrors.ends {f g : Frame} (h : f.Mirrors p e P known g) (s : σ) :
    Outcome.Mirrors p e t P known known ⟨f, s, none⟩ ⟨g, t s, none⟩ :=
  ⟨rfl, rfl, h, fun _ => h⟩

theorem Outcome.Mirrors.mono {fewer after : List Slot} {o o' : Outcome σ}
    (h : o.Mirrors p e t P known after o') (hk : fewer ⊆ known) (ha : fewer ⊆ after) :
    o.Mirrors p e t P fewer fewer o' :=
  ⟨h.error, h.state, h.kept.mono hk, fun he => (h.frame he).mono ha⟩

theorem Outcome.Mirrors.andThen {between after : List Slot} {o o' : Outcome σ}
    {next next' : Frame → σ → Outcome σ} (h : o.Mirrors p e t P known between o')
    (hk : known ⊆ between)
    (hn : ∀ f g s, Frame.Mirrors p e P between f g →
      (next f s).Mirrors p e t P between after (next' g (t s))) :
    (o.andThen next).Mirrors p e t P known after (o'.andThen next') := by
  obtain ⟨f, s, error⟩ := o
  obtain ⟨g, s', error'⟩ := o'
  obtain ⟨herror, hstate, hkept, hframe⟩ := h
  cases herror
  cases hstate
  cases error with
  | none =>
    obtain ⟨herror, hstate, hkept, hframe⟩ := hn f g s (hframe rfl)
    exact ⟨herror, hstate, hkept.mono hk, hframe⟩
  | some error => exact ⟨rfl, rfl, hkept, fun hnone => absurd hnone (Option.some_ne_none error)⟩

namespace Stmt

theorem loop_mirrors (hp : Set.InjOn p {slot | P slot}) {body body' : Frame → σ → Outcome σ}
    {item : Slot} (hi : P item)
    (hbody : ∀ f g s, Frame.Mirrors p e P (item :: known) f g →
      (body f s).Mirrors p e t P known known (body' g (t s)))
    (values : List Value) {f g : Frame} (h : f.Mirrors p e P known g) (s : σ) :
    (loop body item values f s).Mirrors p e t P known known
      (loop body' (p item) (values.map (Value.renumber e)) g (t s)) := by
  induction values generalizing f g s with
  | nil => exact h.ends s
  | cons value values ih =>
    rw [loop, List.map_cons, loop]
    exact (hbody _ _ s (h.set hp hi value)).andThen (List.Subset.refl known)
      fun f g s h => ih h s

theorem execAll_mirrors_of {host : Host σ} {block : List Stmt}
    (hb : ∀ stmt ∈ block, ∀ {known : List Slot} {f g : Frame}, stmt.ReadsOnly known →
      (∀ slot ∈ stmt.slots, P slot) → stmt.Fixed e →
      f.Mirrors p e P known g → ∀ s, (stmt.exec host f s).Mirrors p e t P known (stmt.after known)
        ((stmt.move p e).exec host g (t s)))
    (hr : ReadsOnlyAll known block) (hs : ∀ slot ∈ slotsAll block, P slot)
    (hfixed : FixedAll e block) {f g : Frame} (h : f.Mirrors p e P known g) (s : σ) :
    (execAll host block f s).Mirrors p e t P known (afterAll known block)
      (execAll host (moveAll p e block) g (t s)) := by
  induction block generalizing known f g s with
  | nil => exact h.ends s
  | cons stmt stmts ih =>
    obtain ⟨hstmt, hstmts⟩ := List.forall_mem_cons.1 hb
    obtain ⟨hshead, hstail⟩ := List.forall_mem_append.1 hs
    rw [execAll, moveAll, execAll]
    exact (hstmt hr.1 hshead hfixed.1 h s).andThen (subset_after known stmt)
      fun f g s h => ih hstmts hr.2 hstail hfixed.2 h s

theorem exec_mirrors {host : Host σ} (hp : Set.InjOn p {slot | P slot})
    (he : Function.Injective e) (hh : host.Respects e t) (stmt : Stmt)
    {known : List Slot} {f g : Frame} (hr : stmt.ReadsOnly known)
    (hs : ∀ slot ∈ stmt.slots, P slot) (hfixed : stmt.Fixed e) (h : f.Mirrors p e P known g)
    (s : σ) :
    (stmt.exec host f s).Mirrors p e t P known (stmt.after known)
      ((stmt.move p e).exec host g (t s)) := by
  induction stmt generalizing known f g s with
  | assign target expr =>
    rw [exec, move, exec, Expr.eval_move he hh h hr hfixed s]
    rcases expr.eval host f s with ⟨_ | value, s'⟩
    · exact ⟨rfl, rfl, h, fun hnone => absurd hnone (Option.some_ne_none _)⟩
    · have hset := h.set hp (hs target (List.mem_cons_self ..)) value
      exact ⟨rfl, rfl, hset.mono (List.subset_cons_self target known), fun _ => hset⟩
  | branch test yes no ihy ihn =>
    obtain ⟨htest, hyes, hno⟩ := hr
    obtain ⟨hsyes, hsno⟩ := List.forall_mem_append.1 (List.forall_mem_cons.1 hs).2
    rw [exec, move, exec, Test.holds_move h htest]
    -- both runs take the same side; what it assigns is forgotten, as `after` does not know the side
    cases test.holds f with
    | true =>
      exact (execAll_mirrors_of ihy hyes hsyes hfixed.1 h s).mono (List.Subset.refl known)
        (subset_afterAll known yes)
    | false =>
      exact (execAll_mirrors_of ihn hno hsno hfixed.2 h s).mono (List.Subset.refl known)
        (subset_afterAll known no)
  | forEach item source body ih =>
    obtain ⟨hsource, hbody⟩ := hr
    obtain ⟨hitem, -, hsbody⟩ := by simpa only [slots, List.forall_mem_cons] using hs
    have hk : known ⊆ item :: known := List.subset_cons_self item known
    rw [exec, move, exec, h.get source hsource, Value.elements_renumber]
    -- the known slots are the invariant of the rounds: a round knows its item besides
    refine loop_mirrors hp hitem (fun f g s h => ?_) _ h s
    exact (execAll_mirrors_of ih hbody hsbody hfixed h s).mono hk
      (List.Subset.trans hk (subset_afterAll (item :: known) body))
  | push list item => exact (h.push hp hr.1 hr.2).ends s
  | extend list items => exact (h.extend hp hr.1 hr.2).ends s
  | insert object key item => exact (h.insert hp hr.1 key hr.2).ends s

/-- A block that reads what is known only, and the same block moved elsewhere, run alike. -/
theorem execAll_mirrors {host : Host σ} (hp : Set.InjOn p {slot | P slot})
    (he : Function.Injective e) (hh : host.Respects e t) {block : List Stmt}
    (hr : ReadsOnlyAll known block) (hs : ∀ slot ∈ slotsAll block, P slot)
    (hfixed : FixedAll e block) {f g : Frame} (h : f.Mirrors p e P known g) (s : σ) :
    (execAll host block f s).Mirrors p e t P known (afterAll known block)
      (execAll host (moveAll p e block) g (t s)) :=
  execAll_mirrors_of (fun stmt _ => exec_mirrors hp he hh stmt) hr hs hfixed h s

end Stmt

end PathQuery
