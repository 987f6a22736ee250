import Mathlib
import PathQuery.Proofs.Correctness

/-!
# Code that differs in its slots only

Two blocks are alike if one is the other with its slots exchanged for others:

* `Stmt.Alike r e`: slots stand for each other as `r` says and the numbers of expression references
  as `e` says; all else is the same;
* `Stmt.execAll_agrees`: if `r` is one to one, blocks that are alike run alike, in frames that agree
  on the slots that stand for each other;
* `Query.sites_lower`: the expression references of lowered code are numbered in the order in which
  they stand there, so these numbers are known from the rest of the code
  (`Stmt.AlikeAll.of_sites`).
-/

namespace PathQuery

inductive Operand.Alike (r : Slot → Slot → Prop) : Operand → Operand → Prop
  | slot {a b : Slot} : r a b → Alike r (.slot a) (.slot b)
  | literal (value : Value) : Alike r (.literal value) (.literal value)

inductive Expr.Alike (r : Slot → Slot → Prop) (e : Nat → Nat → Prop) : Expr → Expr → Prop
  | literal (value : Value) : Alike r e (.literal value) (.literal value)
  | load {a b : Slot} : r a b → Alike r e (.load a) (.load b)
  | field {a b : Slot} (name : String) : r a b → Alike r e (.field a name) (.field b name)
  | element {a b : Slot} {i j : Operand} : r a b → i.Alike r j →
    Alike r e (.element a i) (.element b j)
  | offset {a b : Slot} (delta : Int) : r a b → Alike r e (.offset a delta) (.offset b delta)
  | list {items others : List Operand} : List.Forall₂ (Operand.Alike r) items others →
    Alike r e (.list items) (.list others)
  | emptyObject : Alike r e .emptyObject .emptyObject
  | compare {a b c d : Slot} (op : Comparator) : r a b → r c d →
    Alike r e (.compare op a c) (.compare op b d)
  | not {a b : Slot} : r a b → Alike r e (.not a) (.not b)
  | call {a b : Slot} (name : String) : r a b → Alike r e (.call name a) (.call name b)
  | expref {i j : Nat} (node : Node) : e i j → Alike r e (.expref i node) (.expref j node)

inductive Test.Alike (r : Slot → Slot → Prop) : Test → Test → Prop
  | isNull {a b : Slot} : r a b → Alike r (.isNull a) (.isNull b)
  | isSequence {a b : Slot} : r a b → Alike r (.isSequence a) (.isSequence b)
  | isMapping {a b : Slot} : r a b → Alike r (.isMapping a) (.isMapping b)
  | falsy {a b : Slot} : r a b → Alike r (.falsy a) (.falsy b)
  | isTrue {a b : Slot} : r a b → Alike r (.isTrue a) (.isTrue b)
  | emptySequence {a b : Slot} : r a b → Alike r (.emptySequence a) (.emptySequence b)
  | nonEmptySequence {a b : Slot} : r a b → Alike r (.nonEmptySequence a) (.nonEmptySequence b)
  | not {t u : Test} : Alike r t u → Alike r (.not t) (.not u)

/-- The statements are the same up to their slots, which stand for each other as `r` says, and the
numbers of expression references, which stand for each other as `e` says. -/
inductive Stmt.Alike (r : Slot → Slot → Prop) (e : Nat → Nat → Prop) : Stmt → Stmt → Prop
  | assign {a b : Slot} {x y : Expr} : r a b → x.Alike r e y → Alike r e (.assign a x) (.assign b y)
  | branch {t u : Test} {yes yes' no no' : List Stmt} : t.Alike r u →
    List.Forall₂ (Alike r e) yes yes' → List.Forall₂ (Alike r e) no no' →
    Alike r e (.branch t yes no) (.branch u yes' no')
  | forEach {a b c d : Slot} {body body' : List Stmt} : r a b → r c d →
    List.Forall₂ (Alike r e) body body' → Alike r e (.forEach a c body) (.forEach b d body')
  | push {a b c d : Slot} : r a b → r c d → Alike r e (.push a c) (.push b d)
  | extend {a b c d : Slot} : r a b → r c d → Alike r e (.extend a c) (.extend b d)
  | insert {a b c d : Slot} (key : String) : r a b → r c d →
    Alike r e (.insert a key c) (.insert b key d)

/-- The blocks are the same up to slots and numbers of expression references. -/
abbrev Stmt.AlikeAll (r : Slot → Slot → Prop) (e : Nat → Nat → Prop) (block other : List Stmt) :
    Prop :=
  List.Forall₂ (Stmt.Alike r e) block other

/-! ## Running code that is alike -/

variable {r : Slot → Slot → Prop} {σ : Type}

/-- The frames hold the same in slots that stand for each other, and have room for these slots. -/
structure Frame.Agrees (r : Slot → Slot → Prop) (f g : Frame) : Prop where
  get : ∀ {a b}, r a b → f.get a = g.get b
  left_lt : ∀ {a b}, r a b → a.index < f.slots.size
  right_lt : ∀ {a b}, r a b → b.index < g.slots.size

namespace Frame.Agrees

variable {f g : Frame} {a b c d : Slot}

theorem set (hr : Relator.BiUnique r) (h : Agrees r f g) (hab : r a b) (value : Value) :
    Agrees r (f.set a value) (g.set b value) where
  get := by
    intro c d hcd
    by_cases hc : a = c
    · subst hc
      rw [hr.2 hcd hab, get_set_self f (h.left_lt hab), get_set_self g (h.right_lt hab)]
    · have hd : b ≠ d := by
        rintro rfl
        exact hc (hr.1 hab hcd)
      rw [get_set_of_ne f (fun hi => hc (Slot.ext hi)),
        get_set_of_ne g (fun hi => hd (Slot.ext hi)), h.get hcd]
  left_lt hcd := by
    rw [size_set]
    exact h.left_lt hcd
  right_lt hcd := by
    rw [size_set]
    exact h.right_lt hcd

theorem push (hr : Relator.BiUnique r) (h : Agrees r f g) (hab : r a b) (hcd : r c d) :
    Agrees r (f.push a c) (g.push b d) := by
  rw [Frame.push, Frame.push, h.get hab, h.get hcd]
  cases g.get b with
  | array items => exact h.set hr hab _
  | _ => exact h

theorem extend (hr : Relator.BiUnique r) (h : Agrees r f g) (hab : r a b) (hcd : r c d) :
    Agrees r (f.extend a c) (g.extend b d) := by
  rw [Frame.extend, Frame.extend, h.get hab, h.get hcd]
  cases g.get d with
  | array new =>
    cases g.get b with
    | array old => exact h.set hr hab _
    | _ => exact h
  | _ => exact h

theorem insert (hr : Relator.BiUnique r) (h : Agrees r f g) (hab : r a b) (key : String)
    (hcd : r c d) : Agrees r (f.insert a key c) (g.insert b key d) := by
  rw [Frame.insert, Frame.insert, h.get hab, h.get hcd]
  cases g.get b with
  | object entries => exact h.set hr hab _
  | _ => exact h

end Frame.Agrees

theorem Operand.Alike.eval_eq {x y : Operand} (h : x.Alike r y) {f g : Frame}
    (hfg : f.Agrees r g) : x.eval f = y.eval g := by
  cases h with
  | slot hab => exact hfg.get hab
  | literal value => rfl

theorem Expr.Alike.eval_eq {x y : Expr} (h : x.Alike r Eq y) (host : Host σ) {f g : Frame}
    (hfg : f.Agrees r g) (s : σ) : x.eval host f s = y.eval host g s := by
  cases h with
  | literal _ | emptyObject => rfl
  | load h | field _ h | offset _ h | not h | call _ h => simp only [eval, hfg.get h]
  | element h hi => simp only [eval, hfg.get h, hi.eval_eq hfg]
  | compare _ h h' => simp only [eval, hfg.get h, hfg.get h']
  | expref _ h => simp only [eval, h]
  | @list items others h =>
    have hitems : items.map (Operand.eval f) = others.map (Operand.eval g) := by
      induction h with
      | nil => rfl
      | cons h _ ih => rw [List.map_cons, List.map_cons, h.eval_eq hfg, ih]
    simp only [eval, hitems]

theorem Test.Alike.holds_eq {t u : Test} (h : t.Alike r u) {f g : Frame} (hfg : f.Agrees r g) :
    t.holds f = u.holds g := by
  induction h with
  | isNull h | isSequence h | isMapping h | falsy h | isTrue h | emptySequence h
  | nonEmptySequence h => simp only [holds, hfg.get h]
  | not _ ih => simp only [holds, ih]

/-- The runs stop at the same error if at all, leave the host in the same state, and end in frames
that agree. -/
structure Outcome.Agrees (r : Slot → Slot → Prop) (o o' : Outcome σ) : Prop where
  error : o.error = o'.error
  state : o.state = o'.state
  frame : o.frame.Agrees r o'.frame

theorem Outcome.Agrees.andThen {o o' : Outcome σ} {next next' : Frame → σ → Outcome σ}
    (h : o.Agrees r o')
    (hn : ∀ f g s, Frame.Agrees r f g → (next f s).Agrees r (next' g s)) :
    (o.andThen next).Agrees r (o'.andThen next') := by
  obtain ⟨f, s, error⟩ := o
  obtain ⟨g, s', error'⟩ := o'
  obtain ⟨rfl, rfl, hframe⟩ := h
  cases error with
  | none => exact hn f g s hframe
  | some e => exact ⟨rfl, rfl, hframe⟩

namespace Stmt

theorem loop_agrees (hr : Relator.BiUnique r) {body body' : Frame → σ → Outcome σ} {a b : Slot}
    (hab : r a b) (hbody : ∀ f g s, Frame.Agrees r f g → (body f s).Agrees r (body' g s))
    (values : List Value) {f g : Frame} (h : f.Agrees r g) (s : σ) :
    (loop body a values f s).Agrees r (loop body' b values g s) := by
  induction values generalizing f g s with
  | nil => exact ⟨rfl, rfl, h⟩
  | cons value values ih =>
    rw [loop, loop]
    exact (hbody _ _ s (h.set hr hab value)).andThen fun f g s h => ih h s

theorem execAll_agrees_of {host : Host σ} {block other : List Stmt}
    (hb : ∀ stmt ∈ block, ∀ stmt', stmt.Alike r Eq stmt' → ∀ f g s, Frame.Agrees r f g →
      (stmt.exec host f s).Agrees r (stmt'.exec host g s))
    (ha : AlikeAll r Eq block other) {f g : Frame} (h : f.Agrees r g) (s : σ) :
    (execAll host block f s).Agrees r (execAll host other g s) := by
  induction ha generalizing f g s with
  | nil => exact ⟨rfl, rfl, h⟩
  | cons hhead _ ih =>
    obtain ⟨hstmt, hstmts⟩ := List.forall_mem_cons.1 hb
    rw [execAll, execAll]
    exact (hstmt _ hhead f g s h).andThen fun f g s h => ih hstmts h s

theorem exec_agrees (hr : Relator.BiUnique r) (host : Host σ) (stmt : Stmt) {other : Stmt}
    (ha : stmt.Alike r Eq other) {f g : Frame} (h : f.Agrees r g) (s : σ) :
    (stmt.exec host f s).Agrees r (other.exec host g s) := by
  induction stmt generalizing other f g s with
  | assign target expr =>
    cases ha with
    | @assign _ _ _ y hab hxy =>
      rw [exec, exec, hxy.eval_eq host h s]
      rcases y.eval host g s with ⟨_ | value, t⟩
      · exact ⟨rfl, rfl, h⟩
      · exact ⟨rfl, rfl, h.set hr hab value⟩
  | branch test yes no ihy ihn =>
    cases ha with
    | @branch _ u _ _ _ _ ht hyes hno =>
      rw [exec, exec, ht.holds_eq h]
      cases u.holds g with
      | true => exact execAll_agrees_of (fun stmt hm _ ha f g s h => ihy stmt hm ha h s) hyes h s
      | false => exact execAll_agrees_of (fun stmt hm _ ha f g s h => ihn stmt hm ha h s) hno h s
  | forEach item source body ih =>
    cases ha with
    | forEach hab hcd hbody =>
      rw [exec, exec, h.get hcd]
      exact loop_agrees hr hab (fun f g s h =>
        execAll_agrees_of (fun stmt hm _ ha f g s h => ih stmt hm ha h s) hbody h s) _ h s
  | push list item =>
    cases ha with
    | push hab hcd => exact ⟨rfl, rfl, h.push hr hab hcd⟩
  | extend list items =>
    cases ha with
    | extend hab hcd => exact ⟨rfl, rfl, h.extend hr hab hcd⟩
  | insert object key item =>
    cases ha with
    | insert _ hab hcd => exact ⟨rfl, rfl, h.insert hr hab key hcd⟩

/-- Blocks that are alike run alike. -/
theorem execAll_agrees (hr : Relator.BiUnique r) (host : Host σ) {block other : List Stmt}
    (ha : AlikeAll r Eq block other) {f g : Frame} (h : f.Agrees r g) (s : σ) :
    (execAll host block f s).Agrees r (execAll host other g s) :=
  execAll_agrees_of (fun stmt _ _ ha _ _ s h => exec_agrees hr host stmt ha h s) ha h s

end Stmt

/-! ## The numbers of expression references -/

def Expr.sites : Expr → List Nat
  | .expref site _ => [site]
  | _ => []

namespace Stmt

mutual

/-- The numbers of the expression references in a statement, in the order in which they stand
there. -/
def sites : Stmt → List Nat
  | .assign _ expr => expr.sites
  | .branch _ yes no => sitesAll yes ++ sitesAll no
  | .forEach _ _ body => sitesAll body
  | .push _ _ | .extend _ _ | .insert _ _ _ => []

@[inherit_doc sites]
def sitesAll : List Stmt → List Nat
  | [] => []
  | stmt :: stmts => stmt.sites ++ sitesAll stmts

end

theorem sitesAll_append (first second : List Stmt) :
    sitesAll (first ++ second) = sitesAll first ++ sitesAll second := by
  induction first with
  | nil => rfl
  | cons stmt stmts ih => simp only [List.cons_append, sitesAll, ih, List.append_assoc]

variable {e : Nat → Nat → Prop} {f : Nat → Nat}

theorem length_sitesAll_of {block other : List Stmt}
    (hb : ∀ stmt ∈ block, ∀ stmt', stmt.Alike r e stmt' → stmt.sites.length = stmt'.sites.length)
    (ha : AlikeAll r e block other) : (sitesAll block).length = (sitesAll other).length := by
  induction ha with
  | nil => rfl
  | cons hhead _ ih =>
    obtain ⟨hstmt, hstmts⟩ := List.forall_mem_cons.1 hb
    simp only [sitesAll, List.length_append, hstmt _ hhead, ih hstmts]

theorem Alike.length_sites {stmt other : Stmt} (ha : stmt.Alike r e other) :
    stmt.sites.length = other.sites.length := by
  induction stmt generalizing other with
  | assign target expr =>
    cases ha with
    | assign _ hxy => cases hxy <;> rfl
  | branch test yes no ihy ihn =>
    cases ha with
    | branch _ hyes hno =>
      simp only [sites, List.length_append,
        length_sitesAll_of (fun stmt hm _ ha => ihy stmt hm ha) hyes,
        length_sitesAll_of (fun stmt hm _ ha => ihn stmt hm ha) hno]
  | forEach item source body ih =>
    cases ha with
    | forEach _ _ hbody => exact length_sitesAll_of (fun stmt hm _ ha => ih stmt hm ha) hbody
  | push _ _ | extend _ _ | insert _ _ _ => cases ha; rfl

theorem AlikeAll.of_sites_of {block other : List Stmt}
    (hb : ∀ stmt ∈ block, ∀ stmt', stmt.Alike r e stmt' → stmt.sites.map f = stmt'.sites →
      stmt.Alike r (fun i j => f i = j) stmt')
    (ha : AlikeAll r e block other) (hs : (sitesAll block).map f = sitesAll other) :
    AlikeAll r (fun i j => f i = j) block other := by
  induction ha with
  | nil => exact .nil
  | cons hhead _ ih =>
    obtain ⟨hstmt, hstmts⟩ := List.forall_mem_cons.1 hb
    rw [sitesAll, List.map_append] at hs
    obtain ⟨hfirst, hrest⟩ := List.append_inj hs (by rw [List.length_map, hhead.length_sites])
    exact .cons (hstmt _ hhead hfirst) (ih hstmts hrest)

theorem Alike.of_sites {stmt other : Stmt} (ha : stmt.Alike r e other)
    (hs : stmt.sites.map f = other.sites) : stmt.Alike r (fun i j => f i = j) other := by
  induction stmt generalizing other with
  | assign target expr =>
    cases ha with
    | assign hab hxy =>
      refine .assign hab ?_
      cases hxy with
      | literal value => exact .literal value
      | load h => exact .load h
      | field name h => exact .field name h
      | element h hi => exact .element h hi
      | offset delta h => exact .offset delta h
      | list h => exact .list h
      | emptyObject => exact .emptyObject
      | compare op h h' => exact .compare op h h'
      | not h => exact .not h
      | call name h => exact .call name h
      | expref node _ => exact .expref node (List.cons.inj hs).1
  | branch test yes no ihy ihn =>
    cases ha with
    | branch ht hyes hno =>
      have hlength := length_sitesAll_of (fun _ _ _ ha => ha.length_sites) hyes
      rw [sites, List.map_append] at hs
      obtain ⟨hsy, hsn⟩ := List.append_inj hs (by rw [List.length_map, hlength])
      exact .branch ht (AlikeAll.of_sites_of (fun stmt hm _ ha => ihy stmt hm ha) hyes hsy)
        (AlikeAll.of_sites_of (fun stmt hm _ ha => ihn stmt hm ha) hno hsn)
  | forEach item source body ih =>
    cases ha with
    | forEach hab hcd hbody =>
      exact .forEach hab hcd (AlikeAll.of_sites_of (fun stmt hm _ ha => ih stmt hm ha) hbody hs)
  | push _ _ =>
    cases ha with
    | push hab hcd => exact .push hab hcd
  | extend _ _ =>
    cases ha with
    | extend hab hcd => exact .extend hab hcd
  | insert _ _ _ =>
    cases ha with
    | insert _ hab hcd => exact .insert _ hab hcd

/-- How the numbers of expression references stand for each other in blocks that are alike is known
from these numbers, in the order in which they stand there. -/
theorem AlikeAll.of_sites {block other : List Stmt} (ha : AlikeAll r e block other)
    (hs : (sitesAll block).map f = sitesAll other) : AlikeAll r (fun i j => f i = j) block other :=
  AlikeAll.of_sites_of (fun _ _ _ ha => ha.of_sites) ha hs

end Stmt

namespace Query

open Stmt (sitesAll sitesAll_append)

attribute [local simp] Stmt.sites Stmt.sitesAll Stmt.sitesAll_append Expr.sites Stmt.copy Stmt.when
  setNull

/-- How many expression references several queries have together. -/
def referencesEach (members : List Member) : Nat :=
  (members.map fun member => member.query.references).sum

theorem referencesEach_cons (member : Member) (members : List Member) :
    referencesEach (member :: members) = member.query.references + referencesEach members := by
  rw [referencesEach, referencesEach, List.map_cons, List.sum_cons]

theorem referencesEach_items (items : List Query) :
    referencesEach (items.map Member.ofItem) = referencesAll items := by
  induction items with
  | nil => rfl
  | cons item items ih => rw [List.map_cons, referencesEach_cons, ih, referencesAll, Member.ofItem]

theorem referencesEach_entries (entries : List (String × Query)) :
    referencesEach (entries.map Member.ofEntry) = referencesEntries entries := by
  induction entries with
  | nil => rfl
  | cons entry entries ih =>
    rw [List.map_cons, referencesEach_cons, ih, referencesEntries, Member.ofEntry]

theorem sites_store (target : Slot) (member : Member) : (member.store target).sites = [] := by
  obtain ⟨_ | key, query⟩ := member <;> simp [Member.store]

theorem sites_lowerEach {members : List Member}
    (h : ∀ member ∈ members, ∀ k n,
      sitesAll ((member.query.number k).lower n) = List.range' k member.query.references)
    (base baseCurrent target : Slot) (k n : Nat) :
    sitesAll (lowerEach base baseCurrent target n (numberEach k members)) =
      List.range' k (referencesEach members) := by
  induction members generalizing k n with
  | nil => rfl
  | cons member members ih =>
    obtain ⟨hmember, hmembers⟩ := List.forall_mem_cons.1 h
    simp [numberEach, lowerEach, referencesEach_cons, sites_store, hmember, ih hmembers,
      List.range'_append_1]

/-- The expression references of a numbered query stand in its code in the order of their numbers.
-/
theorem sites_lower (query : Query) (k n : Nat) :
    sitesAll ((query.number k).lower n) = List.range' k query.references := by
  induction query generalizing k n with
  | literal _ | field _ | current => simp [number, lower, references]
  | index i =>
    rw [number, lower, lowerIndex, references]
    split <;> simp
  | subexpression left right ihl ihr | pipe left right ihl ihr | or left right ihl ihr
  | and left right ihl ihr =>
    simp [number, lower, lowerShortCircuit, references, ihl, ihr, List.range'_append_1]
  | not query ih => simp [number, lower, references, ih]
  | flatten query ih => simp [number, lower, lowerFlatten, lowerSplice, references, ih]
  | projection source left right ihl ihr =>
    simp [number, lower, lowerProjection, references, ihl, ihr, List.range'_append_1]
  | comparator op left right ihl ihr =>
    simp [number, lower, lowerSide, lowerComparison, references, ihl, ihr, List.range'_append_1]
  | list items ih | call _ items ih =>
    have hitems := @sites_lowerEach (items.map Member.ofItem) (List.forall_mem_map.2 ih)
    simp [number, lower, lowerItems_eq, map_ofItem_numberAll, references, hitems,
      referencesEach_items]
  | hash entries ih =>
    have hentries := @sites_lowerEach (entries.map Member.ofEntry) (List.forall_mem_map.2 ih)
    simp [number, lower, lowerEntries_eq, map_ofEntry_numberEntries, references, hentries,
      referencesEach_entries]
  | slice _ _ _ => simp [number, lower, lowerSlice, references]
  | reference site node => simp [number, lower, references]

end Query

end PathQuery
