import Mathlib
import PathQuery.Proofs.Constructs
import PathQuery.Proofs.Correctness
import PathQuery.Proofs.Reordering

/-!
# Queries that do not see the order of entries

Only a projection over an object looks at the order in which the entries stand, and only the host's
functions can be handed an object as a whole. A query without these gives the same answer, up to
the order of entries, on values that are the same up to the order of entries:

* `Reply.Both`: two evaluations succeed, leave the host alone and give related results. This is kept
  when the evaluations go on, in sequence or element by element;
* `Node.respects_of_check`: so it is for the evaluation of a node on reordered values, by induction
  on the node;
* `Procedure.call_reordered`: so it is for a compiled procedure.
-/

namespace PathQuery

variable {σ : Type}

/-! ## Pairs of evaluations -/

/-- Both replies are results that are related by `r`, with the host's state as it was. -/
def Reply.Both {α : Type} (r : α → α → Prop) (s : σ) (first second : Reply σ α) : Prop :=
  ∃ a b, first = (.ok a, s) ∧ second = (.ok b, s) ∧ r a b

namespace Reply.Both

variable {α β : Type} {r : α → α → Prop} {q : β → β → Prop} {s : σ}

theorem ok {a b : α} (h : r a b) : Both r s (.ok a, s) (.ok b, s) := ⟨a, b, rfl, rfl, h⟩

theorem andThen {first second : Reply σ α} {next next' : α → σ → Reply σ β}
    (h : Both r s first second) (hn : ∀ a b, r a b → Both q s (next a s) (next' b s)) :
    Both q s (first.andThen next) (second.andThen next') := by
  obtain ⟨a, b, rfl, rfl, hr⟩ := h
  exact hn a b hr

theorem forEach {f g : α → σ → Reply σ β} (hf : ∀ a b, r a b → Both q s (f a s) (g b s))
    {as bs : List α} (h : List.Forall₂ r as bs) :
    Both (List.Forall₂ q) s (Reply.forEach f as s) (Reply.forEach g bs s) := by
  induction h with
  | nil => exact .ok .nil
  | cons hr _ ih =>
    refine (hf _ _ hr).andThen fun x y hq => ih.andThen fun xs ys hqs => ?_
    exact .ok (.cons hq hqs)

open Value in
theorem project {f g : Value → σ → Reply σ Value} {a b : Value}
    (hf : ∀ a b, Reordered a b → Both Reordered s (f a s) (g b s)) (h : Reordered a b) :
    Both Reordered s (Reply.project .array f a s) (Reply.project .array g b s) := by
  have hp := h.projected
  unfold Reply.project
  revert hp
  generalize a.projected? .array = elements
  generalize b.projected? .array = others
  intro hp
  cases hp with
  | none => exact .ok (.refl _)
  | some hi => exact (forEach hf hi).andThen fun xs ys hv => .ok (.array (Reordered.filter hv))

end Reply.Both

/-! ## Nodes -/

/-- The node runs through the entries of an object, or hands values to the host. -/
def Node.readsOrder (node : Node) : Bool :=
  node.kind == .functionCall || node.kind == .slice ||
    node.kind == .projection && node.source == some .object

namespace Node

open Query Reply Value

/-- The node reads no order, nor does any node in it outside of expression references. -/
def orderBlind (node : Node) : Bool := node.everywhere fun node => !node.readsOrder

/-- On reordered values the node gives reordered results, and calls no function. -/
def Respects (host : Host σ) (node : Node) : Prop :=
  ∀ (a b : Value), Reordered a b → ∀ (site : Nat) (s : σ),
    Both Reordered s (node.eval host site a s) (node.eval host site b s)

variable {host : Host σ}

theorem both_evalAll {nodes : List Node} {queries : List Query}
    (hn : List.Forall₂ (fun node _ => node.Respects host) nodes queries) {a b : Value}
    (h : Reordered a b) (site : Nat) (s : σ) :
    Both (List.Forall₂ Reordered) s (evalAll host site nodes a s)
      (evalAll host site nodes b s) := by
  induction hn generalizing site with
  | nil => exact .ok .nil
  | cons hnode _ ih =>
    refine (hnode a b h site s).andThen fun v w hv => (ih _).andThen fun vs ws hvs => ?_
    exact .ok (.cons hv hvs)

theorem both_evalPairs {nodes : List Node} {entries : List (String × Query)}
    (hn : List.Forall₂ (EntryOf fun node _ => node.Respects host) nodes entries) {a b : Value}
    (h : Reordered a b) (site : Nat) (s : σ) :
    Both (List.Forall₂ Reordered.Entry) s (evalPairs host site nodes a s)
      (evalPairs host site nodes b s) := by
  induction hn generalizing site with
  | nil => exact .ok .nil
  | cons hpair _ ih =>
    obtain ⟨child, source, rfl, hchild⟩ := hpair
    refine (hchild a b h site s).andThen fun v w hv => (ih _).andThen fun vs ws hvs => ?_
    exact .ok (.cons ⟨rfl, hv⟩ hvs)

/-! ### Constructs -/

section

variable {child left right : Node} {value : Option Value} {source : Option SourceKind}
  {children : List Node}

theorem respects_not (hc : child.Respects host) :
    Respects host ⟨.not, value, [child], source⟩ := by
  intro a b h site s
  refine (hc a b h site s).andThen fun v w hv => .ok ?_
  rw [hv.truthy_eq]
  exact .refl _

theorem respects_flatten (hc : child.Respects host) :
    Respects host ⟨.flatten, value, [child], source⟩ :=
  fun a b h site s => (hc a b h site s).andThen fun _ _ hv => .ok hv.flatten

theorem respects_subexpression {kind : Kind} (hk : kind = .subexpression ∨ kind = .condition)
    (hl : left.Respects host) (hr : right.Respects host) :
    Respects host ⟨kind, value, [left, right], source⟩ := by
  intro a b h site s
  have hrest (v w : Value) (hv : Reordered v w) : Both Reordered s
      (if v.isNull then (.ok .null, s) else right.eval host (site + left.references) v s)
      (if w.isNull then (.ok .null, s) else right.eval host (site + left.references) w s) := by
    rw [hv.isNull_eq]
    split
    · exact .ok (.refl _)
    · exact hr v w hv _ s
  rcases hk with rfl | rfl
  · exact (hl a b h site s).andThen hrest
  · exact (hl a b h site s).andThen hrest

theorem respects_pipe (hl : left.Respects host) (hr : right.Respects host) :
    Respects host ⟨.pipe, value, [left, right], source⟩ :=
  fun a b h site s => (hl a b h site s).andThen fun v w hv => hr v w hv _ s

theorem respects_or (hl : left.Respects host) (hr : right.Respects host) :
    Respects host ⟨.or, value, [left, right], source⟩ := by
  intro a b h site s
  refine (hl a b h site s).andThen fun v w hv => ?_
  rw [hv.truthy_eq]
  split
  · exact .ok hv
  · exact hr a b h _ s

theorem respects_and (hl : left.Respects host) (hr : right.Respects host) :
    Respects host ⟨.and, value, [left, right], source⟩ := by
  intro a b h site s
  refine (hl a b h site s).andThen fun v w hv => ?_
  rw [hv.truthy_eq]
  split
  · exact hr a b h _ s
  · exact .ok hv

theorem respects_projection (hs : source.getD .array = .array) (hl : left.Respects host)
    (hr : right.Respects host) : Respects host ⟨.projection, value, [left, right], source⟩ := by
  intro a b h site s
  refine (hl a b h site s).andThen fun v w hv => ?_
  rw [hs]
  exact .project (fun x y hx => hr x y hx _ s) hv

theorem respects_comparator {name : String} {op : Comparator}
    (hop : Comparator.ofName? name = some op) (hl : left.Respects host)
    (hr : right.Respects host) :
    Respects host ⟨.comparator, some (.string name), [left, right], source⟩ := by
  intro a b h site s
  simp only [eval, hop]
  refine (hl a b h site s).andThen fun v w hv => (hr a b h _ s).andThen fun x y hx => .ok ?_
  rw [hv.compare_eq hx]
  split
  · exact h
  · exact .refl _

theorem respects_list {items : List Query}
    (hn : List.Forall₂ (fun node _ => node.Respects host) children items) :
    Respects host ⟨.multiSelectList, value, children, source⟩ := by
  intro a b h site s
  simp only [eval, h.isNull_eq]
  split
  · exact .ok (.refl _)
  · exact (both_evalAll hn h site s).andThen fun vs ws hvs => .ok (.array hvs)

theorem respects_hash {entries : List (String × Query)}
    (hn : List.Forall₂ (EntryOf fun node _ => node.Respects host) children entries) :
    Respects host ⟨.multiSelectHash, value, children, source⟩ := by
  intro a b h site s
  simp only [eval, h.isNull_eq]
  split
  · exact .ok (.refl _)
  · exact (both_evalPairs hn h site s).andThen fun vs ws hvs => .ok (.ofPairs hvs)

end

/-- The parts of a node that reads no order read none either. -/
theorem orderBlind_of_mem {node child : Node} (h : node.orderBlind = true)
    (hm : child ∈ node.children) (hk : (node.kind == .expressionReference) = false) :
    child.orderBlind = true :=
  everywhere_of_mem h hk hm

/-- A node that passes the check and reads no order gives reordered results on reordered values. -/
theorem respects_of_check {depth : Nat} {node : Node} {query : Query}
    (hc : check depth node = .ok query) (hb : node.orderBlind = true) : node.Respects host := by
  refine check_induction (motive := fun _ node _ => node.orderBlind = true → node.Respects host)
    ?literal ?field ?index ?slice ?current ?reference ?not ?flatten ?pair ?subexpression ?pipe ?or
    ?and ?projection ?comparator ?list ?hash ?call hc hb
  case literal => exact fun _ _ _ _ _ _ _ => .ok (.refl _)
  case field => exact fun _ _ _ _ h _ _ => .ok (h.field_at _)
  case index => exact fun _ _ _ _ h _ _ => .ok (h.item_at _)
  case current => exact fun _ _ _ _ h _ _ => .ok h
  case reference => exact fun _ _ _ _ _ _ _ => .ok (.refl _)
  case slice | call =>
    intros
    cases self_of_everywhere ‹_›
  case pair =>
    intro _ _ _ _ _ _ hq h
    exact hq (orderBlind_of_mem h (by simp) (by rfl))
  case not =>
    intro _ _ _ _ _ _ hq h
    exact respects_not (hq (orderBlind_of_mem h (by simp) (by rfl)))
  case flatten =>
    intro _ _ _ _ _ _ hq h
    exact respects_flatten (hq (orderBlind_of_mem h (by simp) (by rfl)))
  case subexpression =>
    intro _ kind _ _ _ _ _ _ _ hk hl hr h
    have hkind : (kind == .expressionReference) = false := by rcases hk with rfl | rfl <;> rfl
    exact respects_subexpression hk (hl (orderBlind_of_mem h (by simp) hkind))
      (hr (orderBlind_of_mem h (by simp) hkind))
  case pipe =>
    intro _ _ _ _ _ _ _ _ hl hr h
    exact respects_pipe (hl (orderBlind_of_mem h (by simp) (by rfl)))
      (hr (orderBlind_of_mem h (by simp) (by rfl)))
  case or =>
    intro _ _ _ _ _ _ _ _ hl hr h
    exact respects_or (hl (orderBlind_of_mem h (by simp) (by rfl)))
      (hr (orderBlind_of_mem h (by simp) (by rfl)))
  case and =>
    intro _ _ _ _ _ _ _ _ hl hr h
    exact respects_and (hl (orderBlind_of_mem h (by simp) (by rfl)))
      (hr (orderBlind_of_mem h (by simp) (by rfl)))
  case projection =>
    intro _ _ _ _ source _ _ _ hl hr h
    have hs : source.getD .array = .array := by
      rcases source with _ | _ | _
      · rfl
      · rfl
      · cases self_of_everywhere h
    exact respects_projection hs (hl (orderBlind_of_mem h (by simp) (by rfl)))
      (hr (orderBlind_of_mem h (by simp) (by rfl)))
  case comparator =>
    intro _ _ _ _ _ _ _ _ _ hop hl hr h
    exact respects_comparator hop (hl (orderBlind_of_mem h (by simp) (by rfl)))
      (hr (orderBlind_of_mem h (by simp) (by rfl)))
  case list =>
    intro _ _ _ _ _ _ hparts h
    exact respects_list
      (forall₂_of_forall_mem hparts fun child hm => orderBlind_of_mem h hm (by rfl))
  case hash =>
    intro _ _ _ _ _ _ hparts h
    -- the pairs are not evaluated themselves, what stands below them is
    refine respects_hash (forall₂_entryOf_of_forall_mem hparts fun pair hm hk child hi => ?_)
    exact orderBlind_of_mem (orderBlind_of_mem h hm (by rfl)) hi (by rw [hk]; rfl)

end Node

namespace Procedure

open Value

/-- A procedure of a tree that reads no order succeeds on two values that are the same up to the
order of entries, whatever the host, and its results are the same up to the order of entries. -/
theorem call_reordered {node : Node} {options : Options} {first : Nat} {procedure : Procedure}
    (hc : compile node options first = .ok procedure) (hb : node.orderBlind = true) (host : Host σ)
    {a b : Value} (h : Reordered a b) (s : σ) :
    ∃ v w, procedure.call host a s = (.ok v, s) ∧ procedure.call host b s = (.ok w, s) ∧
      Reordered v w := by
  obtain ⟨checked, hcheck⟩ := check_of_compile hc
  rw [call_of_compile hc, call_of_compile hc]
  exact Node.respects_of_check hcheck hb a b h first s

/-- Rows that are compared with a pattern as wholes. The document and one of its rows have their
entries in another order the second time, and so has the row that is kept. -/
theorem call_reordered_rows :
    let row : Value := .object [("p", .integer 1), ("q", .null)]
    let other : Value := .object [("p", .integer 2), ("q", .null)]
    let turned : Value := .object [("q", .null), ("p", .integer 1)]
    let node : Node := .projection none (.field "rows") (.comparator .equal .current (.literal row))
    let a : Value := .object [("of", row), ("rows", .array [other, .null, row])]
    let b : Value := .object [("rows", .array [other, .null, turned]), ("of", row)]
    ∃ procedure, compile node {} = .ok procedure ∧ node.orderBlind = true ∧ Reordered a b ∧
      procedure.call Host.tracing a [] = (.ok (.array [row]), []) ∧
      procedure.call Host.tracing b [] = (.ok (.array [turned]), []) ∧
      Reordered (.array [row]) (.array [turned]) := by
  intro row other turned node a b
  obtain ⟨procedure, hc⟩ : ∃ procedure, compile node {} = .ok procedure := ⟨_, by cbv⟩
  have hblind : node.orderBlind = true := by cbv
  have hrow : Reordered row turned := .entries (by decide) (.swap _ _ _)
  have hrows : Reordered (.array [other, .null, row]) (.array [other, .null, turned]) :=
    @Reordered.item [other, .null] [] row turned hrow
  have hab : Reordered a b := by
    refine .trans (@Reordered.entry [("of", row)] [] "rows" _ _ hrows) ?_
    exact .entries (by decide) (.swap _ _ _)
  have ha : procedure.call Host.tracing a [] = (.ok (.array [row]), []) := by
    rw [call_of_compile hc]
    cbv
  have hb : procedure.call Host.tracing b [] = (.ok (.array [turned]), []) := by
    rw [call_of_compile hc]
    cbv
  obtain ⟨v, w, hv, hw, hvw⟩ := call_reordered hc hblind .tracing hab []
  cases ha.symm.trans hv
  cases hb.symm.trans hw
  exact ⟨procedure, hc, hblind, hab, ha, hb, hvw⟩

end Procedure

end PathQuery
