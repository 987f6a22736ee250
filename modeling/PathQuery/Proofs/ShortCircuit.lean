import Mathlib
import PathQuery.Proofs.Correctness
import PathQuery.Proofs.Registers

/-!
# Where the right side of a disjunction or conjunction starts

The code of `or` and `and` saves the running result before its left side and puts it back before its
right side. It does not save the current context, so a pipe in the left side moves it for good:

* `Query.registers_of_rightGap`: the right side starts with the running result that the whole
  construct found, and with the current context that the left side left behind;
* `Procedure.right_operand_registers`: so it is in every run of a procedure, and both registers are
  as the construct found them if the left side exposes no pipe. The answer of the right side does
  not depend on the current context either way;
* `Procedure.current_moved_by_left_operand`: a run in which the right side starts with another
  current context than the construct.
-/

namespace PathQuery

variable {σ : Type}

namespace Query

open Stmt

variable {host : Host σ} {left : Query} {test : Test} {n : Nat} {code : List Stmt}
  {frame g : Frame} {s t : σ}

/-- The run of the left side, after the running result was saved. -/
def leftRun (host : Host σ) (left : Query) (n : Nat) (frame : Frame) (s : σ) : Outcome σ :=
  execAll host (left.lower (n + 1)) (frame.set ⟨n⟩ (frame.get .value)) s

/-- The right side starts behind a run of the left side that succeeded, with the running result put
back, and all else as the left side left it. -/
theorem leftRun_of_rightGap (hg : (rightGap left n test).Reached host code frame s g t) :
    ∃ after, leftRun host left n frame s = ⟨after, t, none⟩ ∧ test.holds after = true ∧
      g = after.set .value (after.get ⟨n⟩) := by
  cases hg with
  | @yes _ _ _ _ _ _ after _ _ u _ he ht hg =>
    rw [execAll_copy] at he
    cases hg with
    | here hr =>
      rw [execAll_copy] at hr
      cases hr
      exact ⟨after, he, ht, rfl⟩

/-- The right side starts with the running result that the construct found, and with the current
context that the left side left behind. -/
theorem registers_of_rightGap (hn : 2 ≤ n) (hs : n < frame.slots.size)
    (hg : (rightGap left n test).Reached host code frame s g t) :
    g.get .value = frame.get .value ∧
      g.get .current = (leftRun host left n frame s).frame.get .current := by
  obtain ⟨after, hl, -, rfl⟩ := leftRun_of_rightGap hg
  have hk := left.keeps_lower host (n + 1) (frame.set ⟨n⟩ (frame.get .value)) s
  rw [leftRun] at hl
  rw [leftRun, hl]
  rw [hl] at hk
  -- the temporaries of the left side lie behind the slot with the saved result
  have hsaved : after.get ⟨n⟩ = frame.get .value := by
    rw [hk.get n hn (by omega), frame.get_set_self hs]
  constructor
  · rw [hsaved, after.get_set_self (by rw [hk.size]; grind)]
  · rw [after.get_set_of_ne (by decide)]

/-- A left side that exposes no pipe leaves the current context as it was. -/
theorem current_leftRun (hp : left.exposesPipe = false) (hn : 2 ≤ n)
    (hs : n + 1 + left.width ≤ frame.slots.size)
    (he : (leftRun host left n frame s).error = none) :
    (leftRun host left n frame s).frame.get .current = frame.get .current := by
  have hk := (keepsCurrent host left hp (n + 1) (frame.set ⟨n⟩ (frame.get .value)) s (by omega)
    (by grind)).ends he
  rw [leftRun, hk, frame.get_set_of_ne (by simp only [Slot.index_current]; omega)]

end Query

namespace Procedure

open Query Stmt

/-- Wherever a run of a compiled procedure comes to the right side of a disjunction or conjunction,
the running result is the one that the construct found. The current context is the one that the run
of the left side left behind, so both registers are as the construct found them just if that run did
not move the current context, and in any case if the left side exposes no pipe. The right side gives
its answer on the running result, whatever the current context. -/
theorem right_operand_registers {node : Node} {options : Options} {first : Nat}
    {procedure : Procedure} (h : compile node options first = .ok procedure) (host : Host σ)
    (root : Value) (s : σ) :
    ∃ query, ofNode first node = .ok query ∧
      procedure.body = .copy .current .value :: query.lower 2 ∧
      ∀ inner : Start σ, Comes host
          ⟨query, 2, (Frame.start procedure.slots.length root).set .current root, s⟩ inner →
        ∀ left right test, ShortCircuit inner.query left right test →
          (rightGap left inner.slot test).fill (right.lower (inner.slot + 1 + left.width)) =
            inner.code ∧
          ∀ g t, (rightGap left inner.slot test).Reached host
              (right.lower (inner.slot + 1 + left.width)) inner.frame inner.state g t →
            g.get .value = inner.frame.get .value ∧
            g.get .current =
              (leftRun host left inner.slot inner.frame inner.state).frame.get .current ∧
            (inner.frame.SameRegisters g ↔
              (leftRun host left inner.slot inner.frame inner.state).frame.get .current =
                inner.frame.get .current) ∧
            (left.exposesPipe = false → inner.frame.SameRegisters g) ∧
            (execAll host (right.lower (inner.slot + 1 + left.width)) g t).result =
              (right.eval host (inner.frame.get .value) t).1 := by
  obtain ⟨query, hq, rfl⟩ := compile_eq_ok h
  refine ⟨query, hq, rfl, fun inner hi left right test hsc => ?_⟩
  refine ⟨(Part.shortCircuitRight hsc _).fill_eq, fun g t hg => ?_⟩
  have hroom := hi.room ⟨Nat.le_refl 2, by simp [length_slots_ofQuery]⟩
  have h2 := hroom.two_le
  have hsize := hroom.le_size
  rw [hsc.width_eq] at hsize
  obtain ⟨hvalue, hcurrent⟩ := registers_of_rightGap h2 (by omega) hg
  have hsame : inner.frame.SameRegisters g ↔
      (leftRun host left inner.slot inner.frame inner.state).frame.get .current =
        inner.frame.get .current := by
    rw [← hcurrent]
    exact ⟨fun hs => hs.current, fun hc => ⟨hvalue, hc⟩⟩
  refine ⟨hvalue, hcurrent, hsame, fun hp => hsame.2 ?_, ?_⟩
  · obtain ⟨after, hl, -, -⟩ := leftRun_of_rightGap hg
    exact current_leftRun hp h2 (by omega) (by rw [hl])
  · refine congrArg Prod.fst (Outcome.Answers.result_eq ?_)
    exact (right.correct host).value (by omega) (by rw [hg.size]; omega) hvalue

/-- A left side without a pipe moves nothing: the right side of the conjunction starts with both
registers as the conjunction found them, inside a pipe that had moved the current context before. -/
theorem right_operand_registers_and :
    let node : Node := .binary .pipe (.field "a") (.binary .and (.field "b") .current)
    let both : Query := .and (.field "b") .current
    let doc : Value := .object [("b", .integer 1)]
    let root : Value := .object [("a", doc)]
    let moved : Frame := ⟨#[doc, doc, .null]⟩
    let started : Frame := ⟨#[doc, doc, doc]⟩
    compile node {} = .ok (ofQuery {} (.pipe (.field "a") both)) ∧
      Comes .unbound ⟨.pipe (.field "a") both, 2, ⟨#[root, root, .null]⟩, ()⟩
        ⟨both, 2, moved, ()⟩ ∧
      (rightGap (.field "b") 2 (.not (.falsy .value))).Reached .unbound (lower 3 .current) moved ()
        started () ∧
      moved.SameRegisters started := by
  intro node both doc root moved started
  have hc : compile node {} = .ok (ofQuery {} (.pipe (.field "a") both)) := by cbv
  have hleft : execAll .unbound (lower 2 (.field "a") ++ [.copy .current .value])
      ⟨#[root, root, .null]⟩ () = ⟨moved, (), none⟩ := by cbv
  have hcomes : Comes .unbound ⟨.pipe (.field "a") both, 2, ⟨#[root, root, .null]⟩, ()⟩
      ⟨both, 2, moved, ()⟩ := .part .self (.pipeRight _ _ 2) (.here hleft)
  have hb : execAll .unbound (.copy ⟨2⟩ .value :: lower 3 (.field "b")) moved () =
      ⟨⟨#[.integer 1, doc, doc]⟩, (), none⟩ := by cbv
  have hreached : (rightGap (.field "b") 2 (.not (.falsy .value))).Reached .unbound
      (lower 3 .current) moved () started () := .yes hb rfl (.here rfl)
  have hn : ofNode 0 node = .ok (.pipe (.field "a") both) := by cbv
  have hentered : (Frame.start (ofQuery {} (.pipe (.field "a") both)).slots.length root).set
      .current root = ⟨#[root, root, .null]⟩ := by cbv
  obtain ⟨query, hq, -, hinner⟩ := right_operand_registers hc .unbound root ()
  obtain rfl := Except.ok.inj (hn.symm.trans hq)
  rw [hentered] at hinner
  exact ⟨hc, hcomes, hreached,
    ((hinner _ hcomes _ _ _ (.and _ _)).2 started () hreached).2.2.2.1 rfl⟩

/-- A disjunction whose left side pipes its answer. It runs first in the procedure, with the whole
document as current context, but its right side starts with the answer of the left side there. -/
theorem current_moved_by_left_operand :
    let node : Node := .binary .or (.binary .pipe (.field "a") .current) .current
    let pipe : Query := .pipe (.field "a") .current
    let root : Value := .object [("a", .boolean false)]
    let entered : Frame := (Frame.start 3 root).set .current root
    let started : Frame := ⟨#[root, .boolean false, root]⟩
    compile node {} = .ok (ofQuery {} (.or pipe .current)) ∧
      (ofQuery {} (.or pipe .current)).slots.length = 3 ∧
      (rightGap pipe 2 (.falsy .value)).fill (lower 3 .current) = lower 2 (.or pipe .current) ∧
      (rightGap pipe 2 (.falsy .value)).Reached .unbound (lower 3 .current) entered () started () ∧
      entered.get .current = root ∧ started.get .current = .boolean false ∧
      ¬ entered.SameRegisters started := by
  intro node pipe root entered started
  have hc : compile node {} = .ok (ofQuery {} (.or pipe .current)) := by cbv
  have hleft : execAll .unbound (.copy ⟨2⟩ .value :: lower 3 pipe) entered () =
      ⟨⟨#[.boolean false, .boolean false, root]⟩, (), none⟩ := by cbv
  refine ⟨hc, by cbv, (Part.shortCircuitRight (.or pipe .current) 2).fill_eq,
    .yes hleft rfl (.here rfl), rfl, rfl, fun hs => ?_⟩
  cases hs.current

end Procedure

end PathQuery
