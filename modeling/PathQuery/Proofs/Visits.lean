import PathQuery.Proofs.Slots

/-!
# The statements that a run comes to

A run of a block comes to statements one after the other, each with the frame that it finds:

* `Stmt.Visits`: the run of a block comes to a statement, at any depth and in any round of a loop,
  also when the run stops at an error later on;
* `Stmt.Safe`: a property of all statements that a run comes to, together with what holds where it
  ends, with a rule for each way to put code together. The rule for loops asks for an invariant of
  the rounds.
-/

namespace PathQuery

variable {σ : Type}

/-- A statement that is about to run, with the frame and the host that it finds. -/
structure Moment (σ : Type) where
  stmt : Stmt
  frame : Frame
  state : σ

/-- What holds where a run ends, unless it stops at an error. -/
def Outcome.Ends (outcome : Outcome σ) (post : Frame → σ → Prop) : Prop :=
  outcome.error = none → post outcome.frame outcome.state

namespace Outcome

theorem Ends.mono {outcome : Outcome σ} {post post' : Frame → σ → Prop} (h : outcome.Ends post)
    (hp : ∀ frame s, post frame s → post' frame s) : outcome.Ends post' :=
  fun he => hp _ _ (h he)

theorem ends_andThen_iff {outcome : Outcome σ} {next : Frame → σ → Outcome σ}
    {post : Frame → σ → Prop} :
    (outcome.andThen next).Ends post ↔ outcome.Ends fun frame s => (next frame s).Ends post := by
  rcases outcome with ⟨frame, s, _ | e⟩ <;> simp [Ends, andThen]

end Outcome

namespace Stmt

/-- The run of a block on a frame comes to a statement. -/
inductive Visits (host : Host σ) : List Stmt → Frame → σ → Moment σ → Prop
  | here {stmt : Stmt} {rest : List Stmt} {frame : Frame} {s : σ} :
    Visits host (stmt :: rest) frame s ⟨stmt, frame, s⟩
  | later {stmt : Stmt} {rest : List Stmt} {frame after : Frame} {s t : σ} {moment : Moment σ} :
    stmt.exec host frame s = ⟨after, t, none⟩ → Visits host rest after t moment →
    Visits host (stmt :: rest) frame s moment
  | yes {test : Test} {yes no rest : List Stmt} {frame : Frame} {s : σ} {moment : Moment σ} :
    test.holds frame = true → Visits host yes frame s moment →
    Visits host (.branch test yes no :: rest) frame s moment
  | no {test : Test} {yes no rest : List Stmt} {frame : Frame} {s : σ} {moment : Moment σ} :
    test.holds frame = false → Visits host no frame s moment →
    Visits host (.branch test yes no :: rest) frame s moment
  /-- The round of a loop for `value`, after the rounds for the elements before it. -/
  | round {item source : Slot} {body rest : List Stmt} {frame after : Frame} {s t : σ}
      {before others : List Value} {value : Value} {moment : Moment σ} :
    (frame.get source).elements = before ++ value :: others →
    loop (fun frame s => execAll host body frame s) item before frame s = ⟨after, t, none⟩ →
    Visits host body (after.set item value) t moment →
    Visits host (.forEach item source body :: rest) frame s moment

/-- A block names the slots of all statements that its runs come to, and a run never changes the
size of the frame. -/
theorem Visits.slots_subset {host : Host σ} {block : List Stmt} {frame : Frame} {s : σ}
    {moment : Moment σ} (h : Visits host block frame s moment) :
    moment.stmt.slots ⊆ slotsAll block ∧ moment.frame.slots.size = frame.slots.size := by
  induction h with
  | here => exact ⟨by simp [slotsAll], rfl⟩
  | @later stmt rest frame after s t moment he _ ih =>
    have hs := (exec_changedIn host stmt frame s).size
    rw [he] at hs
    exact ⟨fun _ hm => by simp [slotsAll, ih.1 hm], ih.2.trans hs⟩
  | yes _ _ ih => exact ⟨fun _ hm => by simp [slotsAll, slots, ih.1 hm], ih.2⟩
  | no _ _ ih => exact ⟨fun _ hm => by simp [slotsAll, slots, ih.1 hm], ih.2⟩
  | @round item source body rest frame after s t before others value moment _ hl _ ih =>
    have hc : Frame.ChangedIn (item :: slotsAll body) frame _ :=
      loop_changedIn (List.mem_cons_self ..)
        (fun frame s => (execAll_changedIn host body frame s).mono (List.subset_cons_self ..))
        before frame s
    rw [hl] at hc
    refine ⟨fun _ hm => by simp [slotsAll, slots, ih.1 hm], ?_⟩
    rw [ih.2, Frame.size_set, hc.size]

/-! ## Safe runs -/

theorem execAll_singleton {host : Host σ} {frame : Frame} {s : σ} (stmt : Stmt) :
    execAll host [stmt] frame s = stmt.exec host frame s := by
  rw [execAll]
  rcases stmt.exec host frame s with ⟨frame, s, _ | e⟩ <;> rfl

/-- All statements that the run of a block comes to, with the frames that they find, are as `good`
says, and `post` holds where the run ends, unless it stops at an error. -/
structure Safe (host : Host σ) (good : Stmt → Frame → Prop) (block : List Stmt) (frame : Frame)
    (s : σ) (post : Frame → σ → Prop) : Prop where
  good : ∀ moment, Visits host block frame s moment → good moment.stmt moment.frame
  ends : (execAll host block frame s).Ends post

section

variable {host : Host σ} {good : Stmt → Frame → Prop} {frame : Frame} {s : σ} {moment : Moment σ}
  {post : Frame → σ → Prop} {stmt : Stmt} {rest : List Stmt}

theorem visits_cons_iff :
    Visits host (stmt :: rest) frame s moment ↔ Visits host [stmt] frame s moment ∨
      ∃ after t, stmt.exec host frame s = ⟨after, t, none⟩ ∧ Visits host rest after t moment := by
  constructor
  · intro h
    cases h with
    | here => exact .inl .here
    | later he hv => exact .inr ⟨_, _, he, hv⟩
    | yes ht hv => exact .inl (.yes ht hv)
    | no ht hv => exact .inl (.no ht hv)
    | round he hl hv => exact .inl (.round he hl hv)
  · rintro (h | ⟨after, t, he, hv⟩)
    · cases h with
      | here => exact .here
      | later _ hv => cases hv
      | yes ht hv => exact .yes ht hv
      | no ht hv => exact .no ht hv
      | round he hl hv => exact .round he hl hv
    · exact .later he hv

theorem Safe.mono {block : List Stmt} {post' : Frame → σ → Prop}
    (h : Safe host good block frame s post) (hp : ∀ frame s, post frame s → post' frame s) :
    Safe host good block frame s post' :=
  ⟨h.good, h.ends.mono hp⟩

theorem safe_nil_iff : Safe host good [] frame s post ↔ post frame s :=
  ⟨fun h => h.ends rfl, fun h => ⟨nofun, fun _ => h⟩⟩

theorem safe_cons_iff :
    Safe host good (stmt :: rest) frame s post ↔
      Safe host good [stmt] frame s fun frame s => Safe host good rest frame s post := by
  constructor
  · rintro ⟨hg, he⟩
    rw [execAll, Outcome.ends_andThen_iff] at he
    refine ⟨fun moment hv => hg moment (visits_cons_iff.2 (.inl hv)), ?_⟩
    rw [execAll_singleton]
    exact fun hn => ⟨fun moment hv => hg moment (.later (by rw [← hn]) hv), he hn⟩
  · rintro ⟨hg, he⟩
    rw [execAll_singleton] at he
    constructor
    · intro moment hv
      rcases visits_cons_iff.1 hv with hv | ⟨after, t, hs, hv⟩
      · exact hg moment hv
      · rw [hs] at he
        exact (he rfl).good moment hv
    · rw [execAll, Outcome.ends_andThen_iff]
      exact he.mono fun _ _ h => h.ends

/-- A block is safe if its first part is, and its second part wherever the first may end. -/
theorem safe_append_iff {first second : List Stmt} :
    Safe host good (first ++ second) frame s post ↔
      Safe host good first frame s fun frame s => Safe host good second frame s post := by
  induction first generalizing frame s with
  | nil => rw [List.nil_append, safe_nil_iff]
  | cons stmt stmts ih =>
    rw [List.cons_append, safe_cons_iff]
    simp only [ih]
    exact safe_cons_iff.symm

/-! ### One rule for each statement -/

/-- The statements that hold no blocks. -/
def isSimple : Stmt → Bool
  | .branch _ _ _ | .forEach _ _ _ => false
  | _ => true

theorem safe_simple (hs : stmt.isSimple = true) (h : good stmt frame)
    (hr : (stmt.exec host frame s).Ends fun frame s => Safe host good rest frame s post) :
    Safe host good (stmt :: rest) frame s post := by
  rw [safe_cons_iff]
  refine ⟨fun moment hv => ?_, by rwa [execAll_singleton]⟩
  cases hv with
  | here => exact h
  | later _ hv => cases hv
  | yes | no | round => cases hs

theorem safe_assign {target : Slot} {expr : Expr} (h : good (.assign target expr) frame)
    (hr : ∀ value t, expr.eval host frame s = (.ok value, t) →
      Safe host good rest (frame.set target value) t post) :
    Safe host good (.assign target expr :: rest) frame s post := by
  refine safe_simple rfl h ?_
  rw [exec]
  rcases he : expr.eval host frame s with ⟨e | value, t⟩
  · intro hn
    cases hn
  · exact fun _ => hr value t he

theorem safe_copy {target source : Slot} (h : good (.copy target source) frame)
    (hr : Safe host good rest (frame.set target (frame.get source)) s post) :
    Safe host good (.copy target source :: rest) frame s post := by
  refine safe_assign h ?_
  rintro _ _ ⟨⟩
  exact hr

theorem safe_branch {test : Test} {yes no : List Stmt} (h : good (.branch test yes no) frame)
    (hy : test.holds frame = true → Safe host good (yes ++ rest) frame s post)
    (hn : test.holds frame = false → Safe host good (no ++ rest) frame s post) :
    Safe host good (.branch test yes no :: rest) frame s post := by
  simp only [safe_append_iff] at hy hn
  rw [safe_cons_iff]
  refine ⟨fun moment hv => ?_, ?_⟩
  · cases hv with
    | here => exact h
    | later _ hv => cases hv
    | yes ht hv => exact (hy ht).good moment hv
    | no ht hv => exact (hn ht).good moment hv
  · rw [execAll_singleton, exec]
    split
    · exact (hy ‹_›).ends
    · exact (hn (Bool.eq_false_iff.2 ‹_›)).ends

/-- An invariant of the rounds of a loop holds before each of them and after the last. -/
theorem loop_ends {body : Frame → σ → Outcome σ} {item : Slot} {inv : Frame → σ → Prop}
    (h : inv frame s)
    (hb : ∀ frame s value, inv frame s → (body (frame.set item value) s).Ends inv)
    (values : List Value) : (loop body item values frame s).Ends inv := by
  induction values generalizing frame s with
  | nil => exact fun _ => h
  | cons value values ih =>
    rw [loop, Outcome.ends_andThen_iff]
    exact (hb frame s value h).mono fun frame s hi => ih hi

theorem safe_forEach {item source : Slot} {body : List Stmt} (inv : Frame → σ → Prop)
    (h : good (.forEach item source body) frame) (hi : inv frame s)
    (hb : ∀ frame s value, inv frame s → Safe host good body (frame.set item value) s inv)
    (hr : ∀ frame s, inv frame s → Safe host good rest frame s post) :
    Safe host good (.forEach item source body :: rest) frame s post := by
  rw [safe_cons_iff]
  have hl := loop_ends hi fun frame s value hi => (hb frame s value hi).ends
  refine ⟨fun moment hv => ?_, ?_⟩
  · cases hv with
    | here => exact h
    | later _ hv => cases hv
    | @round item source body rest frame after s t before others value moment he hs hv =>
      have hb' := hl before
      rw [hs] at hb'
      exact (hb after t value (hb' rfl)).good moment hv
  · rw [execAll_singleton, exec]
    exact (hl _).mono hr

end

end Stmt

end PathQuery
