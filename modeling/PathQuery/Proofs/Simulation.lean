import PathQuery.Proofs.Hygiene
import PathQuery.Query.Eval

/-!
# Lowered code answers as its query

* `Outcome.Answers`: a run and a reply agree on result, error and state of the host, and the frame
  that the run leaves is as the result asks for. Runs that follow each other answer replies that
  follow each other (`Answers.andThen`), and the rounds of a loop answer the replies of its elements
  (`Stmt.loop_answers`);
* `Query.Correct`: the code of a query answers the query, in all frames with room for it;
* `Query.correct`: this is so for every query, by induction on it, with one lemma for each
  construct. What a construct keeps in its temporaries is still there after the code of its parts,
  since that code uses temporaries of its own (`Query.keeps_lower`).
-/

namespace PathQuery

variable {σ : Type}

theorem Reply.forEach_ok {α β : Type} (g : α → β) (as : List α) (s : σ) :
    Reply.forEach (fun a s => (.ok (g a), s)) as s = (.ok (as.map g), s) := by
  induction as with
  | nil => rfl
  | cons a as ih => simp only [Reply.forEach, Reply.andThen, ih, List.map_cons]

namespace Outcome

variable {α β : Type}

/-- A run answers a reply: both stop at the same error, or both succeed and the frame is as `post`
says for the result. Either way the host is left in the same state. -/
def Answers (outcome : Outcome σ) (reply : Reply σ α) (post : α → Frame → Prop) : Prop :=
  match reply with
  | (.ok a, s) => outcome.error = none ∧ outcome.state = s ∧ post a outcome.frame
  | (.error e, s) => outcome.error = some e ∧ outcome.state = s

namespace Answers

variable {outcome : Outcome σ} {reply : Reply σ α} {post : α → Frame → Prop}

theorem ok {a : α} {frame : Frame} {s : σ} (h : post a frame) :
    (⟨frame, s, none⟩ : Outcome σ).Answers (.ok a, s) post :=
  ⟨rfl, rfl, h⟩

theorem mono {post' : α → Frame → Prop} (h : outcome.Answers reply post)
    (hp : ∀ a frame, post a frame → post' a frame) : outcome.Answers reply post' := by
  obtain ⟨_ | a, s⟩ := reply
  · exact h
  · exact ⟨h.1, h.2.1, hp _ _ h.2.2⟩

/-- What holds of the frame that a run leaves holds when it succeeds. -/
theorem and {kept : Frame → Prop} (h : outcome.Answers reply post) (hk : kept outcome.frame) :
    outcome.Answers reply fun a frame => post a frame ∧ kept frame := by
  obtain ⟨_ | a, s⟩ := reply
  · exact h
  · exact ⟨h.1, h.2.1, h.2.2, hk⟩

theorem andThen {next : Frame → σ → Outcome σ} {rest : α → σ → Reply σ β}
    {post' : β → Frame → Prop} (h : outcome.Answers reply post)
    (hn : ∀ a frame s, post a frame → (next frame s).Answers (rest a s) post') :
    (outcome.andThen next).Answers (reply.andThen rest) post' := by
  obtain ⟨frame, s, error⟩ := outcome
  obtain ⟨e | a, t⟩ := reply
  · obtain ⟨rfl, rfl⟩ := h
    exact ⟨rfl, rfl⟩
  · obtain ⟨rfl, rfl, hp⟩ := h
    exact hn a frame s hp

/-- Code behind a run that is known to succeed. -/
theorem andThen_of_ok {a : α} {s : σ} {next : Frame → σ → Outcome σ} {reply : Reply σ β}
    {post' : β → Frame → Prop} (h : outcome.Answers (.ok a, s) post)
    (hn : ∀ frame, post a frame → (next frame s).Answers reply post') :
    (outcome.andThen next).Answers reply post' := by
  obtain ⟨frame, t, error⟩ := outcome
  obtain ⟨rfl, rfl, hp⟩ := h
  exact hn frame hp

/-- Code behind a run that leaves its result as it is. -/
theorem followed {next : Frame → σ → Outcome σ} {post' : α → Frame → Prop}
    (h : outcome.Answers reply post)
    (hn : ∀ a frame s, post a frame → (next frame s).Answers (.ok a, s) post') :
    (outcome.andThen next).Answers reply post' := by
  have hr : reply = reply.andThen fun a s => (.ok a, s) := by
    obtain ⟨_ | a, s⟩ := reply <;> rfl
  rw [hr]
  exact h.andThen hn

theorem map {g : α → β} {post' : β → Frame → Prop} (h : outcome.Answers reply post)
    (hg : ∀ a frame, post a frame → post' (g a) frame) :
    outcome.Answers (reply.andThen fun a s => (.ok (g a), s)) post' := by
  obtain ⟨_ | a, s⟩ := reply
  · exact h
  · exact ⟨h.1, h.2.1, hg _ _ h.2.2⟩

theorem result_eq {reply : Reply σ Value}
    (h : outcome.Answers reply fun v frame => frame.get .value = v) :
    (outcome.result, outcome.state) = reply := by
  obtain ⟨frame, s, error⟩ := outcome
  obtain ⟨e | v, t⟩ := reply
  · obtain ⟨rfl, rfl⟩ := h
    rfl
  · obtain ⟨rfl, rfl, rfl⟩ := h
    rfl

end Answers

end Outcome

namespace Stmt

variable {host : Host σ} {frame : Frame} {s : σ}

/-! ## Steps -/

theorem execAll_assign {expr : Expr} {value : Value} {t : σ}
    (h : expr.eval host frame s = (.ok value, t)) (target : Slot) (rest : List Stmt) :
    execAll host (.assign target expr :: rest) frame s =
      execAll host rest (frame.set target value) t := by
  simp only [execAll, exec, h]
  rfl

theorem execAll_copy (target source : Slot) (rest : List Stmt) :
    execAll host (.copy target source :: rest) frame s =
      execAll host rest (frame.set target (frame.get source)) s :=
  execAll_assign rfl target rest

theorem execAll_branch (test : Test) (yes no rest : List Stmt) :
    execAll host (.branch test yes no :: rest) frame s =
      (if test.holds frame then execAll host yes frame s else execAll host no frame s).andThen
        (execAll host rest) := by
  rw [execAll, exec]

theorem execAll_when (test : Test) (yes : List Stmt) :
    execAll host [.when test yes] frame s =
      if test.holds frame then execAll host yes frame s else ⟨frame, s, none⟩ := by
  rw [when, execAll_singleton, exec]
  rfl

theorem execAll_push {list : Slot} {items : List Value} (h : frame.get list = .array items)
    (item : Slot) (rest : List Stmt) :
    execAll host (.push list item :: rest) frame s =
      execAll host rest (frame.set list (.array (items ++ [frame.get item]))) s := by
  simp only [execAll, exec, Frame.push, h]
  rfl

theorem execAll_extend {list items : Slot} {old new : List Value}
    (h : frame.get list = .array old) (hn : frame.get items = .array new) (rest : List Stmt) :
    execAll host (.extend list items :: rest) frame s =
      execAll host rest (frame.set list (.array (old ++ new))) s := by
  simp only [execAll, exec, Frame.extend, h, hn]
  rfl

theorem execAll_insert {object : Slot} {entries : Entries Value}
    (h : frame.get object = .object entries) (key : String) (item : Slot) (rest : List Stmt) :
    execAll host (.insert object key item :: rest) frame s =
      execAll host rest
        (frame.set object (.object (Entries.insert key (frame.get item) entries))) s := by
  simp only [execAll, exec, Frame.insert, h]
  rfl

theorem execAll_forEach (item source : Slot) (body rest : List Stmt) :
    execAll host (.forEach item source body :: rest) frame s =
      (loop (execAll host body) item (frame.get source).elements frame s).andThen
        (execAll host rest) := by
  rw [execAll, exec]

/-- A loop answers the replies of its rounds, given an invariant of the results so far. -/
theorem loop_answers {β : Type} {body : Frame → σ → Outcome σ} {f : Value → σ → Reply σ β}
    {item : Slot} (inv : List β → Frame → Prop)
    (h : ∀ done frame s value, inv done frame → (body (frame.set item value) s).Answers (f value s)
      fun b after => inv (done ++ [b]) after)
    (values : List Value) (done : List β) (hi : inv done frame) :
    (loop body item values frame s).Answers (Reply.forEach f values s)
      fun bs after => inv (done ++ bs) after := by
  induction values generalizing done frame s with
  | nil =>
    rw [← List.append_nil done] at hi
    exact .ok hi
  | cons value values ih =>
    rw [loop, Reply.forEach]
    refine (h done frame s value hi).andThen fun b after t hb => ?_
    refine (ih _ hb).map fun bs after hbs => ?_
    rwa [List.append_assoc] at hbs

end Stmt

namespace Query

open Stmt

/-- What it means for the code of a query to be correct: from any frame with room for its
temporaries it gives the answer of the query on the running result, and it keeps the temporaries
below its own. -/
def Correct (host : Host σ) (query : Query) : Prop :=
  ∀ (n : Nat) (frame : Frame) (s : σ) (value : Value), 2 ≤ n → n + query.width ≤ frame.slots.size →
    frame.get .value = value →
    (execAll host (query.lower n) frame s).Answers (query.eval host value s)
      fun v after => after.get .value = v ∧ frame.Keeps n after

variable {host : Host σ}

/-- The temporaries below its own are no concern of a query's code. -/
theorem correct_of_value {query : Query}
    (h : ∀ (n : Nat) (frame : Frame) (s : σ) (value : Value), 2 ≤ n →
      n + query.width ≤ frame.slots.size → frame.get .value = value →
      (execAll host (query.lower n) frame s).Answers (query.eval host value s)
        fun v after => after.get .value = v) : query.Correct host := by
  intro n frame s value hn hw hv
  exact (h n frame s value hn hw hv).and (query.keeps_lower host n frame s)

theorem Correct.value {query : Query} (h : query.Correct host) {n : Nat} {frame : Frame} {s : σ}
    {value : Value} (hn : 2 ≤ n) (hw : n + query.width ≤ frame.slots.size)
    (hv : frame.get .value = value) :
    (execAll host (query.lower n) frame s).Answers (query.eval host value s)
      fun v after => after.get .value = v :=
  (h n frame s value hn hw hv).mono fun _ _ h => h.1

theorem execAll_setNull (rest : List Stmt) {frame : Frame} {s : σ} :
    execAll host (setNull :: rest) frame s = execAll host rest (frame.set .value .null) s :=
  execAll_assign rfl _ rest

theorem correct_literal (value : Value) : (literal value).Correct host := by
  refine correct_of_value fun n frame s input hn hw _ => ?_
  rw [lower, execAll_assign rfl, execAll, eval]
  exact .ok (by grind)

theorem correct_field (name : String) : (field name).Correct host := by
  refine correct_of_value fun n frame s value hn hw hv => ?_
  rw [lower, execAll_singleton, exec, Test.holds, hv, eval]
  cases value with
  | object entries =>
    show (execAll host [.assign .value (.field .value name)] frame s).Answers _ _
    rw [execAll_assign rfl, execAll]
    exact .ok (by grind)
  | _ =>
    show (execAll host [setNull] frame s).Answers _ _
    rw [execAll_setNull, execAll]
    exact .ok (by grind [Value.field])

theorem correct_index (i : Int) : (index i).Correct host := by
  refine correct_of_value fun n frame s value hn hw hv => ?_
  rw [lower, execAll_singleton, exec, Test.holds, hv, eval]
  cases value with
  | array items =>
    show (execAll host (lowerIndex ⟨n⟩ i) frame s).Answers _ _
    rw [lowerIndex]
    by_cases hi : i < 0
    · have hn' : n + 1 ≤ frame.slots.size := by simpa [width, temporaries, hi] using hw
      generalize hd : items.length + i = d
      have ho : (Expr.offset .value i).eval host frame s = (.ok (.integer d), s) := by
        rw [Expr.eval, hv, ← hd]
      rw [if_pos hi, execAll_assign ho, execAll_assign rfl, execAll]
      refine .ok ?_
      have hp : (frame.set ⟨n⟩ (.integer d)).get ⟨n⟩ = .integer d := by grind
      have ha : (frame.set ⟨n⟩ (.integer d)).get .value = .array items := by grind
      rw [Frame.get_set_self _ (by grind), Operand.eval, hp, ha, Value.element, Value.item]
      simp [hi, hd]
    · rw [if_neg hi, execAll_assign rfl, execAll]
      refine .ok ?_
      rw [Frame.get_set_self _ (by grind), Operand.eval, hv, Value.element, Value.item]
      simp [hi]
  | _ =>
    show (execAll host [setNull] frame s).Answers _ _
    rw [execAll_setNull, execAll]
    exact .ok (by grind [Value.item])

theorem correct_current : current.Correct host := by
  refine correct_of_value fun n frame s value hn hw hv => ?_
  rw [lower, execAll, eval]
  exact .ok hv

theorem correct_subexpression {left right : Query} (ihl : left.Correct host)
    (ihr : right.Correct host) : (subexpression left right).Correct host := by
  refine correct_of_value fun n frame s value hn hw hv => ?_
  rw [width_subexpression] at hw
  rw [lower, execAll_append, eval]
  refine (ihl n frame s value hn (by omega) hv).andThen ?_
  rintro v after s ⟨hv, hk⟩
  rw [execAll_when, Test.holds, Test.holds, hv]
  cases v with
  | null => exact .ok hv
  | _ => exact ihr.value (by omega) (by grind) hv

theorem correct_pipe {left right : Query} (ihl : left.Correct host) (ihr : right.Correct host) :
    (pipe left right).Correct host := by
  refine correct_of_value fun n frame s value hn hw hv => ?_
  rw [width_pipe] at hw
  rw [lower, execAll_append, eval]
  refine (ihl n frame s value hn (by omega) hv).andThen ?_
  rintro v after s ⟨hv, hk⟩
  rw [execAll_copy]
  have h1 : (after.set .current (after.get .value)).get .value = v := by grind
  exact ihr.value (by omega) (by grind) h1

/-- The answer of a disjunction or conjunction, in terms of what its test says of a value. -/
theorem ShortCircuit.eval_eq {query left right : Query} {test : Test}
    (h : ShortCircuit query left right test) :
    ∃ passes : Value → Bool, (∀ frame, test.holds frame = passes (frame.get .value)) ∧
      ∀ (host : Host σ) value s, query.eval host value s =
        Reply.andThen (left.eval host value s) fun v s =>
          if passes v then right.eval host value s else (.ok v, s) := by
  cases h with
  | or =>
    refine ⟨fun v => !v.truthy, fun _ => rfl, fun host value s => ?_⟩
    rw [eval]
    congr 1
    funext v s
    cases h : v.truthy <;> simp [h]
  | and =>
    refine ⟨Value.truthy, fun frame => ?_, fun host value s => by rw [eval]⟩
    simp only [Test.holds, Bool.not_not]

theorem correct_shortCircuit {query left right : Query} {test : Test}
    (h : ShortCircuit query left right test) (ihl : left.Correct host)
    (ihr : right.Correct host) : query.Correct host := by
  obtain ⟨passes, htest, heval⟩ := h.eval_eq
  refine correct_of_value fun n frame s value hn hw hv => ?_
  rw [h.width_eq] at hw
  rw [h.lower_eq, lowerShortCircuit, List.cons_append, execAll_copy, execAll_append, hv, heval]
  have h0 : (frame.set ⟨n⟩ value).get .value = value := by grind
  refine (ihl (n + 1) _ s value (by omega) (by grind) h0).andThen ?_
  rintro v after s ⟨hv, hk⟩
  rw [execAll_when, htest, hv]
  cases passes v with
  | false => exact .ok hv
  | true =>
    have hsaved : after.get ⟨n⟩ = value := (hk.get n hn (by omega)).trans (by grind)
    have h1 : (after.set .value value).get .value = value := by grind
    show (execAll host (.copy .value ⟨n⟩ :: right.lower _) after s).Answers _ _
    rw [execAll_copy, hsaved]
    exact ihr.value (by omega) (by grind) h1

theorem correct_not {query : Query} (ih : query.Correct host) : (not query).Correct host := by
  refine correct_of_value fun n frame s value hn hw hv => ?_
  rw [width_not] at hw
  rw [lower, execAll_append, eval]
  refine (ih n frame s value hn hw hv).andThen ?_
  rintro v after s ⟨hv, hk⟩
  rw [execAll_assign rfl, execAll, hv]
  exact .ok (by grind)

/-- One round of a flatten: the element is appended item by item, or as it is. -/
theorem splice_answers {m : Nat} {frame : Frame} {s : σ} {old : List Value} {value : Value}
    (hm : m + 1 < frame.slots.size) (hf : frame.get ⟨m⟩ = .array old)
    (he : frame.get ⟨m + 1⟩ = value) :
    (execAll host [lowerSplice ⟨m⟩ ⟨m + 1⟩] frame s).Answers (.ok value.opened, s)
      fun new after => after.get ⟨m⟩ = .array (old ++ new) ∧
        after.slots.size = frame.slots.size := by
  have hpush : (execAll host [.push ⟨m⟩ ⟨m + 1⟩] frame s).Answers (.ok [value], s)
      fun new after => after.get ⟨m⟩ = .array (old ++ new) ∧
        after.slots.size = frame.slots.size := by
    rw [execAll_push hf, execAll, he]
    exact .ok (by grind)
  rw [lowerSplice, execAll_singleton, exec, Test.holds, he]
  cases value with
  | array items =>
    cases items with
    | nil =>
      show (execAll host [.when (.not (.emptySequence ⟨m + 1⟩)) _] frame s).Answers _ _
      rw [execAll_when, Test.holds, Test.holds, he]
      exact .ok (by rw [Value.opened, List.append_nil]; exact ⟨hf, rfl⟩)
    | cons item items =>
      show (execAll host [.extend ⟨m⟩ ⟨m + 1⟩] frame s).Answers _ _
      rw [execAll_extend hf he, execAll, Value.opened]
      exact .ok (by grind)
  | _ =>
    show (execAll host [.when (.not (.emptySequence ⟨m + 1⟩)) _] frame s).Answers _ _
    rw [execAll_when, Test.holds, Test.holds, he]
    exact hpush

/-- The rounds of a flatten, from a frame that has an array to collect into. -/
theorem loop_splice_answers {m : Nat} {frame : Frame} {s : σ} (hm : m + 1 < frame.slots.size)
    (hf : frame.get ⟨m⟩ = .array []) (items : List Value) :
    (loop (execAll host [lowerSplice ⟨m⟩ ⟨m + 1⟩]) ⟨m + 1⟩ items frame s).Answers
      (.ok (items.map Value.opened), s)
      fun news after => after.get ⟨m⟩ = .array news.flatten ∧
        after.slots.size = frame.slots.size := by
  rw [← Reply.forEach_ok]
  refine loop_answers (fun done after => after.get ⟨m⟩ = .array done.flatten ∧
    after.slots.size = frame.slots.size) ?_ items [] ⟨hf, rfl⟩
  rintro done after t value ⟨hd, hs⟩
  have hlist : (after.set ⟨m + 1⟩ value).get ⟨m⟩ = .array done.flatten := by grind
  have helement : (after.set ⟨m + 1⟩ value).get ⟨m + 1⟩ = value := by grind
  refine (splice_answers (by grind) hlist helement).mono ?_
  rintro new last ⟨hn, hl⟩
  rw [List.flatten_concat, hn]
  exact ⟨rfl, by grind⟩

theorem flatten_answers {m : Nat} {frame : Frame} {s : σ} {v : Value} (h2 : 2 ≤ m)
    (hm : m + 1 < frame.slots.size) (hv : frame.get .value = v) :
    (execAll host [lowerFlatten ⟨m⟩ ⟨m + 1⟩] frame s).Answers (.ok v.flatten, s)
      fun v after => after.get .value = v := by
  rw [lowerFlatten, execAll_singleton, exec, Test.holds, Test.holds, hv]
  cases v with
  | array items =>
    show (execAll host [.assign ⟨m⟩ (.list []), .forEach ⟨m + 1⟩ .value [lowerSplice ⟨m⟩ ⟨m + 1⟩],
      .copy .value ⟨m⟩] frame s).Answers _ _
    rw [execAll_assign rfl, execAll_forEach, List.map_nil]
    have hitems : (frame.set ⟨m⟩ (.array [])).get .value = .array items := by grind
    have hlist : (frame.set ⟨m⟩ (.array [])).get ⟨m⟩ = .array [] := by grind
    rw [hitems]
    refine (loop_splice_answers (by grind) hlist items).andThen_of_ok ?_
    rintro after ⟨hn, hs⟩
    rw [execAll_copy, execAll, hn]
    exact .ok (Frame.get_set_self _ (by grind) _)
  | _ =>
    show (execAll host [setNull] frame s).Answers _ _
    rw [execAll_setNull, execAll]
    exact .ok (by grind [Value.flatten])

theorem correct_flatten {query : Query} (ih : query.Correct host) :
    (flatten query).Correct host := by
  refine correct_of_value fun n frame s value hn hw hv => ?_
  rw [width_flatten] at hw
  rw [lower, execAll_append, eval]
  refine (ih n frame s value hn (by omega) hv).andThen ?_
  rintro v after s ⟨hv, hk⟩
  exact flatten_answers (by omega) (by grind) hv

/-- The test of a projection. -/
theorem holds_guard (source : SourceKind) (frame : Frame) :
    (guard source).holds frame = ((frame.get .value).projected? source).isSome := by
  rw [guard.eq_def]
  cases source <;> cases h : frame.get .value <;>
    simp [Test.holds, h, Value.isSequence, Value.isMapping, Value.projected?]

theorem elements_of_projected {source : SourceKind} {v : Value} {items : List Value}
    (h : v.projected? source = some items) : v.elements = items := by
  cases source <;> cases v <;> simp_all [Value.projected?, Value.elements]

/-- One round of a projection: the answer is collected unless it is null. -/
theorem collect_answers {right : Query} (ih : right.Correct host) {m : Nat} {frame : Frame} {s : σ}
    {old : List Value} {element : Value} (h2 : 2 ≤ m) (hm : m + 3 + right.width ≤ frame.slots.size)
    (hc : frame.get ⟨m + 1⟩ = .array old) (he : frame.get ⟨m + 2⟩ = element) :
    (execAll host (.copy .value ⟨m + 2⟩ :: right.lower (m + 3) ++
      [.when (.not (.isNull .value)) [.push ⟨m + 1⟩ .value]]) frame s).Answers
      (right.eval host element s)
      fun v after => after.get ⟨m + 1⟩ = .array (old ++ [v].filter fun v => !v.isNull) ∧
        after.slots.size = frame.slots.size := by
  rw [List.cons_append, execAll_copy, execAll_append, he]
  have h0 : (frame.set .value element).get .value = element := by grind
  refine (ih (m + 3) _ s element (by omega) (by grind) h0).followed ?_
  rintro v after s ⟨hv, hk⟩
  rw [execAll_when, Test.holds, Test.holds, hv]
  have hc' : after.get ⟨m + 1⟩ = .array old :=
    (hk.get (m + 1) (by omega) (by omega)).trans (by grind)
  cases v with
  | null => exact .ok (by simp [Value.isNull]; grind)
  | _ =>
    show (execAll host [.push ⟨m + 1⟩ .value] after s).Answers _ _
    rw [execAll_push hc', execAll, hv]
    exact .ok (by simp [Value.isNull]; grind)

/-- The rounds of a projection, from a frame that has an array to collect into. -/
theorem loop_collect_answers {right : Query} (ih : right.Correct host) {m : Nat} {frame : Frame}
    {s : σ} (h2 : 2 ≤ m) (hm : m + 3 + right.width ≤ frame.slots.size)
    (hc : frame.get ⟨m + 1⟩ = .array []) (items : List Value) :
    (loop (execAll host (.copy .value ⟨m + 2⟩ :: right.lower (m + 3) ++
      [.when (.not (.isNull .value)) [.push ⟨m + 1⟩ .value]])) ⟨m + 2⟩ items frame s).Answers
      (Reply.forEach (right.eval host) items s)
      fun vs after => after.get ⟨m + 1⟩ = .array (vs.filter fun v => !v.isNull) ∧
        after.slots.size = frame.slots.size := by
  refine loop_answers
    (fun done after => after.get ⟨m + 1⟩ = .array (done.filter fun v => !v.isNull) ∧
      after.slots.size = frame.slots.size)
    ?_ items [] ⟨hc, rfl⟩
  rintro done after t value ⟨hd, hs⟩
  have hlist : (after.set ⟨m + 2⟩ value).get ⟨m + 1⟩ = .array (done.filter fun v => !v.isNull) := by
    grind
  have helement : (after.set ⟨m + 2⟩ value).get ⟨m + 2⟩ = value := by grind
  refine (collect_answers ih h2 (by grind) hlist helement).mono ?_
  rintro v last ⟨hn, hl⟩
  rw [List.filter_append, hn]
  exact ⟨rfl, by grind⟩

theorem correct_projection (source : SourceKind) {left right : Query} (ihl : left.Correct host)
    (ihr : right.Correct host) : (projection source left right).Correct host := by
  refine correct_of_value fun n frame s value hn hw hv => ?_
  rw [width_projection] at hw
  rw [lower, execAll_append, eval]
  refine (ihl n frame s value hn (by omega) hv).andThen ?_
  rintro v after s ⟨hv, hk⟩
  have hm : n + left.width + 3 + right.width ≤ after.slots.size := by grind
  have h2 : 2 ≤ n + left.width := by omega
  generalize n + left.width = m at hm h2
  rw [lowerProjection, execAll_singleton, exec, Test.holds, holds_guard, hv]
  cases hp : v.projected? source with
  | none =>
    show (execAll host [setNull] after s).Answers _ _
    rw [execAll_setNull, execAll]
    exact .ok (by grind)
  | some items =>
    show (execAll host (.copy ⟨m⟩ .value :: .assign ⟨m + 1⟩ (.list []) :: _) after s).Answers _ _
    rw [execAll_copy, execAll_assign rfl, execAll_forEach, List.map_nil, hv]
    have hbase : ((after.set ⟨m⟩ v).set ⟨m + 1⟩ (.array [])).get ⟨m⟩ = v := by grind
    have hlist : ((after.set ⟨m⟩ v).set ⟨m + 1⟩ (.array [])).get ⟨m + 1⟩ = .array [] := by grind
    rw [hbase, elements_of_projected hp]
    refine (loop_collect_answers ihr h2 (by grind) hlist items).andThen ?_
    rintro vs last t ⟨hl, hs⟩
    rw [execAll_copy, execAll, hl]
    exact .ok (by grind)

/-- The end of a comparison, from a frame that holds the two sides. -/
theorem comparison_answers (op : Comparator) {n : Nat} {frame : Frame} {s : σ} {value a b : Value}
    (hw : n + 5 ≤ frame.slots.size) (hs : frame.get ⟨n⟩ = value)
    (ha : frame.get ⟨n + 2⟩ = a) (hb : frame.get .value = b) :
    (execAll host (lowerComparison op ⟨n⟩ ⟨n + 1⟩ ⟨n + 2⟩ ⟨n + 3⟩ ⟨n + 4⟩) frame s).Answers
      (.ok (if op.compare a b then value else .null), s) fun v after => after.get .value = v := by
  rw [lowerComparison, execAll_copy, execAll_assign rfl, execAll_branch, Test.holds, hb]
  have hl : (frame.set ⟨n + 3⟩ b).get ⟨n + 2⟩ = a := by grind
  have hr : (frame.set ⟨n + 3⟩ b).get ⟨n + 3⟩ = b := by grind
  rw [hl, hr, Frame.get_set_self _ (by grind)]
  cases op.compare a b with
  | true =>
    show ((execAll host [.copy .value ⟨n⟩] _ s).andThen _).Answers _ _
    rw [execAll_copy, execAll]
    show (execAll host [.copy .current ⟨n + 1⟩] _ s).Answers _ _
    rw [execAll_copy, execAll]
    exact .ok (by grind)
  | false =>
    show ((execAll host [setNull] _ s).andThen _).Answers _ _
    rw [execAll_setNull, execAll]
    show (execAll host [.copy .current ⟨n + 1⟩] _ s).Answers _ _
    rw [execAll_copy, execAll]
    exact .ok (by grind)

theorem correct_comparator (op : Comparator) {left right : Query} (ihl : left.Correct host)
    (ihr : right.Correct host) : (comparator op left right).Correct host := by
  refine correct_of_value fun n frame s value hn hw hv => ?_
  rw [width_comparator] at hw
  simp only [lower, lowerSide, List.cons_append, List.append_assoc, List.nil_append, execAll_copy,
    execAll_append, eval, hv]
  have h0 : ((frame.set ⟨n⟩ value).set ⟨n + 1⟩ ((frame.set ⟨n⟩ value).get .current)).get .value =
      value := by grind
  refine (ihl (n + 5) _ s value (by omega) (by grind) h0).andThen ?_
  rintro a mid s ⟨ha, hk⟩
  have hsaved : mid.get ⟨n⟩ = value := (hk.get n hn (by omega)).trans (by grind)
  -- the right side starts from the saved value, with the left side's answer in slot `n + 2`
  generalize hstart : ((mid.set ⟨n + 2⟩ (mid.get .value)).set .value
    ((mid.set ⟨n + 2⟩ (mid.get .value)).get ⟨n⟩)) = start
  have h1 : (start.set .current (start.get ⟨n + 1⟩)).get .value = value := by grind
  refine (ihr (n + 5 + left.width) _ s value (by omega) (by grind) h1).andThen ?_
  rintro b last s ⟨hb, hl⟩
  have hs : last.get ⟨n⟩ = value := (hl.get n hn (by omega)).trans (by grind)
  have hleft : last.get ⟨n + 2⟩ = a := (hl.get (n + 2) (by omega) (by omega)).trans (by grind)
  exact comparison_answers op (by grind) hs hleft hb

/-- One of several queries answers on the value in slot `b`, and keeps what was collected in slot
`b + 2`. -/
theorem member_answers {query : Query} (h : query.Correct host) {b n : Nat} {frame : Frame} {s : σ}
    {value collected : Value} (hb : 2 ≤ b) (hn : b + 3 ≤ n)
    (hw : n + query.width ≤ frame.slots.size) (hv : frame.get ⟨b⟩ = value)
    (hc : frame.get ⟨b + 2⟩ = collected) :
    (execAll host (.copy .value ⟨b⟩ :: .copy .current ⟨b + 1⟩ :: query.lower n) frame s).Answers
      (query.eval host value s)
      fun v after => after.get .value = v ∧ after.get ⟨b⟩ = value ∧
        after.get ⟨b + 2⟩ = collected ∧ after.slots.size = frame.slots.size := by
  rw [execAll_copy, execAll_copy, hv]
  have h0 : ((frame.set .value value).set .current ((frame.set .value value).get ⟨b + 1⟩)).get
      .value = value := by grind
  refine (h n _ s value (by omega) (by grind) h0).mono ?_
  rintro v after ⟨hv', hk⟩
  exact ⟨hv', (hk.get b hb (by omega)).trans (by grind),
    (hk.get (b + 2) (by omega) (by omega)).trans (by grind), by grind⟩

/-- The code of several queries appends their answers on the value in slot `b` to the array in slot
`b + 2`. -/
theorem items_answers {items : List Query} (h : ∀ item ∈ items, item.Correct host) {b n : Nat}
    {frame : Frame} {s : σ} {value : Value} {old : List Value} (hb : 2 ≤ b) (hn : b + 3 ≤ n)
    (hw : n + widthAll items ≤ frame.slots.size) (hv : frame.get ⟨b⟩ = value)
    (hl : frame.get ⟨b + 2⟩ = .array old) :
    (execAll host (lowerItems ⟨b⟩ ⟨b + 1⟩ ⟨b + 2⟩ n items) frame s).Answers
      (evalAll host items value s)
      fun vs after => after.get ⟨b + 2⟩ = .array (old ++ vs) ∧
        after.slots.size = frame.slots.size := by
  induction items generalizing n frame s old with
  | nil =>
    rw [lowerItems, execAll, evalAll]
    exact .ok ⟨by rw [hl, List.append_nil], rfl⟩
  | cons item items ih =>
    obtain ⟨hitem, hrest⟩ := List.forall_mem_cons.1 h
    rw [widthAll_cons] at hw
    rw [lowerItems, execAll_append, evalAll]
    refine (member_answers hitem hb hn (by omega) hv hl).andThen ?_
    rintro v after s ⟨hv', hbase, hlist, hsize⟩
    rw [execAll_push hlist, hv']
    have hbase' : (after.set ⟨b + 2⟩ (.array (old ++ [v]))).get ⟨b⟩ = value := by grind
    have hlist' : (after.set ⟨b + 2⟩ (.array (old ++ [v]))).get ⟨b + 2⟩ = .array (old ++ [v]) := by
      grind
    refine (ih hrest (by omega) (by grind) hbase' hlist').map ?_
    rintro vs last ⟨hvs, hs⟩
    rw [hvs, List.append_assoc]
    exact ⟨rfl, by grind⟩

/-- The code of several keyed queries inserts their answers on the value in slot `b` into the
object in slot `b + 2`. -/
theorem entries_answers {entries : List (String × Query)}
    (h : ∀ entry ∈ entries, entry.2.Correct host) {b n : Nat} {frame : Frame} {s : σ}
    {value : Value} {old : Entries Value} (hb : 2 ≤ b) (hn : b + 3 ≤ n)
    (hw : n + widthEntries entries ≤ frame.slots.size) (hv : frame.get ⟨b⟩ = value)
    (ho : frame.get ⟨b + 2⟩ = .object old) :
    (execAll host (lowerEntries ⟨b⟩ ⟨b + 1⟩ ⟨b + 2⟩ n entries) frame s).Answers
      (evalEntries host entries value s)
      fun pairs after =>
        after.get ⟨b + 2⟩ =
          .object (pairs.foldl (fun entries pair => Entries.insert pair.1 pair.2 entries) old) ∧
        after.slots.size = frame.slots.size := by
  induction entries generalizing n frame s old with
  | nil =>
    rw [lowerEntries, execAll, evalEntries]
    exact .ok ⟨ho, rfl⟩
  | cons entry entries ih =>
    obtain ⟨key, query⟩ := entry
    obtain ⟨hquery, hrest⟩ := List.forall_mem_cons.1 h
    rw [widthEntries_cons] at hw
    rw [lowerEntries, execAll_append, evalEntries]
    refine (member_answers hquery hb hn (by dsimp only; omega) hv ho).andThen ?_
    rintro v after s ⟨hv', hbase, hobject, hsize⟩
    rw [execAll_insert hobject, hv']
    generalize hnew : Entries.insert key v old = new
    have hbase' : (after.set ⟨b + 2⟩ (.object new)).get ⟨b⟩ = value := by grind
    have hobject' : (after.set ⟨b + 2⟩ (.object new)).get ⟨b + 2⟩ = .object new := by grind
    refine (ih hrest (by omega) (by grind) hbase' hobject').map ?_
    rintro pairs last ⟨hp, hs⟩
    rw [hp, List.foldl_cons, hnew]
    exact ⟨rfl, by grind⟩

/-- The code that starts a multi-select or a call saves the registers in slots `b` and `b + 1` and
puts an empty container into slot `b + 2`. -/
theorem execAll_baseline {frame : Frame} {s : σ} (expr : Expr) (empty : Value)
    (he : ∀ frame, expr.eval host frame s = (.ok empty, s)) {b : Nat}
    (hs : b + 3 ≤ frame.slots.size) (rest : List Stmt) :
    ∃ start, execAll host
        (.copy ⟨b⟩ .value :: .copy ⟨b + 1⟩ .current :: .assign ⟨b + 2⟩ expr :: rest) frame s =
          execAll host rest start s ∧
      start.get ⟨b⟩ = frame.get .value ∧ start.get ⟨b + 2⟩ = empty ∧
      start.slots.size = frame.slots.size := by
  refine ⟨_, by rw [execAll_copy, execAll_copy, execAll_assign (he _)], ?_, ?_, ?_⟩
  · grind
  · grind
  · grind

theorem correct_list {items : List Query} (ih : ∀ item ∈ items, item.Correct host) :
    (list items).Correct host := by
  refine correct_of_value fun n frame s value hn hw hv => ?_
  rw [width_list] at hw
  rw [lower, execAll_when, Test.holds, Test.holds, hv, eval]
  cases hnull : value.isNull with
  | true =>
    cases value with
    | null => exact .ok hv
    | _ => cases hnull
  | false =>
    obtain ⟨start, hstart, hbase, hlist, hsize⟩ :=
      execAll_baseline (.list []) (.array []) (fun _ => rfl) (by omega : n + 3 ≤ frame.slots.size)
        (lowerItems ⟨n⟩ ⟨n + 1⟩ ⟨n + 2⟩ (n + 3) items ++
          [.copy .value ⟨n + 2⟩, .copy .current ⟨n + 1⟩])
    show (execAll host _ frame s).Answers _ _
    rw [List.cons_append, List.cons_append, List.cons_append, hstart, execAll_append]
    refine (items_answers ih hn (by omega) (by omega) (hbase.trans hv) hlist).andThen ?_
    rintro vs after t ⟨hvs, hs⟩
    rw [execAll_copy, execAll_copy, execAll, hvs]
    exact .ok (by grind)

theorem correct_hash {entries : List (String × Query)}
    (ih : ∀ entry ∈ entries, entry.2.Correct host) : (hash entries).Correct host := by
  refine correct_of_value fun n frame s value hn hw hv => ?_
  rw [width_hash] at hw
  rw [lower, execAll_when, Test.holds, Test.holds, hv, eval]
  cases hnull : value.isNull with
  | true =>
    cases value with
    | null => exact .ok hv
    | _ => cases hnull
  | false =>
    obtain ⟨start, hstart, hbase, hobject, hsize⟩ :=
      execAll_baseline .emptyObject (.object []) (fun _ => rfl)
        (by omega : n + 3 ≤ frame.slots.size)
        (lowerEntries ⟨n⟩ ⟨n + 1⟩ ⟨n + 2⟩ (n + 3) entries ++
          [.copy .value ⟨n + 2⟩, .copy .current ⟨n + 1⟩])
    show (execAll host _ frame s).Answers _ _
    rw [List.cons_append, List.cons_append, List.cons_append, hstart, execAll_append]
    refine (entries_answers ih hn (by omega) (by omega) (hbase.trans hv) hobject).andThen ?_
    rintro pairs after t ⟨hp, hs⟩
    rw [execAll_copy, execAll_copy, execAll, hp, Entries.ofPairs]
    exact .ok (by grind)

/-- A call that ends the code of a query gives the host's answer. -/
theorem call_answers (name : String) {args : Slot} {frame : Frame} {s : σ} {values : List Value}
    (hs : 0 < frame.slots.size) (ha : frame.get args = .array values) :
    (execAll host [.assign .value (.call name args)] frame s).Answers (host.invoke name values s)
      fun v after => after.get .value = v := by
  rw [execAll_singleton, exec, Expr.eval, ha, Value.opened]
  obtain ⟨_ | v, t⟩ := host.invoke name values s
  · exact ⟨rfl, rfl⟩
  · exact .ok (by grind)

theorem correct_call (name : String) {args : List Query} (ih : ∀ arg ∈ args, arg.Correct host) :
    (call name args).Correct host := by
  refine correct_of_value fun n frame s value hn hw hv => ?_
  rw [width_call] at hw
  obtain ⟨start, hstart, hbase, hlist, hsize⟩ :=
    execAll_baseline (.list []) (.array []) (fun _ => rfl) (by omega : n + 3 ≤ frame.slots.size)
      (lowerItems ⟨n⟩ ⟨n + 1⟩ ⟨n + 2⟩ (n + 3) args ++
        [.copy .current ⟨n + 1⟩, .assign .value (.call name ⟨n + 2⟩)])
  rw [lower, List.cons_append, List.cons_append, List.cons_append, hstart, execAll_append, eval]
  refine (items_answers ih hn (by omega) (by omega) (hbase.trans hv) hlist).andThen ?_
  rintro vs after t ⟨hvs, hs⟩
  rw [execAll_copy]
  exact call_answers name (by grind) (by grind)

theorem correct_slice (start stop step : Option Int) : (slice start stop step).Correct host := by
  refine correct_of_value fun n frame s value hn hw hv => ?_
  rw [width_slice] at hw
  rw [lower, lowerSlice, execAll_assign rfl, eval]
  refine call_answers "slice" (by grind) ?_
  rw [Frame.get_set_self _ (by grind)]
  simp [Operand.eval, bounds, hv]

theorem correct_reference (site : Nat) (node : Node) : (reference site node).Correct host := by
  refine correct_of_value fun n frame s value hn hw hv => ?_
  rw [lower, execAll_assign rfl, execAll, eval]
  exact .ok (by grind)

/-- The code of every query is correct, under every host. -/
theorem correct (host : Host σ) (query : Query) : query.Correct host := by
  induction query with
  | literal value => exact correct_literal value
  | field name => exact correct_field name
  | index i => exact correct_index i
  | current => exact correct_current
  | subexpression left right ihl ihr => exact correct_subexpression ihl ihr
  | pipe left right ihl ihr => exact correct_pipe ihl ihr
  | or left right ihl ihr => exact correct_shortCircuit (.or left right) ihl ihr
  | and left right ihl ihr => exact correct_shortCircuit (.and left right) ihl ihr
  | not query ih => exact correct_not ih
  | flatten query ih => exact correct_flatten ih
  | projection source left right ihl ihr => exact correct_projection source ihl ihr
  | comparator op left right ihl ihr => exact correct_comparator op ihl ihr
  | list items ih => exact correct_list ih
  | hash entries ih => exact correct_hash ih
  | call name args ih => exact correct_call name ih
  | slice start stop step => exact correct_slice start stop step
  | reference site node => exact correct_reference site node

end Query

end PathQuery
