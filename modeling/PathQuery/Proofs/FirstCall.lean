import Mathlib
import PathQuery.Command.Basic
import PathQuery.Proofs.Correctness

/-!
# Running without a host

Where no host stands behind a query, its run fails at the first call that it comes to, and a run
that comes to no call succeeds:

* `Reply.Tracks`: an evaluation without a host, next to the same evaluation under some host. As long
  as there is no call the two go alike; the first call ends the one and leaves a mark on the state
  of the other;
* `Query.tracks`: so it is for every query, by induction on it;
* `Node.first_call`: which call is the first does not depend on what the functions do, so it can be
  read off the calls of the evaluation under any host;
* `Command.run_eq_iff`: all that running a command can come to, and when.
-/

namespace PathQuery

variable {σ : Type}

/-! ## The first call -/

/-- A call from the state `start` marks the state with its name, and later calls leave the mark. -/
structure Host.Marks (host : Host σ) (start : σ) (marked : String → σ → Prop) : Prop where
  first : ∀ name args, marked name (host.invoke name args start).2
  later : ∀ mark name args s, marked mark s → marked mark (host.invoke name args s).2

/-- What an evaluation without a host comes to (`bare`), next to the same evaluation under a host
(`run`). A result of the one is the result of the other, with the state as it was at the start. An
error of the one is the want of a function, and the state of the other is marked with its name. -/
structure Reply.Tracks {α : Type} (start : σ) (marked : String → σ → Prop) (bare : Reply Unit α)
    (run : σ → Reply σ α) : Prop where
  result : ∀ a, bare.1 = .ok a → run start = (.ok a, start)
  failure : ∀ e, bare.1 = .error e → ∃ name, e = .unknownFunction name ∧ marked name (run start).2
  keeps : ∀ name s, marked name s → marked name (run s).2

namespace Reply.Tracks

variable {α β : Type} {start : σ} {marked : String → σ → Prop} {bare : Reply Unit α}
  {run : σ → Reply σ α}

theorem ok (a : α) : Tracks start marked (.ok a, ()) fun s => (.ok a, s) where
  result := by
    rintro _ ⟨⟩
    rfl
  failure := by
    rintro _ ⟨⟩
  keeps _ _ h := h

theorem invoke {host : Host σ} (hm : host.Marks start marked) (name : String) (args : List Value) :
    Tracks start marked (Host.unbound.invoke name args ()) fun s => host.invoke name args s where
  result := by
    rintro _ ⟨⟩
  failure := by
    rintro _ ⟨⟩
    exact ⟨name, rfl, hm.first name args⟩
  keeps mark s h := hm.later mark name args s h

theorem marked_andThen {reply : Reply σ α} {next : α → σ → Reply σ β} {name : String}
    (h : marked name reply.2) (hn : ∀ a s, marked name s → marked name (next a s).2) :
    marked name (reply.andThen next).2 := by
  obtain ⟨e | a, s⟩ := reply
  · exact h
  · exact hn a s h

theorem andThen {next : α → Unit → Reply Unit β} {next' : α → σ → Reply σ β}
    (h : Tracks start marked bare run) (hn : ∀ a, Tracks start marked (next a ()) (next' a)) :
    Tracks start marked (bare.andThen next) fun s => (run s).andThen next' := by
  have hkeeps (name : String) (a : α) (s : σ) (hs : marked name s) : marked name (next' a s).2 :=
    (hn a).keeps name s hs
  obtain ⟨e | a, ⟨⟩⟩ := bare
  · -- under the host the second part may run all the same, but it leaves the mark
    obtain ⟨name, rfl, hm⟩ := h.failure e rfl
    refine ⟨?_, ?_, fun mark s hs => marked_andThen (h.keeps mark s hs) (hkeeps mark)⟩
    · rintro _ ⟨⟩
    · rintro _ ⟨⟩
      exact ⟨name, rfl, marked_andThen hm (hkeeps name)⟩
  · have hr := h.result a rfl
    refine ⟨fun b hb => ?_, fun e he => ?_,
      fun mark s hs => marked_andThen (h.keeps mark s hs) (hkeeps mark)⟩
    · rw [hr]
      exact (hn a).result b hb
    · rw [hr]
      exact (hn a).failure e he

theorem ite (c : Bool) {other : Reply Unit α} {run' : σ → Reply σ α}
    (hy : Tracks start marked bare run) (hn : Tracks start marked other run') :
    Tracks start marked (if c then bare else other) fun s => if c then run s else run' s := by
  cases c with
  | true => exact hy
  | false => exact hn

theorem forEach {f : α → Unit → Reply Unit β} {g : α → σ → Reply σ β}
    (h : ∀ a, Tracks start marked (f a ()) (g a)) (as : List α) :
    Tracks start marked (Reply.forEach f as ()) (Reply.forEach g as) := by
  induction as with
  | nil => exact .ok []
  | cons a as ih => exact (h a).andThen fun b => ih.andThen fun bs => .ok (b :: bs)

theorem project {f : Value → Unit → Reply Unit Value} {g : Value → σ → Reply σ Value}
    (h : ∀ v, Tracks start marked (f v ()) (g v)) (source : SourceKind) (value : Value) :
    Tracks start marked (Reply.project source f value ()) (Reply.project source g value) := by
  show Tracks start marked _ fun s => Reply.project source g value s
  unfold Reply.project
  cases value.projected? source with
  | none => exact .ok Value.null
  | some elements => exact (forEach h elements).andThen fun vs => .ok _

end Reply.Tracks

namespace Query

open Reply

variable {host : Host σ} {start : σ} {marked : String → σ → Prop}

theorem tracks_all {queries : List Query} (input : Value) (h : ∀ query ∈ queries, ∀ input,
      Tracks start marked (query.eval .unbound input ()) (query.eval host input)) :
    Tracks start marked (evalAll .unbound queries input ()) (evalAll host queries input) := by
  induction queries with
  | nil => exact .ok []
  | cons query queries ih =>
    obtain ⟨hq, hqs⟩ := List.forall_mem_cons.1 h
    exact (hq input).andThen fun v => (ih hqs).andThen fun vs => .ok (v :: vs)

theorem tracks_entries {entries : List (String × Query)} (input : Value)
    (h : ∀ entry ∈ entries, ∀ input,
      Tracks start marked (entry.2.eval .unbound input ()) (entry.2.eval host input)) :
    Tracks start marked (evalEntries .unbound entries input ())
      (evalEntries host entries input) := by
  induction entries with
  | nil => exact .ok []
  | cons entry entries ih =>
    obtain ⟨hq, hqs⟩ := List.forall_mem_cons.1 h
    exact (hq input).andThen fun v => (ih hqs).andThen fun pairs => .ok ((entry.1, v) :: pairs)

/-- What a query comes to without a host tells when it calls a function first. -/
theorem tracks (hm : host.Marks start marked) (query : Query) (input : Value) :
    Tracks start marked (query.eval .unbound input ()) (query.eval host input) := by
  induction query generalizing input with
  | literal value => exact .ok value
  | field name => exact .ok (input.field name)
  | index i => exact .ok (input.item i)
  | current => exact .ok input
  | reference site node => exact .ok _
  | subexpression left right ihl ihr =>
    exact (ihl input).andThen fun v => .ite v.isNull (.ok Value.null) (ihr v)
  | pipe left right ihl ihr => exact (ihl input).andThen ihr
  | or left right ihl ihr => exact (ihl input).andThen fun v => .ite v.truthy (.ok v) (ihr input)
  | and left right ihl ihr => exact (ihl input).andThen fun v => .ite v.truthy (ihr input) (.ok v)
  | not query ih => exact (ih input).andThen fun v => .ok _
  | flatten query ih => exact (ih input).andThen fun v => .ok _
  | projection source left right ihl ihr =>
    exact (ihl input).andThen fun v => .project ihr source v
  | comparator op left right ihl ihr =>
    exact (ihl input).andThen fun a => (ihr input).andThen fun b => .ok _
  | list items ih =>
    exact .ite input.isNull (.ok Value.null) ((tracks_all input ih).andThen fun vs => .ok _)
  | hash entries ih =>
    exact .ite input.isNull (.ok Value.null) ((tracks_entries input ih).andThen fun pairs => .ok _)
  | call name args ih => exact (tracks_all input ih).andThen fun vs => .invoke hm name vs
  | slice start' stop step => exact .invoke hm "slice" _

end Query

namespace Node

/-- The host writes its first call down before all others. -/
theorem marks_recording (host : Host σ) (s : σ) :
    host.recording.Marks (s, []) fun name state =>
      ∃ args rest, state.2 = ⟨name, args⟩ :: rest where
  first name args := ⟨args, [], rfl⟩
  later := by
    rintro mark name args ⟨s, _⟩ ⟨first, rest, rfl⟩
    exact ⟨first, rest ++ [⟨name, args⟩], rfl⟩

/-- Either a node gives a result without a host, and then it makes no call under any host and gives
that result there; or it fails for want of a function, and then this is the function that it calls
first under any host. -/
theorem first_call {node : Node} {site : Nat} {query : Query}
    (hq : Query.ofNode site node = .ok query) (host : Host σ)
    (root : Value) (s : σ) :
    (∃ v, (node.eval .unbound site root ()).1 = .ok v ∧ node.calls host site root s = [] ∧
      node.eval host site root s = (.ok v, s)) ∨
    ∃ call rest, (node.eval .unbound site root ()).1 = .error (.unknownFunction call.name) ∧
      node.calls host site root s = call :: rest := by
  have hplain : host.Marks s fun _ _ => True := ⟨fun _ _ => trivial, fun _ _ _ _ _ => trivial⟩
  have hresult := query.tracks hplain root
  have hcalls := query.tracks (marks_recording host s) root
  simp only [calls, ← Query.means_of_ofNode hq]
  cases hr : (query.eval .unbound root ()).1 with
  | ok v => exact .inl ⟨v, rfl, by rw [hcalls.result v hr], hresult.result v hr⟩
  | error e =>
    obtain ⟨name, rfl, args, rest, hfirst⟩ := hcalls.failure e hr
    exact .inr ⟨⟨name, args⟩, rest, rfl, hfirst⟩

end Node

/-! ## Commands -/

namespace Command

/-- `Yields host s text input result`: what running the tree in `text` on the value in `input` comes
to, said by the first of several conditions that holds. Whether a call is reached, and which one is
the first, is said by the calls that the evaluation of the tree makes under `host` from state `s`.
-/
inductive Yields (host : Host σ) (s : σ) (text : String) :
    Option String → Except CommandError Json → Prop
  | noInput : Yields host s text none (.error .noInput)
  | invalidJson {source : String} : Json.parse? source = none →
    Yields host s text (some source) (.error .invalidJson)
  | node {source : String} {json : Json} {e : NodeError} : Json.parse? source = some json →
    Node.parse text = .error e → Yields host s text (some source) (.error (.node e))
  | compile {source : String} {json : Json} {node : Node} {e : CompileError} :
    Json.parse? source = some json → Node.parse text = .ok node →
    Procedure.compile node {} = .error e → Yields host s text (some source) (.error (.compile e))
  /-- The evaluation reaches a call. -/
  | runtime {source : String} {json : Json} {node : Node} {procedure : Procedure} {call : Call}
      {rest : Trace} : Json.parse? source = some json → Node.parse text = .ok node →
    Procedure.compile node {} = .ok procedure →
    node.calls host 0 (Value.ofJson json) s = call :: rest →
    Yields host s text (some source) (.error (.runtime (.unknownFunction call.name)))
  /-- The evaluation reaches no call. -/
  | result {source : String} {json : Json} {node : Node} {procedure : Procedure} {value : Value} :
    Json.parse? source = some json → Node.parse text = .ok node →
    Procedure.compile node {} = .ok procedure → node.calls host 0 (Value.ofJson json) s = [] →
    node.eval host 0 (Value.ofJson json) s = (.ok value, s) →
    Yields host s text (some source) (.ok value.toJson)

variable {text source : String} {json : Json} {node : Node} {procedure : Procedure}

/-- Calls a procedure on a JSON value without a host. -/
def callOn (json : Json) (procedure : Procedure) : Except CommandError Json :=
  ((procedure.call Host.unbound (Value.ofJson json) ()).1.mapError .runtime).map Value.toJson

theorem run_of_no_json (hj : Json.parse? source = none) :
    run text (some source) = .error .invalidJson := by
  simp only [run, hj]

theorem run_of_input (hj : Json.parse? source = some json) :
    run text (some source) = (compile text {}).bind (callOn json) := by
  simp only [run, hj]
  cases compile text {} with
  | error e => rfl
  | ok procedure =>
    cases (procedure.call Host.unbound (Value.ofJson json) ()).1 with
    | error e => rfl
    | ok value => rfl

theorem run_of_parse_error {e : NodeError} (hj : Json.parse? source = some json)
    (hn : Node.parse text = .error e) : run text (some source) = .error (.node e) := by
  rw [run_of_input hj, compile, hn]
  rfl

theorem run_of_parse (hj : Json.parse? source = some json) (hn : Node.parse text = .ok node) :
    run text (some source) =
      ((Procedure.compile node {}).mapError .compile).bind (callOn json) := by
  rw [run_of_input hj, compile, hn]
  rfl

theorem run_of_compile_error {e : CompileError} (hj : Json.parse? source = some json)
    (hn : Node.parse text = .ok node) (hc : Procedure.compile node {} = .error e) :
    run text (some source) = .error (.compile e) := by
  rw [run_of_parse hj hn, hc]
  rfl

/-- Where both texts can be read and the tree compiles, it depends on the calls of the tree whether
there is a result. -/
theorem run_of_compile (host : Host σ) (s : σ) (hj : Json.parse? source = some json)
    (hn : Node.parse text = .ok node) (hc : Procedure.compile node {} = .ok procedure) :
    (∃ value, node.calls host 0 (Value.ofJson json) s = [] ∧
      node.eval host 0 (Value.ofJson json) s = (.ok value, s) ∧
      run text (some source) = .ok value.toJson) ∨
    ∃ call rest, node.calls host 0 (Value.ofJson json) s = call :: rest ∧
      run text (some source) = .error (.runtime (.unknownFunction call.name)) := by
  have hrun : run text (some source) =
      ((node.eval Host.unbound 0 (Value.ofJson json) ()).1.mapError .runtime).map Value.toJson := by
    rw [run_of_parse hj hn, hc, ← Procedure.call_of_compile hc]
    rfl
  obtain ⟨query, hq, -⟩ := Procedure.compile_eq_ok hc
  rcases Node.first_call hq host (Value.ofJson json) s with
    ⟨value, hr, hcalls, he⟩ | ⟨call, rest, hr, hcalls⟩
  · exact .inl ⟨value, hcalls, he, by rw [hrun, hr]; rfl⟩
  · exact .inr ⟨call, rest, hcalls, by rw [hrun, hr]; rfl⟩

/-- What running a command gives is among what the command yields. -/
theorem yields_run (host : Host σ) (s : σ) (text : String) (input : Option String) :
    Yields host s text input (run text input) := by
  cases input with
  | none => exact .noInput
  | some source =>
    cases hj : Json.parse? source with
    | none =>
      rw [run_of_no_json hj]
      exact .invalidJson hj
    | some json =>
      cases hn : Node.parse text with
      | error e =>
        rw [run_of_parse_error hj hn]
        exact .node hj hn
      | ok node =>
        cases hc : Procedure.compile node {} with
        | error e =>
          rw [run_of_compile_error hj hn hc]
          exact .compile hj hn hc
        | ok procedure =>
          rcases run_of_compile host s hj hn hc with
            ⟨value, hcalls, he, hr⟩ | ⟨call, rest, hcalls, hr⟩
          · rw [hr]
            exact .result hj hn hc hcalls he
          · rw [hr]
            exact .runtime hj hn hc hcalls

/-- A command yields nothing else. -/
theorem Yields.run_eq {host : Host σ} {s : σ} {input : Option String}
    {result : Except CommandError Json} (h : Yields host s text input result) :
    run text input = result := by
  cases h with
  | noInput => rfl
  | invalidJson hj => exact run_of_no_json hj
  | node hj hn => exact run_of_parse_error hj hn
  | compile hj hn hc => exact run_of_compile_error hj hn hc
  | runtime hj hn hc hcalls =>
    rcases run_of_compile host s hj hn hc with ⟨value, hnone, -, -⟩ | ⟨call, rest, hfirst, hr⟩
    · rw [hcalls] at hnone
      cases hnone
    · rw [hcalls] at hfirst
      cases hfirst
      exact hr
  | result hj hn hc hcalls he =>
    rcases run_of_compile host s hj hn hc with ⟨value, -, hvalue, hr⟩ | ⟨call, rest, hfirst, -⟩
    · rw [he] at hvalue
      cases hvalue
      exact hr
    · rw [hcalls] at hfirst
      cases hfirst

/-- Running a command gives the first that applies of these: an error for want of an input, for an
input that is no JSON, for a text that is no tree, for a tree that does not compile; an error for
want of a function, exactly if the evaluation of the tree on the input reaches a call, the function
being that of the first call reached; else the result of the evaluation, and there always is one
then. The calls and the result are those of the evaluation under any host. -/
theorem run_eq_iff (text : String) (input : Option String) (host : Host σ) (s : σ) :
    (∀ result, run text input = result ↔ Yields host s text input result) ∧
    ∀ source json node procedure, input = some source → Json.parse? source = some json →
      Node.parse text = .ok node → Procedure.compile node {} = .ok procedure →
      node.calls host 0 (Value.ofJson json) s = [] → ∃ output, run text input = .ok output := by
  constructor
  · refine fun result => ⟨?_, Yields.run_eq⟩
    rintro rfl
    exact yields_run host s text input
  · rintro source json node procedure rfl hj hn hc hcalls
    rcases run_of_compile host s hj hn hc with ⟨value, -, -, hr⟩ | ⟨call, rest, hfirst, -⟩
    · exact ⟨value.toJson, hr⟩
    · rw [hcalls] at hfirst
      cases hfirst

/-- A call behind a disjunction: whether it is reached is up to the input. -/
theorem run_eq_iff_or_call :
    ∃ text, Node.parse text = .ok (.binary .or .current (.functionCall "f" [])) ∧
      run text (some "[1]") = .ok (.array [.integer 1]) ∧
      (∃ output, run text (some "[1]") = .ok output) ∧
      run text (some "[]") = .error (.runtime (.unknownFunction "f")) := by
  have hn : Node.parse ("\x7b\"type\":\"or\",\"children\":[\x7b\"type\":\"current\"\x7d," ++
      "\x7b\"type\":\"function_call\",\"value\":\"f\"\x7d]\x7d") =
      .ok (.binary .or .current (.functionCall "f" [])) := by cbv
  obtain ⟨procedure, hc⟩ : ∃ procedure,
      Procedure.compile (.binary .or .current (.functionCall "f" [])) {} = .ok procedure :=
    ⟨_, by cbv⟩
  have hone : Json.parse? "[1]" = some (.array [.integer 1]) := by cbv
  have hnone : Json.parse? "[]" = some (.array []) := by cbv
  have heval : (Node.binary .or .current (.functionCall "f" [])).eval .tracing 0
      (Value.ofJson (.array [.integer 1])) [] = (.ok (.array [.integer 1]), []) := by cbv
  have hfirst : (Node.binary .or .current (.functionCall "f" [])).calls .tracing 0
      (Value.ofJson (.array [])) [] = [⟨"f", []⟩] := by cbv
  refine ⟨_, hn, ?_⟩
  obtain ⟨hresult, hsome⟩ := run_eq_iff _ (some "[1]") Host.tracing []
  obtain ⟨herror, -⟩ := run_eq_iff _ (some "[]") Host.tracing []
  exact ⟨(hresult _).2 (.result hone hn hc (by cbv) heval),
    hsome _ _ _ _ rfl hone hn hc (by cbv), (herror _).2 (.runtime hnone hn hc hfirst)⟩

end Command

end PathQuery
