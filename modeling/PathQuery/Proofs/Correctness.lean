import Mathlib
import PathQuery.Host.Tracing
import PathQuery.Proofs.Meaning
import PathQuery.Proofs.Simulation

/-!
# Compiled procedures answer as their syntax trees

A procedure and the tree it was compiled from give the same result, make the same calls and leave
the host in the same state, whatever the host does (`Procedure.call_eq_eval`). The result and the
calls depend on nothing but the value that the run starts with (`Procedure.run_eq_of_value_eq`).
-/

namespace PathQuery

variable {σ : Type}

/-- A host that behaves as `host` does and also writes down the calls of its functions, in
order. -/
def Host.recording (host : Host σ) : Host (σ × Trace) where
  evaluate node value := fun (s, trace) =>
    let (reply, s) := host.evaluate node value s
    (reply, s, trace)
  invoke name args := fun (s, trace) =>
    let (reply, s) := host.invoke name args s
    (reply, s, trace ++ [⟨name, args⟩])

/-- The calls that a block makes. -/
def Stmt.calls (host : Host σ) (block : List Stmt) (frame : Frame) (s : σ) : Trace :=
  (execAll host.recording block frame (s, [])).state.2

/-- The calls that a procedure makes. -/
def Procedure.calls (procedure : Procedure) (host : Host σ) (root : Value) (s : σ) : Trace :=
  (procedure.call host.recording root (s, [])).2.2

/-- The calls that the evaluation of a node makes. The expression references in it are numbered from
`site` on. -/
def Node.calls (node : Node) (host : Host σ) (site : Nat) (root : Value) (s : σ) : Trace :=
  (node.eval host.recording site root (s, [])).2.2

theorem Frame.get_start {size : Nat} (h : 0 < size) (root : Value) :
    (start size root).get .value = root := by
  simp [start, get, h]

namespace Query

theorem means_of_ofNode {host : Host σ} {first : Nat} {node : Node} {query : Query}
    (h : ofNode first node = .ok query) (input : Value) (s : σ) :
    query.eval host input s = node.eval host first input s := by
  obtain ⟨checked, hc, rfl⟩ := map_eq_ok h
  exact (means_of_check hc).eval first input s

end Query

namespace Procedure

/-- The body of a procedure runs as its query says, whatever the frame holds besides the value that
the run starts with. -/
theorem result_execAll_body (host : Host σ) (options : Options) (query : Query) {frame : Frame}
    (hf : frame.slots.size = (ofQuery options query).slots.length) (s : σ) :
    let outcome := Stmt.execAll host (ofQuery options query).body frame s
    (outcome.result, outcome.state) = query.eval host (frame.get .value) s := by
  rw [length_slots_ofQuery] at hf
  have hv : (frame.set .current (frame.get .value)).get .value = frame.get .value := by grind
  exact ((query.correct host).value (by omega) (by grind) hv).result_eq

theorem call_ofQuery (host : Host σ) (options : Options) (query : Query) (root : Value) (s : σ) :
    (ofQuery options query).call host root s = query.eval host root s := by
  have hs : 0 < (ofQuery options query).slots.length := by
    rw [length_slots_ofQuery]
    omega
  rw [call, run, ← Frame.get_start hs root]
  exact result_execAll_body host options query (Frame.size_start ..) s

variable {node : Node} {options : Options} {first : Nat} {procedure : Procedure}

/-- A tree that compiles passes the check. -/
theorem check_of_compile (h : compile node options first = .ok procedure) :
    ∃ checked, Query.check 0 node = .ok checked := by
  obtain ⟨query, hq, -⟩ := compile_eq_ok h
  obtain ⟨checked, hc, -⟩ := map_eq_ok hq
  exact ⟨checked, hc⟩

theorem call_of_compile (h : compile node options first = .ok procedure) (host : Host σ)
    (root : Value) (s : σ) : procedure.call host root s = node.eval host first root s := by
  obtain ⟨query, hq, rfl⟩ := compile_eq_ok h
  rw [call_ofQuery, Query.means_of_ofNode hq]

/-- A compiled procedure gives the result of its syntax tree, leaves the host in the same state, and
makes the same calls in the same order. -/
theorem call_eq_eval (h : compile node options first = .ok procedure) (host : Host σ) (root : Value)
    (s : σ) :
    procedure.call host root s = node.eval host first root s ∧
      procedure.calls host root s = node.calls host first root s := by
  obtain ⟨query, hq, rfl⟩ := compile_eq_ok h
  refine ⟨(call_ofQuery ..).trans (Query.means_of_ofNode hq root s), ?_⟩
  rw [calls, Node.calls, call_ofQuery, Query.means_of_ofNode hq]

/-- A projection that fails in its third round, after one call that succeeds. -/
theorem call_eq_eval_failing :
    let node : Node := .projection none (.field "rows")
      (.binary .or (.index (-1)) (.functionCall "keys" [.field "of"]))
    let root : Value := .object [("rows", .array
      [.object [("of", .object [("a", .null)])], .array [.integer 7], .integer 8, .null])]
    ∃ procedure, compile node {} = .ok procedure ∧
      (procedure.call Host.tracing root []).1 = .error (.invalidType "keys" 0 "object" "null") ∧
      procedure.calls Host.tracing root [] =
        [⟨"keys", [.object [("a", .null)]]⟩, ⟨"keys", [.null]⟩] := by
  intro node root
  have hc : ∃ procedure, compile node {} = .ok procedure := ⟨_, by cbv⟩
  obtain ⟨procedure, hc⟩ := hc
  obtain ⟨hcall, hcalls⟩ := call_eq_eval hc .tracing root []
  refine ⟨procedure, hc, ?_, ?_⟩
  · rw [hcall]; cbv
  · rw [hcalls]; cbv

/-- Two runs that start with the same value end alike and make the same calls, whatever their
frames hold in the other slots. -/
theorem run_eq_of_value_eq (h : compile node options first = .ok procedure) (host : Host σ)
    {f g : Frame} (hf : f.slots.size = procedure.slots.length)
    (hg : g.slots.size = procedure.slots.length) (hv : f.get .value = g.get .value) (s : σ) :
    (Stmt.execAll host procedure.body f s).result = (Stmt.execAll host procedure.body g s).result ∧
      (Stmt.execAll host procedure.body f s).state = (Stmt.execAll host procedure.body g s).state ∧
      Stmt.calls host procedure.body f s = Stmt.calls host procedure.body g s := by
  obtain ⟨query, -, rfl⟩ := compile_eq_ok h
  -- both runs are the query on the one value, under the host and under the one that records
  have hrun (τ : Type) (host : Host τ) (t : τ) :=
    (result_execAll_body host options query hf t).trans
      (hv ▸ (result_execAll_body host options query hg t).symm)
  exact ⟨congrArg Prod.fst (hrun σ host s), congrArg Prod.snd (hrun σ host s),
    congrArg (fun reply => reply.2.2) (hrun _ host.recording (s, []))⟩

/-- A frame that holds nothing but the value, and one whose other slots hold what some other run
may have left there. -/
theorem run_eq_of_stale_slots :
    let node : Node := .projection none .current
      (.binary .or (.index (-1)) (.functionCall "keys" [.current]))
    let query : Query := .projection .array .current (.or (.index (-1)) (.call "keys" [.current]))
    let rows : Value := .array [.array [.integer 7], .object [("a", .null)], .integer 8]
    let fresh : Frame := .start 10 rows
    let stale : Frame := ⟨#[rows, .boolean true, .string "x", .array [rows], rows, .integer 3,
      .null, rows, rows, .array [.null]]⟩
    compile node {} = .ok (ofQuery {} query) ∧
      (Stmt.execAll .tracing (ofQuery {} query).body fresh []).result =
        (Stmt.execAll .tracing (ofQuery {} query).body stale []).result ∧
      Stmt.calls .tracing (ofQuery {} query).body fresh [] =
        Stmt.calls .tracing (ofQuery {} query).body stale [] := by
  intro node query rows fresh stale
  have hc : compile node {} = .ok (ofQuery {} query) := by cbv
  have hn : 10 = (ofQuery {} query).slots.length := by cbv
  obtain ⟨hresult, -, hcalls⟩ := @run_eq_of_value_eq _ _ _ _ _ hc .tracing fresh stale hn hn rfl []
  exact ⟨hc, hresult, hcalls⟩

end Procedure

end PathQuery
