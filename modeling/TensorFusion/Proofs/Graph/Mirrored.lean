import TensorFusion.Proofs.Graph.Build

/-!
# Proofs — Graph — Mirrored

Arenas that are made call by call. An edge is stored in two halves, first with its producer and then
with its consumer, and a call is refused where one of the two is not there. Without a producer
nothing is stored, but without a consumer the first half of the edge stays. So the halves mirror each
other up to the edges that are left dangling, and which these are is told by the calls alone. The
calls by which a graph is built leave none.
-/

namespace TensorFusion

namespace Arena

/-- What can be asked of an arena. -/
inductive Call where
  | add (op : Op)
  | connect (producer consumer : Nat)

/-- Carries out a call. -/
def run (a : Arena) : Call → Except (Interrupted Arena) Arena
  | .add op => .ok (a.add op)
  | .connect producer consumer => a.connect producer consumer

/-- Carries out calls one after the other, up to the first that is refused. -/
def runAll (a : Arena) (calls : List Call) : Except (Interrupted Arena) Arena := calls.foldlM run a

/-- The arena as a call leaves it. One that is refused leaves it as it was when the call stopped. -/
def after (a : Arena) (call : Call) : Arena :=
  match a.run call with
  | .ok changed => changed
  | .error stopped => stopped.state

/-- The arena as calls leave it, where those behind a refused call are carried out as well. -/
def afterAll (a : Arena) (calls : List Call) : Arena := calls.foldl after a

/-- The arena that calls make of the empty one. -/
def ofCalls (calls : List Call) : Arena := afterAll {} calls

namespace Call

/-- The size of an arena after a call. -/
def sizeAfter (size : Nat) : Call → Nat
  | .add _ => size + 1
  | .connect _ _ => size

/-- The edge that a call leaves with its first half only: its producer is there, and its consumer is
not. -/
def dangling (size : Nat) : Call → List (Nat × Nat)
  | .add _ => []
  | .connect producer consumer =>
      if producer < size ∧ size ≤ consumer then [(producer, consumer)] else []

end Call

/-- The edges that calls leave dangling, in an arena of some size to begin with. -/
def danglingFrom (size : Nat) : List Call → List (Nat × Nat)
  | [] => []
  | call :: calls => call.dangling size ++ danglingFrom (call.sizeAfter size) calls

/-- The edges that calls leave dangling in the empty arena. -/
def danglingEdges (calls : List Call) : List (Nat × Nat) := danglingFrom 0 calls

/-- Every edge is there with both of its halves and both of its ends, and the calls that were refused
have changed nothing. -/
structure KeepsEdges (calls : List Call) : Prop where
  mirrored : ∀ i < (ofCalls calls).size, ∀ j < (ofCalls calls).size,
    ((ofCalls calls).outputs i).count j = ((ofCalls calls).inputs j).count i
  outputs_lt : ∀ i, ∀ j ∈ (ofCalls calls).outputs i, j < (ofCalls calls).size
  inputs_lt : ∀ j, ∀ i ∈ (ofCalls calls).inputs j, i < (ofCalls calls).size
  unchanged : ∀ done producer consumer rest stopped,
    calls = done ++ .connect producer consumer :: rest →
    (ofCalls done).connect producer consumer = .error stopped → stopped.state = ofCalls done

/-- What becomes of edges whichever calls are made. -/
structure TracksEdges (calls : List Call) : Prop where
  /-- An edge is refused where one of its ends is not there, and nowhere else. -/
  refused : ∀ done producer consumer rest, calls = done ++ .connect producer consumer :: rest →
    ((∃ stopped, (ofCalls done).connect producer consumer = .error stopped) ↔
      (ofCalls done).size ≤ producer ∨ (ofCalls done).size ≤ consumer)
  /-- Only a call without a producer leaves the arena as it was. -/
  stopped : ∀ done producer consumer rest stopped,
    calls = done ++ .connect producer consumer :: rest →
    (ofCalls done).connect producer consumer = .error stopped →
    stopped.error = .outOfRange ∧
      (stopped.state = ofCalls done ↔ (ofCalls done).size ≤ producer)
  /-- The first half of an edge is stored as often as the second, and once more each time that it is
  left dangling. -/
  mirrored : ∀ i j, ((ofCalls calls).outputs i).count j
    = ((ofCalls calls).inputs j).count i + (danglingEdges calls).count (i, j)
  inputs_lt : ∀ j, ∀ i ∈ (ofCalls calls).inputs j, i < (ofCalls calls).size

variable {a : Arena} {producer consumer : Nat}

/-! ## One call -/

/-- There are three things that can become of an edge that is asked for. -/
theorem connect_cases (a : Arena) (producer consumer : Nat) :
    (producer < a.size ∧ consumer < a.size ∧
      a.connect producer consumer = .ok (a.link producer consumer)) ∨
    (producer < a.size ∧ a.size ≤ consumer ∧
      a.connect producer consumer = .error ⟨.outOfRange, a.addOutput producer consumer⟩) ∨
    (a.size ≤ producer ∧ a.connect producer consumer = .error ⟨.outOfRange, a⟩) := by
  unfold connect
  rcases Nat.lt_or_ge producer a.size with hp | hp
  · rcases Nat.lt_or_ge consumer a.size with hc | hc
    · exact .inl ⟨hp, hc, by rw [if_pos hp, if_pos hc]⟩
    · exact .inr (.inl ⟨hp, hc, by rw [if_pos hp, if_neg (Nat.not_lt.mpr hc)]⟩)
  · exact .inr (.inr ⟨hp, by rw [if_neg (Nat.not_lt.mpr hp)]⟩)

/-- A half edge makes a difference. -/
theorem addOutput_ne (hp : producer < a.size) : a.addOutput producer consumer ≠ a := by
  intro h
  have houtputs : (a.addOutput producer consumer).outputs producer
      = a.outputs producer ++ [consumer] := outputs_mapOutputs_self (g := (· ++ [consumer])) hp
  rw [h] at houtputs
  simp at houtputs

theorem exists_connect_error_iff :
    (∃ stopped, a.connect producer consumer = .error stopped) ↔
      a.size ≤ producer ∨ a.size ≤ consumer := by
  obtain ⟨hp, hc, h⟩ | ⟨-, hc, h⟩ | ⟨hp, h⟩ := connect_cases a producer consumer
  · rw [h]
    constructor
    · intro hstopped
      obtain ⟨stopped, hstopped⟩ := hstopped
      cases hstopped
    · omega
  · exact ⟨fun _ => .inr hc, fun _ => ⟨_, h⟩⟩
  · exact ⟨fun _ => .inl hp, fun _ => ⟨_, h⟩⟩

/-- What a refused call leaves tells its two reasons apart. -/
theorem state_eq_iff_of_connect {stopped : Interrupted Arena}
    (h : a.connect producer consumer = .error stopped) :
    stopped.error = .outOfRange ∧ (stopped.state = a ↔ a.size ≤ producer) := by
  obtain ⟨-, -, heq⟩ | ⟨hp, -, heq⟩ | ⟨hp, heq⟩ := connect_cases a producer consumer <;>
    rw [heq] at h <;> cases h
  · exact ⟨rfl, fun hsame => absurd hsame (addOutput_ne hp), fun hle => by omega⟩
  · exact ⟨rfl, fun _ => hp, fun _ => rfl⟩

theorem size_after (call : Call) : (a.after call).size = call.sizeAfter a.size := by
  cases call with
  | add op => exact size_add a op
  | connect producer consumer =>
    obtain ⟨-, -, h⟩ | ⟨-, -, h⟩ | ⟨-, h⟩ := connect_cases a producer consumer <;>
      simp only [after, run, h, Call.sizeAfter]
    · exact size_link ..
    · exact size_update ..

/-! ## The halves of an edge -/

/-- The halves of edges mirror each other, but for edges that are dangling. -/
structure MirroredUpTo (a : Arena) (dangling : List (Nat × Nat)) : Prop where
  count : ∀ i j, (a.outputs i).count j = (a.inputs j).count i + dangling.count (i, j)
  inputs_lt : ∀ j, ∀ i ∈ a.inputs j, i < a.size

namespace MirroredUpTo

variable {edges : List (Nat × Nat)}

theorem empty : MirroredUpTo {} [] where
  count := fun _ _ => rfl
  inputs_lt := fun _ _ h => nomatch h

theorem add (h : a.MirroredUpTo edges) (op : Op) : (a.add op).MirroredUpTo edges where
  count := fun i j => by
    rw [outputs_add, inputs_add]
    exact h.count i j
  inputs_lt := fun j i hi => by
    rw [inputs_add] at hi
    rw [size_add]
    exact Nat.lt_succ_of_lt (h.inputs_lt j i hi)

/-- The first half of an edge leaves it dangling. -/
theorem addOutput (h : a.MirroredUpTo edges) (hp : producer < a.size) (consumer : Nat) :
    (a.addOutput producer consumer).MirroredUpTo (edges ++ [(producer, consumer)]) := by
  have heq : a.addOutput producer consumer = a.mapOutputs producer (· ++ [consumer]) := rfl
  rw [heq]
  refine ⟨fun i j => ?_, fun j i hi => ?_⟩
  · have hcount := h.count i j
    rw [inputs_mapOutputs, List.count_append, List.count_singleton]
    by_cases hi : i = producer
    · subst hi
      rw [outputs_mapOutputs_self hp, List.count_append, List.count_singleton]
      simp only [beq_iff_eq, Prod.mk.injEq, true_and]
      omega
    · rw [outputs_mapOutputs_ne hi]
      simp [hcount, Ne.symm hi]
  · rw [inputs_mapOutputs] at hi
    rw [size_mapOutputs]
    exact h.inputs_lt j i hi

/-- The second half makes up for a first half that is dangling. -/
theorem addInput (h : a.MirroredUpTo (edges ++ [(producer, consumer)]))
    (hc : consumer < a.size) : (a.addInput producer consumer).MirroredUpTo edges := by
  have heq : a.addInput producer consumer = a.mapInputs consumer (· ++ [producer]) := rfl
  have hp : producer < a.size := by
    have hcount := h.count producer consumer
    rw [List.count_append, List.count_singleton_self] at hcount
    have hmem : consumer ∈ a.outputs producer := List.count_pos_iff.mp (by omega)
    exact lt_size_of_mem_outputs hmem
  rw [heq]
  refine ⟨fun i j => ?_, fun j i hi => ?_⟩
  · have hcount := h.count i j
    rw [List.count_append, List.count_singleton] at hcount
    rw [outputs_mapInputs]
    by_cases hj : j = consumer
    · subst hj
      rw [inputs_mapInputs_self hc, List.count_append, List.count_singleton]
      simp only [beq_iff_eq, Prod.mk.injEq, and_true] at hcount ⊢
      omega
    · rw [inputs_mapInputs_ne hj]
      simpa [Ne.symm hj] using hcount
  · rw [size_mapInputs]
    by_cases hj : j = consumer
    · subst hj
      rw [inputs_mapInputs_self hc, List.mem_append, List.mem_singleton] at hi
      rcases hi with hi | rfl
      · exact h.inputs_lt j i hi
      · exact hp
    · rw [inputs_mapInputs_ne hj] at hi
      exact h.inputs_lt j i hi

/-- A call leaves dangling what was, and the edge that it cannot end. -/
theorem after (h : a.MirroredUpTo edges) (call : Call) :
    (a.after call).MirroredUpTo (edges ++ call.dangling a.size) := by
  cases call with
  | add op =>
    rw [Call.dangling, List.append_nil]
    exact h.add op
  | connect producer consumer =>
    obtain ⟨hp, hc, heq⟩ | ⟨hp, hc, heq⟩ | ⟨hp, heq⟩ := connect_cases a producer consumer <;>
      simp only [Arena.after, run, heq, Call.dangling]
    · rw [if_neg (by omega), List.append_nil]
      exact (h.addOutput hp consumer).addInput (by rw [Arena.addOutput, size_update]; exact hc)
    · rw [if_pos ⟨hp, hc⟩]
      exact h.addOutput hp consumer
    · rw [if_neg (by omega), List.append_nil]
      exact h

theorem afterAll (h : a.MirroredUpTo edges) (calls : List Call) :
    (a.afterAll calls).MirroredUpTo (edges ++ danglingFrom a.size calls) := by
  induction calls generalizing a edges with
  | nil =>
    rw [danglingFrom, List.append_nil]
    exact h
  | cons call calls ih =>
    rw [danglingFrom, ← List.append_assoc, ← size_after]
    exact ih (h.after call)

theorem ofCalls (calls : List Call) : (ofCalls calls).MirroredUpTo (danglingEdges calls) :=
  empty.afterAll calls

/-- Where all halves mirror each other and all ends are there, no edge is dangling. -/
theorem eq_nil (h : a.MirroredUpTo edges)
    (hmirrored : ∀ i < a.size, ∀ j < a.size, (a.outputs i).count j = (a.inputs j).count i)
    (hrange : ∀ i, ∀ j ∈ a.outputs i, j < a.size) : edges = [] := by
  rw [List.eq_nil_iff_forall_not_mem]
  intro e he
  obtain ⟨i, j⟩ := e
  have hcount := h.count i j
  have hpos := List.count_pos_iff.mpr he
  have hj : j ∈ a.outputs i := List.count_pos_iff.mp (by omega)
  have hsame := hmirrored i (lt_size_of_mem_outputs hj) j (hrange i j hj)
  omega

end MirroredUpTo

/-! ## Any calls -/

theorem danglingFrom_append (a : Arena) (done calls : List Call) :
    danglingFrom a.size (done ++ calls)
      = danglingFrom a.size done ++ danglingFrom (a.afterAll done).size calls := by
  induction done generalizing a with
  | nil => rfl
  | cons call done ih =>
    rw [List.cons_append, danglingFrom, danglingFrom, ← size_after, ih, List.append_assoc]
    rfl

theorem danglingEdges_append (done calls : List Call) : danglingEdges (done ++ calls)
    = danglingEdges done ++ danglingFrom (ofCalls done).size calls :=
  danglingFrom_append {} done calls

/-- Where nothing is left dangling, a call is refused for want of its producer. -/
theorem size_le_producer_of_danglingEdges {done rest : List Call}
    (h : danglingEdges (done ++ .connect producer consumer :: rest) = [])
    (hrefused : (ofCalls done).size ≤ producer ∨ (ofCalls done).size ≤ consumer) :
    (ofCalls done).size ≤ producer := by
  rw [danglingEdges_append, danglingFrom, List.append_eq_nil_iff, List.append_eq_nil_iff] at h
  obtain ⟨-, hnone, -⟩ := h
  rcases hrefused with hp | hc
  · exact hp
  · refine Nat.le_of_not_lt fun hp => ?_
    simp [Call.dangling, hp, hc] at hnone

theorem tracksEdges (calls : List Call) : TracksEdges calls where
  refused := fun _ _ _ _ _ => exists_connect_error_iff
  stopped := fun _ _ _ _ _ _ h => state_eq_iff_of_connect h
  mirrored := (MirroredUpTo.ofCalls calls).count
  inputs_lt := (MirroredUpTo.ofCalls calls).inputs_lt

/-- Whichever calls are made, the halves of edges mirror each other up to those left dangling. So
edges are kept as they should be just where no call finds its producer and misses its consumer. -/
theorem keepsEdges_iff (calls : List Call) :
    TracksEdges calls ∧ (KeepsEdges calls ↔ danglingEdges calls = []) := by
  have htracks := tracksEdges calls
  refine ⟨htracks, fun h => (MirroredUpTo.ofCalls calls).eq_nil h.mirrored h.outputs_lt, ?_⟩
  intro hnone
  have hmirrored : ∀ i j, ((ofCalls calls).outputs i).count j
      = ((ofCalls calls).inputs j).count i := by
    intro i j
    rw [htracks.mirrored, hnone, List.count_nil, Nat.add_zero]
  refine ⟨fun i _ j _ => hmirrored i j, fun i j hj => ?_, htracks.inputs_lt,
    fun done producer consumer rest stopped hcalls hstopped => ?_⟩
  · rw [← List.count_pos_iff, hmirrored, List.count_pos_iff] at hj
    exact lt_size_of_mem_inputs hj
  · subst hcalls
    have hrefused := exists_connect_error_iff.mp ⟨stopped, hstopped⟩
    exact (state_eq_iff_of_connect hstopped).2.mpr
      (size_le_producer_of_danglingEdges hnone hrefused)

/-- An edge is asked for before its consumer is there, which is then added. -/
def earlyEdge : List Call := [.add { opType := "relu" }, .connect 0 1, .add { opType := "relu" }]

/-- The consumer does not know of the edge that its producer has to it. -/
theorem not_keepsEdges_earlyEdge : (ofCalls earlyEdge).outputs 0 = [1] ∧
    (ofCalls earlyEdge).inputs 1 = [] ∧ ¬ KeepsEdges earlyEdge := by
  refine ⟨rfl, rfl, fun h => ?_⟩
  have hcount := h.mirrored 0 (by decide) 1 (by decide)
  revert hcount
  decide

/-! ## Graphs that are built -/

/-- Calls of which none is refused leave nothing dangling. -/
theorem danglingFrom_eq_nil_of_runAll {calls : List Call} {changed : Arena}
    (h : a.runAll calls = .ok changed) : danglingFrom a.size calls = [] := by
  induction calls generalizing a with
  | nil => rfl
  | cons call calls ih =>
    rw [runAll, List.foldlM_cons, bind_eq_ok] at h
    obtain ⟨first, hfirst, hrest⟩ := h
    have hafter : a.after call = first := by simp only [after, hfirst]
    have hnone : call.dangling a.size = [] := by
      cases call with
      | add op => rfl
      | connect producer consumer =>
        refine if_neg fun hends => ?_
        obtain ⟨stopped, hstopped⟩ := exists_connect_error_iff.mpr (.inr hends.2)
        rw [run, hstopped] at hfirst
        cases hfirst
    rw [danglingFrom, hnone, List.nil_append, ← size_after, hafter]
    exact ih hrest

/-- A node can be connected to those before it. -/
theorem runAll_connect {producers : List Nat} (hp : ∀ producer ∈ producers, producer < a.size)
    (hc : consumer < a.size) :
    a.runAll (producers.map (.connect · consumer)) = .ok (a.linkAll producers consumer) := by
  induction producers generalizing a with
  | nil => rfl
  | cons producer producers ih =>
    have hfirst : a.run (.connect producer consumer) = .ok (a.link producer consumer) := by
      simp [run, connect, hp producer (by simp), hc]
    rw [List.map_cons, runAll, List.foldlM_cons, hfirst, ok_bind]
    exact ih (fun p hmem => by rw [size_link]; exact hp p (by simp [hmem])) (by simpa using hc)

end Arena

variable {r : Registry} {ops : List Op}

/-- The calls that make the graph of the operators before a bound: each of them is added, and then
connected to its producers. -/
def buildCalls (r : Registry) (ops : List Op) (bound : Nat) : List Arena.Call :=
  (List.range bound).flatMap fun k =>
    (ops[k]?).toList.map .add ++ (producersOf r ops k).map (.connect · k)

theorem buildCalls_succ {k : Nat} {op : Op} (hop : ops[k]? = some op) :
    buildCalls r ops (k + 1)
      = buildCalls r ops k ++ .add op :: (producersOf r ops k).map (.connect · k) := by
  simp [buildCalls, List.range_succ, hop]

/-- A graph is built by calls of which none is refused. -/
theorem Graph.runAll_buildCalls {g : Graph} (h : Graph.build r ops = .ok g) :
    Arena.runAll {} (buildCalls r ops ops.length) = .ok g.arena := by
  obtain ⟨-, hnamed⟩ := isOf_of_build h
  obtain ⟨w, rfl, -, -, hrun⟩ := build_induction
    (motive := fun k w => Arena.runAll {} (buildCalls r ops k) = .ok w.graph.arena) rfl
    (fun k w op opType hop _ hwired hrun => by
      rw [hwired.arena_placed hop (hnamed op (List.mem_of_getElem? hop)) opType, buildCalls_succ hop,
        Arena.runAll, List.foldlM_append]
      rw [Arena.runAll] at hrun
      rw [hrun, ok_bind, List.foldlM_cons, Arena.run, ok_bind]
      refine Arena.runAll_connect (fun i hi => ?_) ?_ <;> rw [Arena.size_add, hwired.size]
      · exact Nat.lt_succ_of_lt (lt_of_mem_producersOf hi)
      · exact Nat.lt_succ_self k) h
  exact hrun

/-- Building a graph leaves no edge dangling. -/
theorem Graph.danglingEdges_buildCalls {g : Graph} (h : Graph.build r ops = .ok g) :
    Arena.danglingEdges (buildCalls r ops ops.length) = [] :=
  Arena.danglingFrom_eq_nil_of_runAll (runAll_buildCalls h)

end TensorFusion
