import Mathlib.Data.List.Basic
import TensorFusion.Proofs.Declared
import TensorFusion.Proofs.Graph.Edges

/-!
# Proofs — Graph — Build

What a graph is by its operators alone: a node has as producers the last writers of the names that
it reads, and as consumers those that count it among their producers.
-/

namespace TensorFusion

variable {r : Registry} {ops : List Op}

/-- The last writers of the names that the operator at a position reads, name by name. -/
def producersOf (r : Registry) (ops : List Op) (j : Nat) : List Nat :=
  match ops[j]? with
  | some op => (r.reads op).filterMap fun name => lastWriter r ops name j
  | none => []

/-- The positions before a bound that have an operator as a producer, each as often as it does. -/
def consumersOf (r : Registry) (ops : List Op) (bound i : Nat) : List Nat :=
  (List.range bound).flatMap fun j => List.replicate ((producersOf r ops j).count i) j

theorem consumersOf_succ (bound i : Nat) :
    consumersOf r ops (bound + 1) i
      = consumersOf r ops bound i ++ List.replicate ((producersOf r ops bound).count i) bound := by
  simp [consumersOf, List.range_succ]

theorem producersOf_eq {op : Op} {j : Nat} (h : ops[j]? = some op) :
    producersOf r ops j = (r.reads op).filterMap fun name => lastWriter r ops name j := by
  simp [producersOf, h]

theorem producersOf_eq_nil {j : Nat} (h : ops.length ≤ j) : producersOf r ops j = [] := by
  simp [producersOf, List.getElem?_eq_none_iff.mpr h]

/-- Edges lead forward. -/
theorem lt_of_mem_producersOf {i j : Nat} (h : i ∈ producersOf r ops j) : i < j := by
  unfold producersOf at h
  split at h
  · obtain ⟨name, -, hname⟩ := List.mem_filterMap.mp h
    exact lastWriter_lt hname
  · simp at h

theorem mem_consumersOf {bound i j : Nat} :
    j ∈ consumersOf r ops bound i ↔ j < bound ∧ i ∈ producersOf r ops j := by
  simp only [consumersOf, List.mem_flatMap, List.mem_range, List.mem_replicate]
  constructor
  · intro h
    obtain ⟨j', hj', hcount, rfl⟩ := h
    exact ⟨hj', List.count_pos_iff.mp (Nat.pos_of_ne_zero hcount)⟩
  · intro h
    obtain ⟨hj, hi⟩ := h
    exact ⟨j, hj, Nat.ne_of_gt (List.count_pos_iff.mpr hi), rfl⟩

/-- Nothing consumes what is made behind it. -/
theorem consumersOf_eq_nil {bound i : Nat} (h : bound ≤ i) : consumersOf r ops bound i = [] := by
  rw [List.eq_nil_iff_forall_not_mem]
  intro j hj
  rw [mem_consumersOf] at hj
  have := lt_of_mem_producersOf hj.2
  omega

theorem count_consumersOf {bound i j : Nat} (h : j < bound) :
    (consumersOf r ops bound i).count j = (producersOf r ops j).count i := by
  induction bound with
  | zero => omega
  | succ bound ih =>
    rw [consumersOf_succ, List.count_append, List.count_replicate]
    by_cases hj : j = bound
    · subst hj
      have hnot : j ∉ consumersOf r ops j i := fun hmem => by
        rw [mem_consumersOf] at hmem
        omega
      simp [List.count_eq_zero.mpr hnot]
    · rw [ih (by omega)]
      simp [Ne.symm hj]

/-- Some of the consumers are the consumers among some positions. -/
theorem filter_consumersOf (p : Nat → Bool) (bound i : Nat) :
    (consumersOf r ops bound i).filter p = ((List.range bound).filter p).flatMap fun j =>
      List.replicate ((producersOf r ops j).count i) j := by
  induction bound with
  | zero => rfl
  | succ bound ih =>
    rw [consumersOf_succ, List.filter_append, ih, List.range_succ, List.filter_append,
      List.flatMap_append, List.filter_replicate]
    by_cases hp : p bound = true <;> simp [hp]

/-! ## One name at a time -/

namespace Wiring

/-- The last writer of a name so far. -/
def writer? (w : Wiring) (name : Value) : Option Nat := name.atom?.bind w.writers.get?

/-- Links a reader to several producers. -/
def linkAll (w : Wiring) (producers : List Nat) (index : Nat) : Wiring :=
  { w with graph.arena := w.graph.arena.linkAll producers index }

/-- Enters a node as the last writer of a name that is a key. -/
def enter (index : Nat) (writers : Table Nat) : Value → Table Nat
  | .atom name => writers.insert name index
  | _ => writers

/-- Enters a node as the last writer of several names. -/
def writeAll (w : Wiring) (names : List Value) (index : Nat) : Wiring :=
  { w with writers := names.foldl (enter index) w.writers }

/-- All names read link the reader to their last writers. -/
theorem foldlM_read {index : Nat} {names : List Value} {w : Wiring}
    (h : ∀ n ∈ names, ∃ a, n = .atom a) :
    names.foldlM (read index) w = .ok (w.linkAll (names.filterMap w.writer?) index) := by
  induction names generalizing w with
  | nil => rfl
  | cons name names ih =>
    obtain ⟨a, rfl⟩ := h name (by simp)
    have hrest : ∀ n ∈ names, ∃ a, n = .atom a := fun n hn => h n (by simp [hn])
    rw [List.foldlM_cons]
    cases hw : w.writers.get? a with
    | none =>
      rw [show read index w (.atom a) = .ok w by simp [read, hw], ok_bind, ih hrest]
      simp [writer?, Value.atom?, hw]
    | some writer =>
      rw [show read index w (.atom a) = .ok (w.linkAll [writer] index) by
        simp [read, hw, linkAll, Arena.linkAll], ok_bind, ih hrest]
      have hwriter : w.writer? (.atom a) = some writer := hw
      rw [List.filterMap_cons_some hwriter]
      rfl

theorem foldlM_write {index : Nat} {names : List Value} {w : Wiring}
    (h : ∀ n ∈ names, ∃ a, n = .atom a) :
    names.foldlM (write index) w = .ok (w.writeAll names index) := by
  induction names generalizing w with
  | nil => rfl
  | cons name names ih =>
    obtain ⟨a, rfl⟩ := h name (by simp)
    rw [List.foldlM_cons]
    show names.foldlM (write index) { w with writers := w.writers.insert a index } = _
    rw [ih fun n hn => h n (by simp [hn])]
    rfl

theorem atom_of_read {index : Nat} {n : Value} {w w' : Wiring} (h : read index w n = .ok w') :
    ∃ a, n = .atom a := by
  cases n with
  | atom a => exact ⟨a, rfl⟩
  | list items => cases h
  | map entries => cases h

theorem atom_of_write {index : Nat} {n : Value} {w w' : Wiring} (h : write index w n = .ok w') :
    ∃ a, n = .atom a := by
  cases n with
  | atom a => exact ⟨a, rfl⟩
  | list items => cases h
  | map entries => cases h

/-- Where a loop over names comes to an end, each of its steps has. -/
theorem atoms_of_foldlM {step : Wiring → Value → Except Error Wiring}
    (hstep : ∀ w n w', step w n = .ok w' → ∃ a, n = .atom a) {names : List Value} {w w' : Wiring}
    (h : names.foldlM step w = .ok w') : ∀ n ∈ names, ∃ a, n = .atom a := by
  induction names generalizing w with
  | nil => simp
  | cons name names ih =>
    rw [List.foldlM_cons, bind_eq_ok] at h
    obtain ⟨w₁, hfirst, h⟩ := h
    intro n hn
    rcases List.mem_cons.mp hn with rfl | hn
    · exact hstep w n w₁ hfirst
    · exact ih h n hn

/-- A node becomes the last writer of the names that it writes, and of no others. -/
theorem writer?_writeAll (w : Wiring) (names : List Value) (index : Nat) (a : Atom) :
    (w.writeAll names index).writer? (.atom a)
      = if names.any (·.same (.atom a)) then some index else w.writer? (.atom a) := by
  show (names.foldl (enter index) w.writers).get? a = _
  induction names generalizing w with
  | nil => rfl
  | cons name names ih =>
    cases name with
    | list items => simpa [enter, Value.same] using ih w
    | map entries => simpa [enter, Value.same] using ih w
    | atom b =>
      have hih := ih { w with writers := w.writers.insert b index }
      rw [List.foldl_cons, enter, hih]
      by_cases hnames : names.any (·.same (.atom a)) = true
      · simp [hnames]
      · simp [hnames, writer?, Value.atom?, Table.get?_insert]

end Wiring

/-! ## One operator at a time -/

/-- Whether the graph can tell all that it asks of an operator: its type and the names in its
declared slots are keys. -/
structure Op.IsNamed (r : Registry) (op : Op) : Prop where
  opType : ∃ a, op.opType = .atom a
  reads : ∀ n ∈ r.reads op, ∃ a, n = .atom a
  writes : ∀ n ∈ r.writes op, ∃ a, n = .atom a

theorem Value.isSome_atom?_iff {v : Value} : v.atom?.isSome = true ↔ ∃ a, v = .atom a := by
  cases v <;> simp [Value.atom?]

instance (r : Registry) (op : Op) : Decidable (op.IsNamed r) :=
  decidable_of_iff (op.opType.atom?.isSome = true ∧ (∀ n ∈ r.reads op, n.atom?.isSome = true) ∧
      ∀ n ∈ r.writes op, n.atom?.isSome = true) <| by
    simp only [Value.isSome_atom?_iff]
    exact ⟨fun h => ⟨h.1, h.2.1, h.2.2⟩, fun h => ⟨h.opType, h.reads, h.writes⟩⟩

/-- The operators before a position are wired up as they should be. -/
structure Wired (r : Registry) (ops : List Op) (k : Nat) (w : Wiring) : Prop where
  size : w.graph.arena.size = k
  nodes : ∀ i op, i < k → ops[i]? = some op →
    w.graph.arena.node? i = some ⟨op, producersOf r ops i, consumersOf r ops k i⟩
  writers : ∀ a, w.writer? (.atom a) = lastWriter r ops (.atom a) k
  groups : ∀ a, (w.graph.groups.get? a).getD []
    = (List.range k).filter fun i => (ops[i]?).any (·.opType.same (.atom a))

theorem Wired.start : Wired r ops 0 {} where
  size := rfl
  nodes := fun i _ h => absurd h (Nat.not_lt_zero i)
  writers := fun _ => rfl
  groups := fun _ => rfl

namespace Wiring

/-- What has become of the wiring once an operator is placed. -/
def placed (r : Registry) (op : Op) (opType : Atom) (w : Wiring) : Wiring :=
  let index := w.graph.arena.size
  let linked : Wiring := { w with graph.arena := w.graph.arena.add op }
  let w := (linked.linkAll ((r.reads op).filterMap w.writer?) index).writeAll (r.writes op) index
  let members := (w.graph.groups.get? opType).getD []
  { w with graph.groups := w.graph.groups.insert opType (members ++ [index]) }

theorem place_eq {op : Op} {w : Wiring} (h : op.IsNamed r) :
    ∃ opType, op.opType = .atom opType ∧
      place w (op, r.slotsOf op) = .ok (w.placed r op opType) := by
  obtain ⟨opType, hType⟩ := h.opType
  refine ⟨opType, hType, ?_⟩
  show ((r.reads op).foldlM (read _) _ >>= fun w => (r.writes op).foldlM (write _) w >>= fun w =>
    w.group _ op.opType) = _
  rw [foldlM_read h.reads, ok_bind, foldlM_write h.writes, ok_bind, hType]
  rfl

theorem isNamed_of_place {op : Op} {w w' : Wiring}
    (h : place w (op, r.slotsOf op) = .ok w') : op.IsNamed r := by
  simp only [place, bind_eq_ok] at h
  obtain ⟨w₁, hreads, w₂, hwrites, hgroup⟩ := h
  refine ⟨?_, atoms_of_foldlM (fun _ _ _ => atom_of_read) hreads,
    atoms_of_foldlM (fun _ _ _ => atom_of_write) hwrites⟩
  cases hType : op.opType with
  | atom a => exact ⟨a, rfl⟩
  | list items => simp [hType, group] at hgroup
  | map entries => simp [hType, group] at hgroup

end Wiring

/-- An operator that is placed behind the others is linked to its producers. -/
theorem Wired.arena_placed {k : Nat} {w : Wiring} {op : Op} (hw : Wired r ops k w)
    (hop : ops[k]? = some op) (hnamed : op.IsNamed r) (opType : Atom) :
    (w.placed r op opType).graph.arena
      = (w.graph.arena.add op).linkAll (producersOf r ops k) k := by
  have hproducers : (r.reads op).filterMap w.writer? = producersOf r ops k := by
    rw [producersOf_eq hop]
    refine List.filterMap_congr fun n hn => ?_
    obtain ⟨a, rfl⟩ := hnamed.reads n hn
    exact hw.writers a
  rw [← hproducers, ← hw.size]
  rfl

/-- An operator that is placed behind the others is wired up with them. -/
theorem Wired.place {k : Nat} {w : Wiring} {op : Op} {opType : Atom} (hw : Wired r ops k w)
    (hop : ops[k]? = some op) (hnamed : op.IsNamed r) (hType : op.opType = .atom opType) :
    Wired r ops (k + 1) (w.placed r op opType) := by
  have harena := hw.arena_placed hop hnamed opType
  refine ⟨?_, fun i op' hi hop' => ?_, fun a => ?_, fun a => ?_⟩
  · rw [harena, Arena.size_linkAll, Arena.size_add, hw.size]
  · rw [harena, Arena.node?_linkAll, Arena.node?_add, consumersOf_succ]
    by_cases hik : i = k
    · -- Nothing consumes the new node yet, not even the node itself.
      subst hik
      have hself : i ∉ producersOf r ops i := fun h => by
        have := lt_of_mem_producersOf h
        omega
      rw [hop] at hop'
      cases hop'
      simp [hw.size, consumersOf_eq_nil, List.count_eq_zero.mpr hself]
    · rw [hw.size, if_neg hik, hw.nodes i op' (by omega) hop']
      simp [hik]
  · -- Reading enters no writers, so those before the new node are as they were.
    show ((Wiring.linkAll _ _ _).writeAll (r.writes op) w.graph.arena.size).writer? (.atom a) = _
    rw [Wiring.writer?_writeAll, lastWriter, hop, hw.size]
    show (if (r.writes op).any _ then some k else w.writer? (.atom a)) = _
    rw [hw.writers a]
    rfl
  · have hgroups : ((w.placed r op opType).graph.groups.get? a).getD []
        = if opType.same a then (w.graph.groups.get? opType).getD [] ++ [k]
          else (w.graph.groups.get? a).getD [] := by
      show ((w.graph.groups.insert opType _).get? a).getD [] = _
      rw [Table.get?_insert, ← hw.size]
      split <;> rfl
    rw [hgroups, List.range_succ, List.filter_append]
    by_cases hsame : opType.same a = true
    · simp [Table.get?_congr w.graph.groups hsame, hw.groups a, hop, hType, hsame]
    · simp [hw.groups a, hop, hType, hsame]

/-! ## The whole graph -/

/-- A graph is the one that belongs to a list of operators. -/
structure Graph.IsOf (r : Registry) (ops : List Op) (g : Graph) : Prop where
  op? : ∀ i, g.arena.op? i = ops[i]?
  inputs : ∀ i, g.arena.inputs i = producersOf r ops i
  outputs : ∀ i, g.arena.outputs i = consumersOf r ops ops.length i
  groups : ∀ a, (g.groups.get? a).getD []
    = (List.range ops.length).filter fun i => (ops[i]?).any (·.opType.same (.atom a))

theorem Wired.isOf {w : Wiring} (h : Wired r ops ops.length w) : w.graph.IsOf r ops := by
  have hnode : ∀ i, w.graph.arena.node? i
      = (ops[i]?).map fun op => ⟨op, producersOf r ops i, consumersOf r ops ops.length i⟩ := by
    intro i
    cases hop : ops[i]? with
    | none =>
      rw [List.getElem?_eq_none_iff] at hop
      rw [Arena.node?_eq_none_iff.mpr (by rw [h.size]; exact hop)]
      rfl
    | some op =>
      have hi : i < ops.length := (List.getElem?_eq_some_iff.mp hop).1
      exact h.nodes i op hi hop
  refine ⟨fun i => ?_, fun i => ?_, fun i => ?_, h.groups⟩
  · simp [Arena.op?, hnode, Function.comp_def]
  · cases hop : ops[i]? with
    | none => simp [Arena.inputs, hnode, hop, producersOf]
    | some op => simp [Arena.inputs, hnode, hop]
  · cases hop : ops[i]? with
    | none =>
      have hi : ops.length ≤ i := List.getElem?_eq_none_iff.mp hop
      simp [Arena.outputs, hnode, hop, consumersOf_eq_nil hi]
    | some op => simp [Arena.outputs, hnode, hop]

theorem Graph.IsOf.size {g : Graph} (h : g.IsOf r ops) : g.arena.size = ops.length := by
  have hop : ∀ i, i < g.arena.size ↔ i < ops.length := by
    intro i
    rw [← Nat.not_le, ← Nat.not_le, ← List.getElem?_eq_none_iff, ← h.op?]
    constructor
    · intro hi hnone
      obtain ⟨op, hop⟩ := Arena.op?_of_lt (Nat.not_le.mp hi)
      simp [hop] at hnone
    · intro hsome hi
      exact hsome (Arena.op?_eq_none hi)
  have h₁ := hop g.arena.size
  have h₂ := hop ops.length
  omega

theorem Graph.IsOf.mem_outputs {g : Graph} (h : g.IsOf r ops) {i k : Nat} :
    k ∈ g.arena.outputs i ↔ i ∈ producersOf r ops k := by
  rw [h.outputs, mem_consumersOf]
  refine ⟨fun hk => hk.2, fun hi => ⟨?_, hi⟩⟩
  refine Nat.lt_of_not_le fun hk => ?_
  simp [producersOf_eq_nil hk] at hi

/-- A node is a candidate for every template that starts at its type. -/
theorem Graph.IsOf.exists_candidates {g : Graph} (h : g.IsOf r ops) {i : Nat} {op : Op}
    (hop : ops[i]? = some op) {opType : Atom} (hType : op.opType.same (.atom opType) = true) :
    ∃ candidates, g.candidates (.atom opType) = .ok candidates ∧ i ∈ candidates := by
  refine ⟨_, rfl, ?_⟩
  rw [h.groups, List.mem_filter, List.mem_range]
  exact ⟨(List.getElem?_eq_some_iff.mp hop).1, by simpa [hop] using hType⟩

/-- The candidates for a type are the nodes that were built with it, in program order. -/
theorem Graph.IsOf.candidates_eq {g : Graph} (h : g.IsOf r ops) {opType : Value}
    {candidates : List Nat} (hcandidates : g.candidates opType = .ok candidates) :
    candidates = (List.range ops.length).filter fun i => (ops[i]?).any (·.opType.same opType) := by
  cases opType with
  | atom a =>
    rw [← h.groups a]
    exact (Except.ok.inj hcandidates).symm
  | list items => cases hcandidates
  | map entries => cases hcandidates

theorem Graph.IsOf.exists_opType {g : Graph} (h : g.IsOf r ops)
    (hnamed : ∀ op ∈ ops, op.IsNamed r) (i : Nat) (op : Op) (hop : g.arena.op? i = some op) :
    ∃ opType, op.opType = .atom opType := by
  rw [h.op?] at hop
  exact (hnamed op (List.mem_of_getElem? hop)).opType

/-- The edges of a graph lead forward and are entered at both ends. -/
theorem Graph.IsOf.wellLinked {g : Graph} (h : g.IsOf r ops) : g.arena.WellLinked where
  forward := fun _ _ hk => lt_of_mem_producersOf (h.mem_outputs.mp hk)
  range := fun i k hk => by
    rw [h.outputs, mem_consumersOf] at hk
    rw [h.size]
    exact hk.1
  mirrored := fun i k => by
    rw [h.outputs, h.inputs]
    rcases Nat.lt_or_ge k ops.length with hk | hk
    · exact count_consumersOf hk
    · have hnot : k ∉ consumersOf r ops ops.length i := fun hmem => by
        rw [mem_consumersOf] at hmem
        omega
      rw [List.count_eq_zero.mpr hnot, producersOf_eq_nil hk, List.count_nil]

private theorem getElem?_of_map_eq {α β : Type} {f : α → β} {as : List α} {done rest : List β}
    {b : β} (h : as.map f = done ++ b :: rest) : ∃ a, as[done.length]? = some a ∧ f a = b := by
  have hb : (as.map f)[done.length]? = some b := by simp [h]
  rw [List.getElem?_map, Option.map_eq_some_iff] at hb
  exact hb

/-- A graph is built from operators that name their types and their tensors by keys, and its wiring is
as it should be. What holds of the empty wiring, and goes on to hold wherever an operator is placed,
holds of it as well. -/
theorem Graph.build_induction {motive : Nat → Wiring → Prop} {g : Graph} (start : motive 0 {})
    (step : ∀ k w op opType, ops[k]? = some op → op.opType = .atom opType → Wired r ops k w →
      motive k w → motive (k + 1) (w.placed r op opType))
    (h : Graph.build r ops = .ok g) : ∃ w, w.graph = g ∧ Wired r ops ops.length w ∧
      (∀ op ∈ ops, op.IsNamed r) ∧ motive ops.length w := by
  simp only [Graph.build, bind_eq_ok, pure_eq_ok] at h
  obtain ⟨signatures, hsignatures, slots, hslots, w, hw, rfl⟩ := h
  rw [Registry.zip_slots hsignatures hslots] at hw
  have hwired := foldlM_induction
    (motive := fun done w => Wired r ops done.length w ∧ (∀ e ∈ done, e.1.IsNamed r) ∧
      motive done.length w)
    ⟨Wired.start, by simp, start⟩ (fun done e rest w w' has hdone hplace => by
      obtain ⟨hwired, hnames, hmotive⟩ := hdone
      obtain ⟨op, hop, rfl⟩ := getElem?_of_map_eq has
      have hnamed := Wiring.isNamed_of_place hplace
      obtain ⟨opType, hType, heq⟩ := Wiring.place_eq (w := w) hnamed
      rw [heq] at hplace
      cases hplace
      rw [List.length_append]
      refine ⟨hwired.place hop hnamed hType, fun e he => ?_, step _ w op _ hop hType hwired hmotive⟩
      rcases List.mem_append.mp he with he | he
      · exact hnames e he
      · rw [List.mem_singleton.mp he]
        exact hnamed) hw
  rw [List.length_map] at hwired
  obtain ⟨hwired, hnames, hmotive⟩ := hwired
  exact ⟨w, rfl, hwired, fun op hop => hnames (op, r.slotsOf op) (List.mem_map_of_mem hop), hmotive⟩

/-- A graph that is built is the one that belongs to the operators, each of which names its type
and its tensors by keys. -/
theorem Graph.isOf_of_build {g : Graph} (h : Graph.build r ops = .ok g) :
    g.IsOf r ops ∧ ∀ op ∈ ops, op.IsNamed r := by
  obtain ⟨w, rfl, hwired, hnames, -⟩ :=
    build_induction (motive := fun _ _ => True) trivial (fun _ _ _ _ _ _ _ _ => trivial) h
  exact ⟨hwired.isOf, hnames⟩

/-! ## Registered operators -/

/-- An operator is registered: its type has slots that are keys, and what it has in them is named by
keys. -/
structure Op.IsRegistered (r : Registry) (op : Op) : Prop where
  slots : ∃ signature, r.lookup op.opType = .ok signature ∧
    ∃ slots, signature.slotKeys = .ok slots
  named : op.IsNamed r

instance (r : Registry) (op : Op) : Decidable (op.IsRegistered r) :=
  decidable_of_iff ((r.lookup op.opType >>= Signature.slotKeys).isOk = true ∧ op.IsNamed r) <| by
    rw [isOk_iff]
    constructor
    · intro h
      obtain ⟨⟨slots, hslots⟩, hnamed⟩ := h
      obtain ⟨signature, hsignature, hkeys⟩ := bind_eq_ok.mp hslots
      exact ⟨⟨signature, hsignature, slots, hkeys⟩, hnamed⟩
    · intro h
      obtain ⟨⟨signature, hsignature, slots, hkeys⟩, hnamed⟩ := h
      exact ⟨⟨slots, bind_eq_ok.mpr ⟨signature, hsignature, hkeys⟩⟩, hnamed⟩

/-- The graph of registered operators can be built. -/
theorem Graph.exists_build (hregistered : ∀ op ∈ ops, op.IsRegistered r) :
    ∃ g, Graph.build r ops = .ok g := by
  obtain ⟨signatures, h⟩ := mapM_total fun op hop => (hregistered op hop).slots.imp fun _ h => h.1
  have hkeys : ∀ signature ∈ signatures, ∃ slots, signature.slotKeys = .ok slots := by
    intro signature hmem
    obtain ⟨op, hop, hlookup⟩ := exists_of_mem_mapM h hmem
    obtain ⟨signature', hlookup', hkeys⟩ := (hregistered op hop).slots
    rw [hlookup] at hlookup'
    cases hlookup'
    exact hkeys
  obtain ⟨slots, h'⟩ := mapM_total hkeys
  have hplace : ∃ w, (ops.zip slots).foldlM Wiring.place {} = .ok w ∧ True := by
    rw [Registry.zip_slots h h']
    refine foldlM_total (motive := fun _ _ => True) trivial fun done e rest w has _ => ?_
    obtain ⟨op, hop, rfl⟩ := getElem?_of_map_eq has
    obtain ⟨opType, -, heq⟩ :=
      Wiring.place_eq (w := w) (hregistered op (List.mem_of_getElem? hop)).named
    exact ⟨_, heq, trivial⟩
  obtain ⟨w, hw, -⟩ := hplace
  exact ⟨w.graph, by simp only [Graph.build, h, ok_bind, h', hw]; rfl⟩

/-- Where the graph of operators is built, they are registered. -/
theorem Graph.isRegistered_of_build {g : Graph} (h : Graph.build r ops = .ok g) :
    ∀ op ∈ ops, op.IsRegistered r := by
  intro op hop
  refine ⟨?_, (isOf_of_build h).2 op hop⟩
  simp only [Graph.build, bind_eq_ok] at h
  obtain ⟨signatures, hsignatures, slots, hslots, -⟩ := h
  obtain ⟨signature, hsignature, hlookup⟩ := exists_of_mapM hsignatures hop
  obtain ⟨keys, -, hkeys⟩ := exists_of_mapM hslots hsignature
  exact ⟨signature, hlookup, keys, hkeys⟩

end TensorFusion
