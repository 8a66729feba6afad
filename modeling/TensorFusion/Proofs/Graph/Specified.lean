import Mathlib.Data.List.Nodup
import Mathlib.Data.List.Perm.Basic
import Mathlib.Logic.Relation
import Mathlib.Order.Bounds.Defs
import TensorFusion.Proofs.Graph.Build
import TensorFusion.Proofs.Sample

/-!
# Proofs — Graph — Specified

The whole of what is built, said without building it: the nodes, the edges at both their ends, and
the groups of nodes by type. The running table of writers comes down to the greatest position before
a reader, and the groups to the positions at which a type occurs.
-/

namespace TensorFusion

variable {r : Registry} {ops : List Op}

/-- The positions before a bound at which a name is written to a declared slot. -/
def writersBefore (r : Registry) (ops : List Op) (name : Value) (bound : Nat) : Set Nat :=
  {k | k < bound ∧ ∃ op, ops[k]? = some op ∧ r.writesName op name = true}

/-- The last writer of a name is the greatest of its writers; where there are none, there is none.
-/
theorem lastWriter_isGreatest {name : Value} {bound w : Nat} :
    lastWriter r ops name bound = some w ↔ IsGreatest (writersBefore r ops name bound) w := by
  rw [lastWriter_eq_some_iff]
  constructor
  · intro h
    obtain ⟨hw, hwrites, hlast⟩ := h
    refine ⟨⟨hw, hwrites⟩, fun v hv => Nat.le_of_not_lt fun hlt => ?_⟩
    obtain ⟨hbound, op, hop, hwritesv⟩ := hv
    rw [hlast v op hlt hbound hop] at hwritesv
    cases hwritesv
  · intro h
    obtain ⟨⟨hw, hwrites⟩, hgreatest⟩ := h
    refine ⟨hw, hwrites, fun v op hlt hbound hop => ?_⟩
    rw [← Bool.not_eq_true]
    intro hwritesv
    have hle : v ≤ w := hgreatest ⟨hbound, op, hop, hwritesv⟩
    omega

/-! ## Groups -/

/-- The positions at which a type occurs, in ascending order. -/
def occurrencesOf (ops : List Op) (opType : Atom) : List Nat :=
  (List.range ops.length).filter fun i => (ops[i]?).any (·.opType.same (.atom opType))

theorem mem_occurrencesOf {opType : Atom} {i : Nat} : i ∈ occurrencesOf ops opType ↔
    ∃ op, ops[i]? = some op ∧ op.opType.same (.atom opType) = true := by
  rw [occurrencesOf, List.mem_filter, List.mem_range, Option.any_eq_true]
  constructor
  · intro h
    exact h.2
  · intro h
    obtain ⟨op, hop, hsame⟩ := h
    exact ⟨(List.getElem?_eq_some_iff.mp hop).1, op, hop, hsame⟩

theorem pairwise_occurrencesOf (opType : Atom) : (occurrencesOf ops opType).Pairwise (· < ·) :=
  List.pairwise_lt_range.filter _

/-- Each group is begun by an operator that spells the type as the group does, and it is begun later
than the groups before it. -/
structure BegunInOrder (ops : List Op) (k : Nat) (groups : List (Atom × List Nat)) : Prop where
  begun : ∀ e ∈ groups, ∃ i rest, e.2 = i :: rest ∧ i < k ∧
    ∃ op, ops[i]? = some op ∧ op.opType = .atom e.1
  ascending : (groups.map fun e => e.2.headI).Pairwise (· < ·)

/-- A position is added to the group of its type or begins a new one, which comes last. -/
theorem BegunInOrder.insert {k : Nat} {groups : Table (List Nat)} {op : Op} {opType : Atom}
    (h : BegunInOrder ops k groups.entries) (hop : ops[k]? = some op)
    (hType : op.opType = .atom opType) : BegunInOrder ops (k + 1)
      (groups.insert opType ((groups.get? opType).getD [] ++ [k])).entries := by
  have hbegun (e : Atom × List Nat) (he : e ∈ groups.entries) : ∃ i rest, e.2 = i :: rest ∧
      i < k + 1 ∧ ∃ op, ops[i]? = some op ∧ op.opType = .atom e.1 := by
    obtain ⟨i, rest, heq, hi, hspelled⟩ := h.begun e he
    exact ⟨i, rest, heq, by omega, hspelled⟩
  cases hget : groups.get? opType with
  | none =>
    have hentries : (groups.insert opType ([] ++ [k])).entries
        = groups.entries ++ [(opType, [k])] := Table.assign_of_lookup_none hget _
    rw [Option.getD_none, hentries]
    constructor
    · intro e he
      rcases List.mem_append.mp he with he | he
      · exact hbegun e he
      · rw [List.mem_singleton.mp he]
        exact ⟨k, [], rfl, Nat.lt_succ_self k, op, hop, hType⟩
    · rw [List.map_append, List.pairwise_append]
      refine ⟨h.ascending, by simp, ?_⟩
      intro i hi j hj
      obtain ⟨e, he, rfl⟩ := List.mem_map.mp hi
      obtain ⟨i, rest, heq, hi, -⟩ := h.begun e he
      have hj : j = k := by simpa using hj
      rw [hj, heq]
      exact hi
  | some members =>
    obtain ⟨before, spelling, after, heq, -, hassign⟩ :=
      Table.assign_of_lookup_some hget (members ++ [k])
    have hentries : (groups.insert opType (members ++ [k])).entries
        = before ++ (spelling, members ++ [k]) :: after := hassign
    obtain ⟨i, rest, hmembers, hi, hspelled⟩ := hbegun (spelling, members) (by simp [heq])
    have hmembers : members = i :: rest := hmembers
    rw [Option.getD_some, hentries]
    constructor
    · intro e he
      rcases List.mem_append.mp he with he | he
      · exact hbegun e (by simp [heq, he])
      rcases List.mem_cons.mp he with rfl | he
      · exact ⟨i, rest ++ [k], by simp [hmembers], hi, hspelled⟩
      · exact hbegun e (by simp [heq, he])
    · -- The group that grows is begun where it was begun before.
      have hfirsts : (before ++ (spelling, members ++ [k]) :: after).map (fun e => e.2.headI)
          = groups.entries.map fun e => e.2.headI := by
        simp [heq, hmembers]
      rw [hfirsts]
      exact h.ascending

/-- The groups of a graph that is built are in the order in which their types come up. -/
theorem Graph.begunInOrder_of_build {g : Graph} (h : Graph.build r ops = .ok g) :
    BegunInOrder ops ops.length g.groups.entries := by
  obtain ⟨w, rfl, -, -, hgroups⟩ := Graph.build_induction
    (motive := fun k w => BegunInOrder ops k w.graph.groups.entries)
    ⟨fun _ he => (List.not_mem_nil he).elim, List.Pairwise.nil⟩
    (fun k w op opType hop hType hwired hgroups => by
      have hinsert := hgroups.insert hop hType
      rw [← hwired.size] at hinsert ⊢
      exact hinsert) h
  exact hgroups

/-! ## The whole graph -/

/-- What a graph is, by the operators that it is built from. -/
structure Graph.IsSpecified (r : Registry) (ops : List Op) (g : Graph) : Prop where
  /-- There is one node for each operator, and it holds the operator as it is. -/
  size : g.arena.size = ops.length
  op? : ∀ k : Nat, g.arena.op? k = ops[k]?
  /-- The producers of a node are the last writers before it of the names that it reads, in the
  order of its declared slots and of the names in them; a name without a writer has none. -/
  inputs : ∀ (j : Nat) op, ops[j]? = some op →
    g.arena.inputs j = (r.reads op).filterMap fun name => lastWriter r ops name j
  /-- The consumers of a node are the nodes that count it among their producers, in ascending order,
  each as often as it does. -/
  outputs : ∀ i, g.arena.outputs i = (List.range ops.length).flatMap fun j =>
    List.replicate ((g.arena.inputs j).count i) j
  /-- Edges lead forward, and no path leads back to where it begins. -/
  forward : ∀ i, ∀ k ∈ g.arena.outputs i, i < k
  acyclic : ∀ i, ¬ Relation.TransGen (fun i k => k ∈ g.arena.outputs i) i i
  /-- A group has the positions at which its type occurs, in ascending order. -/
  positions : ∀ e ∈ g.groups.entries,
    e.2 = occurrencesOf ops e.1 ∧ e.2.Pairwise (· < ·)
  /-- Just the types that occur have groups. A group is named as its type is spelled where it occurs
  first, and it comes before the groups of types that occur later. -/
  occurring : ∀ op ∈ ops, ∃ e ∈ g.groups.entries, op.opType.same (.atom e.1) = true
  spelled : ∀ e ∈ g.groups.entries, ∃ i rest, e.2 = i :: rest ∧
    ∃ op, ops[i]? = some op ∧ op.opType = .atom e.1
  ordered : g.groups.entries.Pairwise fun e f => ∃ i ∈ e.2, ∀ j ∈ f.2, i < j
  /-- Every position is in one group, and in it once. -/
  partition : g.groups.values.flatten.Perm (List.range ops.length)

namespace Graph

variable {g : Graph}

theorem IsOf.acyclic (h : g.IsOf r ops) (i : Nat) :
    ¬ Relation.TransGen (fun i k => k ∈ g.arena.outputs i) i i :=
  Arena.acyclic_of_forward h.wellLinked.forward i

/-- A group that is entered has the positions of its type. -/
theorem IsOf.group_eq (h : g.IsOf r ops) {e : Atom × List Nat} (he : e ∈ g.groups.entries) :
    e.2 = occurrencesOf ops e.1 := by
  have hget : g.groups.get? e.1 = some e.2 :=
    Table.lookup_of_mem g.groups.distinct he (Atom.same_refl e.1)
  have hgroups := h.groups e.1
  rw [hget] at hgroups
  exact hgroups

/-- Every position is in the group of its type. -/
theorem IsOf.exists_group (h : g.IsOf r ops) {i : Nat} {op : Op} (hop : ops[i]? = some op)
    (hnamed : op.IsNamed r) : ∃ e ∈ g.groups.entries, i ∈ e.2 := by
  obtain ⟨opType, hType⟩ := hnamed.opType
  have hmem : i ∈ (g.groups.get? opType).getD [] := by
    rw [h.groups]
    exact mem_occurrencesOf.mpr ⟨op, hop, by simp [hType]⟩
  cases hget : g.groups.get? opType with
  | none => simp [hget] at hmem
  | some members =>
    rw [hget] at hmem
    obtain ⟨spelling, he, -⟩ := Table.mem_of_lookup hget
    exact ⟨(spelling, members), he, hmem⟩

/-- Groups share no position, as an operator has one type only. -/
theorem IsOf.disjoint_groups (h : g.IsOf r ops) :
    g.groups.values.Pairwise List.Disjoint := by
  refine List.pairwise_map.mpr ((List.pairwise_map.mp g.groups.distinct).imp_of_mem ?_)
  intro e f he hf hdistinct i hie hif
  rw [h.group_eq he] at hie
  rw [h.group_eq hf] at hif
  obtain ⟨op, hop, hsame⟩ := mem_occurrencesOf.mp hie
  obtain ⟨op', hop', hsame'⟩ := mem_occurrencesOf.mp hif
  rw [hop] at hop'
  cases hop'
  cases hType : op.opType with
  | atom a =>
    rw [hType, Value.same] at hsame hsame'
    exact hdistinct ((Atom.same_iff.mp hsame).symm.trans (Atom.same_iff.mp hsame'))
  | list items => simp [hType, Value.same] at hsame
  | map entries => simp [hType, Value.same] at hsame

theorem IsOf.partition (h : g.IsOf r ops) (hnamed : ∀ op ∈ ops, op.IsNamed r) :
    g.groups.values.flatten.Perm (List.range ops.length) := by
  have hnodup : g.groups.values.flatten.Nodup := by
    refine List.nodup_flatten.mpr ⟨fun positions hmem => ?_, h.disjoint_groups⟩
    obtain ⟨e, he, rfl⟩ := List.mem_map.mp hmem
    rw [h.group_eq he]
    exact (pairwise_occurrencesOf e.1).imp Nat.ne_of_lt
  refine (List.perm_ext_iff_of_nodup hnodup List.nodup_range).mpr fun i => ?_
  rw [List.mem_flatten, List.mem_range]
  constructor
  · intro hi
    obtain ⟨positions, hmem, hi⟩ := hi
    obtain ⟨e, he, rfl⟩ := List.mem_map.mp hmem
    rw [h.group_eq he] at hi
    obtain ⟨op, hop, -⟩ := mem_occurrencesOf.mp hi
    exact (List.getElem?_eq_some_iff.mp hop).1
  · intro hi
    have hop : ops[i]? = some ops[i] := List.getElem?_eq_getElem hi
    obtain ⟨e, he, hmem⟩ := h.exists_group hop (hnamed _ (List.getElem_mem hi))
    exact ⟨e.2, List.mem_map_of_mem he, hmem⟩

/-- A graph that is built meets its specification. -/
theorem isSpecified_of_build (h : Graph.build r ops = .ok g) : g.IsSpecified r ops := by
  obtain ⟨hof, hnamed⟩ := isOf_of_build h
  have hbegun := begunInOrder_of_build h
  constructor
  case size => exact hof.size
  case op? => exact hof.op?
  case inputs =>
    intro j op hop
    rw [hof.inputs, producersOf_eq hop]
  case outputs =>
    intro i
    simp only [hof.inputs]
    exact hof.outputs i
  case forward => exact hof.wellLinked.forward
  case acyclic => exact hof.acyclic
  case positions =>
    intro e he
    rw [hof.group_eq he]
    exact ⟨rfl, pairwise_occurrencesOf e.1⟩
  case occurring =>
    intro op hop
    obtain ⟨i, hi⟩ := List.mem_iff_getElem?.mp hop
    obtain ⟨e, he, hmem⟩ := hof.exists_group hi (hnamed op hop)
    rw [hof.group_eq he] at hmem
    obtain ⟨op', hop', hsame⟩ := mem_occurrencesOf.mp hmem
    rw [hi] at hop'
    cases hop'
    exact ⟨e, he, hsame⟩
  case spelled =>
    intro e he
    obtain ⟨i, rest, heq, -, hspelled⟩ := hbegun.begun e he
    exact ⟨i, rest, heq, hspelled⟩
  case ordered =>
    refine (List.pairwise_map.mp hbegun.ascending).imp_of_mem fun {e f} he hf hlt => ?_
    obtain ⟨i, rest, hfirst, -⟩ := hbegun.begun e he
    obtain ⟨j, later, hsecond, -⟩ := hbegun.begun f hf
    rw [hfirst, hsecond] at hlt
    have hij : i < j := hlt
    have hascending : (occurrencesOf ops f.1).Pairwise (· < ·) := pairwise_occurrencesOf f.1
    rw [← hof.group_eq hf, hsecond] at hascending
    refine ⟨i, by simp [hfirst], fun m hm => ?_⟩
    rw [hsecond] at hm
    rcases List.mem_cons.mp hm with rfl | hm
    · exact hij
    · exact Nat.lt_trans hij ((List.pairwise_cons.mp hascending).1 m hm)
  case partition => exact hof.partition hnamed

/-- The graph of registered operators can be built, and it is the one that is specified. The last
writers that its edges come from are the greatest positions before a reader at which a name is
written. -/
theorem build_specified (hregistered : ∀ op ∈ ops, op.IsRegistered r) :
    ∃ g, Graph.build r ops = .ok g ∧ g.IsSpecified r ops ∧ ∀ name j w,
      lastWriter r ops name j = some w ↔ IsGreatest (writersBefore r ops name j) w := by
  obtain ⟨g, hg⟩ := exists_build hregistered
  exact ⟨g, hg, isSpecified_of_build hg, fun _ _ _ => lastWriter_isGreatest⟩

end Graph

/-- A name that is written over by an operator which reads it, and then read twice by another. -/
def rewrittenName : List Op := [
  .ofTexts "conv2d" [("Input", ["x"])] [("Output", ["a"])] [("Filter", ["w"])],
  .ofTexts "relu" [("X", ["a"])] [("Out", ["a"])],
  .ofTexts "elementwise_add" [("X", ["a"]), ("Y", ["a"])] [("Out", ["b"])],
  .ofTexts "relu" [("X", ["b"])] [("Out", ["c"])]]

theorem build_specified_rewrittenName :
    (∀ op ∈ rewrittenName, op.IsRegistered .standard) ∧
    ∃ g, Graph.build .standard rewrittenName = .ok g ∧ g.IsSpecified .standard rewrittenName := by
  have hregistered : ∀ op ∈ rewrittenName, op.IsRegistered .standard := by decide
  obtain ⟨g, hg, hspecified, -⟩ := Graph.build_specified hregistered
  exact ⟨hregistered, g, hg, hspecified⟩

end TensorFusion
