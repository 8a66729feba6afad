import TensorFusion.Proofs.Pass.Answers
import TensorFusion.Proofs.Pass.Composed
import TensorFusion.Proofs.Pass.History

/-!
# Proofs — Pass — Interleaved

A program in which the operators of two programs that share no tensor are interleaved in any way.
Its optimization is that of the one program beside that of the other: the same operators come out,
in the order of the positions that are left, and what is counted adds up.
-/

namespace TensorFusion

/-- The operators with one of the two marks, in order. -/
def partOf (mark : Bool) (ms : List (Bool × Op)) : List Op :=
  (ms.filter fun m => m.1 == mark).map (·.2)

/-- The mark at a position. -/
def markAt (ms : List (Bool × Op)) (i : Nat) : Bool := (ms[i]?).any (·.1)

/-- Two operators have no name in common in their input and output slots. -/
def Op.SharesNoName (op op' : Op) : Prop :=
  ∀ n ∈ op.inputs.names ++ op.outputs.names, ∀ n' ∈ op'.inputs.names ++ op'.outputs.names,
    n.same n' = false

instance (op op' : Op) : Decidable (op.SharesNoName op') :=
  inferInstanceAs (Decidable (∀ n ∈ op.inputs.names ++ op.outputs.names,
    ∀ n' ∈ op'.inputs.names ++ op'.outputs.names, n.same n' = false))

/-! ## Positions and marks -/

section Marks

variable {side : Nat → Bool} {ms : List (Bool × Op)} {mark : Bool}

theorem markAt_of_getElem? {i : Nat} {m : Bool × Op} (h : ms[i]? = some m) : markAt ms i = m.1 := by
  rw [markAt, h]
  rfl

/-- Where the sides are those of a mark, the operators on the side are those with the mark. -/
theorem opsOn_eq_partOf (h : ∀ (i : Nat) m, ms[i]? = some m → side i = (m.1 == mark)) :
    opsOn side (ms.map (·.2)) = partOf mark ms := by
  -- From the end, since a new last operator leaves the positions of the others as they are.
  induction ms using List.reverseRecOn with
  | nil => rfl
  | append_singleton ms m ih =>
    have hfront : ∀ (i : Nat) m', ms[i]? = some m' → side i = (m'.1 == mark) := by
      intro i m' hm'
      refine h i m' ?_
      rw [List.getElem?_append_left (List.getElem?_eq_some_iff.mp hm').1, hm']
    have hlast : side ms.length = (m.1 == mark) := h ms.length m (by simp)
    have hbefore : (positionsOf side ms.length).filterMap
          (fun i => ((ms ++ [m]).map (·.2))[i]?) = opsOn side (ms.map (·.2)) := by
      rw [opsOn, List.length_map]
      refine List.filterMap_congr fun i hi => ?_
      rw [List.map_append, List.getElem?_append_left]
      simpa using (mem_positionsOf.mp hi).1
    rw [opsOn, List.length_map, List.length_append, List.length_singleton, positionsOf_succ,
      List.filterMap_append, hbefore, ih hfront, hlast]
    cases hmark : m.1 == mark <;> simp [partOf, hmark]

/-- What is left of some positions, with its marks, is left of those of each mark. -/
theorem partOf_filterMap (ks : List Nat) (q : Nat → Option Op) (marks : Nat → Bool) (mark : Bool) :
    partOf mark (ks.filterMap fun i => (q i).map fun op => (marks i, op))
      = (ks.filter fun i => marks i == mark).filterMap q := by
  induction ks with
  | nil => rfl
  | cons k ks ih =>
    cases hq : q k with
    | none =>
      cases hmark : marks k == mark <;> simp [hq, hmark, ih]
    | some op =>
      have hcons : partOf mark ((marks k, op) ::
            ks.filterMap fun i => (q i).map fun op => (marks i, op))
          = (if marks k == mark then [op] else []) ++ (ks.filter fun i => marks i == mark).filterMap q
          := by
        rw [← ih]
        cases hmark : marks k == mark <;> simp [partOf, hmark]
      rw [List.filterMap_cons, hq]
      cases hmark : marks k == mark <;> simpa [hq, hmark] using hcons

/-- The numbers of the positions on a side that are left are left in the part. -/
theorem survivorsOf_map_placeOf (side : Nat → Bool) (removed : List Nat) (n : Nat) :
    survivorsOf ((removed.filter side).map (placeOf side)) (placeOf side n)
      = ((survivorsOf removed n).filter side).map (placeOf side) := by
  have hrange : List.range (placeOf side n) = (positionsOf side n).map (placeOf side) := by
    induction n with
    | zero => rfl
    | succ n ih =>
      rw [placeOf_succ, positionsOf_succ, List.map_append, ← ih]
      cases side n <;> simp [List.range_succ]
  rw [survivorsOf, hrange, List.filter_map, survivorsOf, List.filter_filter, positionsOf,
    List.filter_filter]
  refine congrArg _ (List.filter_congr fun i _ => ?_)
  cases hi : side i with
  | false => simp
  | true =>
    have hmem : placeOf side i ∈ (removed.filter side).map (placeOf side) ↔ i ∈ removed := by
      rw [mem_map_placeOf hi fun k hk => (List.mem_filter.mp hk).2, List.mem_filter]
      exact and_iff_left hi
    simp only [Function.comp_apply, hmem, Bool.and_true, Bool.true_and]

end Marks

/-! ## Parts of a program -/

section Parts

variable {r : Registry} {ms : List (Bool × Op)}

theorem opsOn_markAt (ms : List (Bool × Op)) : opsOn (markAt ms) (ms.map (·.2)) = partOf true ms :=
  opsOn_eq_partOf fun i m hm => by
    rw [markAt_of_getElem? hm]
    exact (beq_true m.1).symm

theorem opsOn_not_markAt (ms : List (Bool × Op)) :
    opsOn (fun i => !markAt ms i) (ms.map (·.2)) = partOf false ms :=
  opsOn_eq_partOf fun i m hm => by
    rw [markAt_of_getElem? hm]
    exact (beq_false m.1).symm

/-- What is read on one side is not written on the other, where the sides share no name. -/
theorem isApart_markAt (h : ∀ m ∈ ms, ∀ m' ∈ ms, m.1 ≠ m'.1 → m.2.SharesNoName m'.2) :
    IsApart r (markAt ms) (ms.map (·.2)) := by
  intro i j op op' hop hop' hne n hn
  rw [List.getElem?_map, Option.map_eq_some_iff] at hop hop'
  obtain ⟨m, hm, rfl⟩ := hop
  obtain ⟨m', hm', rfl⟩ := hop'
  rw [markAt_of_getElem? hm, markAt_of_getElem? hm'] at hne
  have hshares := h m' (List.mem_of_getElem? hm') m (List.mem_of_getElem? hm) hne.symm
  rw [Bool.eq_false_iff]
  intro hwrites
  obtain ⟨n', hn', hsame⟩ := Registry.writesName_iff.mp hwrites
  have hother := hshares n' (List.mem_append_right _ (mem_names_of_mem_select hn')) n
    (List.mem_append_left _ (mem_names_of_mem_select hn))
  rw [hsame] at hother
  cases hother

theorem mem_of_mem_partOf {mark : Bool} {op : Op} (h : op ∈ partOf mark ms) :
    op ∈ ms.map (·.2) := by
  obtain ⟨m, hm, rfl⟩ := List.mem_map.mp h
  exact List.mem_map_of_mem (List.mem_filter.mp hm).1

end Parts

/-- The operators that a pass leaves, each with its mark. -/
def Pass.marked (side : Nat → Bool) (s : Pass) : List (Bool × Op) :=
  (survivorsOf s.removed s.arena.size).filterMap fun i => (s.arena.op? i).map fun op => (side i, op)

section Marked

variable {side : Nat → Bool} {g : Graph} {base : Table Nat} {s s₁ s₂ : Pass}

theorem Pass.map_marked (side : Nat → Bool) (s : Pass) :
    (s.marked side).map (·.2) = (survivorsOf s.removed s.arena.size).filterMap s.arena.op? := by
  rw [marked, List.map_filterMap]
  refine List.filterMap_congr fun i _ => ?_
  cases s.arena.op? i <;> rfl

theorem Pass.marks_marked (side : Nat → Bool) (s : Pass) :
    (s.marked side).map (·.1) = (survivorsOf s.removed s.arena.size).map side := by
  rw [marked, List.map_filterMap, ← List.filterMap_eq_map]
  refine List.filterMap_congr fun i hi => ?_
  obtain ⟨op, hop⟩ := Arena.op?_of_lt (mem_survivorsOf.mp hi).1
  rw [hop]
  rfl

/-- The operators that are left in a part are those that are left on its side. -/
theorem Pass.IsPart.survivors (h : s.IsPart side s₁) :
    (survivorsOf s₁.removed s₁.arena.size).filterMap s₁.arena.op?
      = ((survivorsOf s.removed s.arena.size).filter side).filterMap s.arena.op? := by
  rw [h.removed, h.arena.size, survivorsOf_map_placeOf, List.filterMap_map]
  exact List.filterMap_congr fun i hi => h.arena.op? i (List.mem_filter.mp hi).2

theorem Pass.IsComposed.partOf_true (h : IsComposed side g base s s₁ s₂) :
    partOf true (s.marked side)
      = (survivorsOf s₁.removed s₁.arena.size).filterMap s₁.arena.op? := by
  rw [h.left.survivors, marked, partOf_filterMap]
  simp only [beq_true]

theorem Pass.IsComposed.partOf_false (h : IsComposed side g base s s₁ s₂) :
    partOf false (s.marked side)
      = (survivorsOf s₂.removed s₂.arena.size).filterMap s₂.arena.op? := by
  rw [h.right.survivors, marked, partOf_filterMap]
  simp only [beq_false]

end Marked

/-! ## Optimizations -/

/-- A run comes to a result, the one block of which has some operators. -/
def Run.GivesOps (run : Run) (ops : List Op) : Prop :=
  ∃ out, run.result = .ok out ∧ out.program.blocks.map (·.ops) = [ops]

namespace Optimizer

variable {o : Optimizer} {p : Program} {block : Block} {g : Graph} {s : Pass}

theorem isOk_runOn (o : Optimizer) (block : Block) (g : Graph) :
    (o.runOn block g).result.isOk = (o.fusePass g).isOk := by
  cases hs : o.fusePass g with
  | ok s => simp only [runOn, hs, Except.isOk, Except.toBool]
  | error stop => simp only [runOn, hs, Except.isOk, Except.toBool]

/-- A run with a pass that comes to an end gives the operators that are left. -/
theorem givesOps_runOn (hs : o.fusePass g = .ok s) (block : Block) :
    (o.runOn block g).GivesOps ((survivorsOf s.removed s.arena.size).filterMap s.arena.op?) := by
  simp only [runOn, hs, ← Pass.survivors_eq]
  exact ⟨_, rfl, rfl⟩

theorem stats_runOn (hs : o.fusePass g = .ok s) (block : Block) :
    (o.runOn block g).optimizer.stats = finishedStats o.stats s := by
  simp only [runOn, hs]

/-- The positions that a program keeps when it is optimized. -/
def keptIn (o : Optimizer) (p : Program) (n : Nat) : List Nat :=
  survivorsOf (removedAfter [] (o.fusions p)) n

theorem keptIn_eq (hblock : p.blocks = [block]) (hg : Graph.build o.registry block.ops = .ok g)
    (hs : o.fusePass g = .ok s) (n : Nat) : o.keptIn p n = survivorsOf s.removed n := by
  rw [keptIn, fusions_eq hblock hg, ← (o.isLeft_of_fusePass hs).2]

end Optimizer

/-- The optimization of an interleaving is that of its left part beside that of its right. -/
structure Optimizer.RunsApart (o : Optimizer) (ms : List (Bool × Op))
    (whole left right : Program) : Prop where
  /-- The whole comes to a result just where both parts do. -/
  isOk_iff : (o.optimize whole).result.isOk = true ↔
    (o.optimize left).result.isOk = true ∧ (o.optimize right).result.isOk = true
  /-- It comes to one where the optimizer is well typed. -/
  isOk : o.IsTyped → (o.optimize whole).result.isOk = true
  /-- The operators that are left of the whole, with their marks, are those left of the parts. -/
  ops : (o.optimize whole).result.isOk = true → ∃ kept : List (Bool × Op),
    kept.map (·.1) = (o.keptIn whole ms.length).map (markAt ms) ∧
    (o.optimize whole).GivesOps (kept.map (·.2)) ∧
    (o.optimize left).GivesOps (partOf true kept) ∧
    (o.optimize right).GivesOps (partOf false kept)
  /-- They stand at the same positions, as counted in the parts. -/
  kept : (o.optimize whole).result.isOk = true →
    o.keptIn left (partOf true ms).length
      = ((o.keptIn whole ms.length).filter (markAt ms)).map (placeOf (markAt ms)) ∧
    o.keptIn right (partOf false ms).length
      = ((o.keptIn whole ms.length).filter fun i => !markAt ms i).map
          (placeOf fun i => !markAt ms i)
  /-- What is counted for the whole is what is counted for both parts. -/
  counts : (o.optimize whole).result.isOk = true →
    (o.optimize whole).optimizer.stats.removedOps + o.stats.removedOps
      = (o.optimize left).optimizer.stats.removedOps
        + (o.optimize right).optimizer.stats.removedOps ∧
    o.stats.fused.IsSum (o.optimize whole).optimizer.stats.fused
      (o.optimize left).optimizer.stats.fused (o.optimize right).optimizer.stats.fused

/-- The graphs of a whole and of its parts can be built, and the passes over them go together. -/
theorem Optimizer.exists_joint {o : Optimizer} {ms : List (Bool × Op)}
    (hshares : ∀ m ∈ ms, ∀ m' ∈ ms, m.1 ≠ m'.1 → m.2.SharesNoName m'.2)
    (hregistered : ∀ m ∈ ms, m.2.IsRegistered o.registry)
    (hTypes : ∀ m ∈ ms, m.2.opType.isString = true)
    (hfused : ∀ t ∈ o.catalog.templates, t.fusedType.isString = true) :
    ∃ g g₁ g₂, Graph.build o.registry (ms.map (·.2)) = .ok g ∧
      Graph.build o.registry (partOf true ms) = .ok g₁ ∧
      Graph.build o.registry (partOf false ms) = .ok g₂ ∧
      g.IsSound ∧ g.arena.size = ms.length ∧
      Joint (Pass.IsComposed (markAt ms) g o.stats.fused) (o.fusePass g) (o.fusePass g₁)
        (o.fusePass g₂) := by
  have hops : ∀ op ∈ ms.map (·.2), op.IsRegistered o.registry := List.forall_mem_map.mpr hregistered
  obtain ⟨g, hg⟩ := Graph.exists_build hops
  obtain ⟨g₁, hg₁⟩ := Graph.exists_build fun op (hop : op ∈ partOf true ms) =>
    hops op (mem_of_mem_partOf hop)
  obtain ⟨g₂, hg₂⟩ := Graph.exists_build fun op (hop : op ∈ partOf false ms) =>
    hops op (mem_of_mem_partOf hop)
  have hgraph := (Graph.isOf_of_build hg).1
  have hgraph₁ := (Graph.isOf_of_build hg₁).1
  have hgraph₂ := (Graph.isOf_of_build hg₂).1
  have hsound := hgraph.isSound (List.forall_mem_map.mpr hTypes)
  have hlength : g.arena.size = ms.length := by rw [hgraph.size, List.length_map]
  refine ⟨g, g₁, g₂, hg, hg₁, hg₂, hsound, hlength, ?_⟩
  refine fusePass_joint hfused (isApart_markAt hshares) hgraph hsound ?_ ?_
  · rwa [opsOn_markAt]
  · rwa [opsOn_not_markAt]

/-- Parts of a program that share no tensor are optimized as if each stood alone, whatever the
registry, the templates and the settings are. -/
theorem Optimizer.runsApart {o : Optimizer} {ms : List (Bool × Op)} {whole left right : Program}
    {vars vars₁ vars₂ : List Variable}
    (hwhole : whole.blocks = [{ vars, ops := ms.map (·.2) }])
    (hleft : left.blocks = [{ vars := vars₁, ops := partOf true ms }])
    (hright : right.blocks = [{ vars := vars₂, ops := partOf false ms }])
    (hshares : ∀ m ∈ ms, ∀ m' ∈ ms, m.1 ≠ m'.1 → m.2.SharesNoName m'.2)
    (hregistered : ∀ m ∈ ms, m.2.IsRegistered o.registry)
    (hTypes : ∀ m ∈ ms, m.2.opType.isString = true)
    (hfused : ∀ t ∈ o.catalog.templates, t.fusedType.isString = true) :
    o.RunsApart ms whole left right := by
  -- The passes go together, so whatever is asked is asked of three states that are composed.
  obtain ⟨g, g₁, g₂, hg, hg₁, hg₂, hsound, hlength, hjoint⟩ :=
    exists_joint hshares hregistered hTypes hfused
  have hrun := optimize_of_build hwhole hg
  have hrun₁ := optimize_of_build hleft hg₁
  have hrun₂ := optimize_of_build hright hg₂
  have hcomposed : (o.optimize whole).result.isOk = true → ∃ s s₁ s₂, o.fusePass g = .ok s ∧
      o.fusePass g₁ = .ok s₁ ∧ o.fusePass g₂ = .ok s₂ ∧
      Pass.IsComposed (markAt ms) g o.stats.fused s s₁ s₂ := fun hok => by
    rw [hrun, isOk_runOn] at hok
    exact hjoint.exists_of_isOk hok
  refine ⟨?_, fun ho => ?_, fun hok => ?_, fun hok => ?_, fun hok => ?_⟩
  · rw [hrun, hrun₁, hrun₂, isOk_runOn, isOk_runOn, isOk_runOn]
    exact hjoint.isOk_iff
  · obtain ⟨s, hs⟩ := exists_fusePass hsound ho.canRun fun _ t _ => ho.exists_disables t.name
    rw [hrun, isOk_runOn, hs]
    rfl
  · obtain ⟨s, s₁, s₂, hs, hs₁, hs₂, hc⟩ := hcomposed hok
    refine ⟨s.marked (markAt ms), ?_, ?_, ?_, ?_⟩
    · rw [Pass.marks_marked, keptIn_eq hwhole hg hs, hc.sound.size, hlength]
    · rw [hrun, Pass.map_marked]
      exact givesOps_runOn hs _
    · rw [hrun₁, hc.partOf_true]
      exact givesOps_runOn hs₁ _
    · rw [hrun₂, hc.partOf_false]
      exact givesOps_runOn hs₂ _
  · obtain ⟨s, s₁, s₂, hs, hs₁, hs₂, hc⟩ := hcomposed hok
    rw [keptIn_eq hwhole hg hs, keptIn_eq hleft hg₁ hs₁, keptIn_eq hright hg₂ hs₂, hc.left.removed,
      hc.right.removed, ← opsOn_markAt, ← opsOn_not_markAt, length_opsOn, length_opsOn,
      List.length_map]
    exact ⟨survivorsOf_map_placeOf _ _ _, survivorsOf_map_placeOf _ _ _⟩
  · obtain ⟨s, s₁, s₂, hs, hs₁, hs₂, hc⟩ := hcomposed hok
    rw [hrun, hrun₁, hrun₂, stats_runOn hs, stats_runOn hs₁, stats_runOn hs₂]
    refine ⟨?_, hc.fused⟩
    have hsum := List.length_eq_length_filter_add (l := s.removed) (markAt ms)
    simp only [finishedStats, startedStats, hc.left.removed, hc.right.removed, List.length_map]
    omega

/-- Two branches of which one reads the other, with a chain of other tensors between them. -/
def chainBetween : List (Bool × Op) :=
  [(true, .ofTexts "relu" [("X", ["x"])] [("Out", ["a"])]),
    (false, .ofTexts "relu" [("X", ["u"])] [("Out", ["v"])]),
    (true, .ofTexts "sigmoid" [("X", ["a"])] [("Out", ["b"])]),
    (false, .ofTexts "elementwise_add" [("X", ["v", "w"])] [("Out", ["z"])]),
    (true, .ofTexts "elementwise_add" [("X", ["a", "b"])] [("Out", ["s"])])]

/-- The branches are fused twice at one root, as they are alone, and the chain once. -/
theorem runsApart_chainBetween :
    (∀ m ∈ chainBetween, ∀ m' ∈ chainBetween, m.1 ≠ m'.1 → m.2.SharesNoName m'.2) ∧
    ((Optimizer.withTemplates branching).optimize
      (.ofOps (chainBetween.map (·.2)))).result.isOk = true ∧
    ((Optimizer.withTemplates branching).fusions (.ofOps (chainBetween.map (·.2)))).map (·.root)
      = [0, 0, 1] ∧
    (Optimizer.withTemplates branching).RunsApart chainBetween (.ofOps (chainBetween.map (·.2)))
      (.ofOps (partOf true chainBetween)) (.ofOps (partOf false chainBetween)) := by
  have hshares : ∀ m ∈ chainBetween, ∀ m' ∈ chainBetween, m.1 ≠ m'.1 → m.2.SharesNoName m'.2 := by
    decide +kernel
  have hregistered : ∀ m ∈ chainBetween, m.2.IsRegistered (Optimizer.withTemplates branching).registry
      := by decide +kernel
  exact ⟨hshares, by decide +kernel, by decide +kernel,
    Optimizer.runsApart rfl rfl rfl hshares hregistered (by decide +kernel) (by decide +kernel)⟩

end TensorFusion
