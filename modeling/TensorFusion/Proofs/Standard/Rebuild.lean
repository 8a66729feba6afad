import TensorFusion.Proofs.Pass.Renumber
import TensorFusion.Proofs.Standard.Writers

/-!
# Proofs — Standard — Rebuild

The graph of the result. While operators are fused edges are changed by position; the graph of the
result is built from names. The two agree wherever every read that is left sees the write that it
saw before.
-/

namespace TensorFusion

/-- Every declared read that is left sees in the result the write that it saw in the program. -/
def KeepsWriters (ops result : List Op) (fs : List Fusion) : Prop :=
  ∀ x < (positionsLeft fs ops.length).length, ∀ s ∈ (positionsLeft fs ops.length)[x]?,
    ∀ op ∈ ops[s]?, ∀ b ∈ Value.atoms (Registry.standard.reads op),
      lastWriterLeft fs result (positionsLeft fs ops.length) b x
        = lastWriter .standard ops (.atom b) s

instance (ops result : List Op) (fs : List Fusion) : Decidable (KeepsWriters ops result fs) :=
  inferInstanceAs (Decidable (∀ x < (positionsLeft fs ops.length).length,
    ∀ s ∈ (positionsLeft fs ops.length)[x]?, ∀ op ∈ ops[s]?, ∀ b ∈ Value.atoms _, _ = _))

/-- Lists that are mapped to the same by what tells their elements apart are equal. -/
private theorem eq_of_map_eq {α β : Type} {f : α → β} {as bs : List α}
    (hf : ∀ a ∈ as, ∀ b ∈ bs, f a = f b → a = b) (h : as.map f = bs.map f) : as = bs := by
  induction as generalizing bs with
  | nil => exact (List.map_eq_nil_iff.mp h.symm).symm
  | cons a as ih =>
    cases bs with
    | nil => cases h
    | cons b bs =>
      obtain ⟨hhead, hrest⟩ := List.cons.inj h
      rw [hf a (by simp) b (by simp) hhead,
        ih (fun a' ha' b' hb' => hf a' (by simp [ha']) b' (by simp [hb'])) hrest]

namespace StandardRun

variable {ops : List Op} {fs : List Fusion} {g : Graph} {a : Arena} {removed : List Nat}
  {x s i : Nat}

theorem positionsLeft_nodup : (positionsLeft fs a.size).Nodup :=
  (survivorsOf_pairwise _ _).imp fun hlt => Nat.ne_of_lt hlt

theorem positionsLeft_lt : ∀ i ∈ positionsLeft fs a.size, i < a.size :=
  fun _ hi => (mem_survivorsOf.mp hi).1

/-- The positions of the result are the places of what is left. -/
theorem range_length_positionsLeft : List.range (positionsLeft fs a.size).length
    = (positionsLeft fs a.size).map fun k => (positionsLeft fs a.size).idxOf k := by
  refine List.ext_getElem (by simp) fun x hx _ => ?_
  rw [List.getElem_range, List.getElem_map, positionsLeft_nodup.idxOf_getElem]

/-- What is at a place is found at that place. -/
theorem idxOf_positionsLeft (hx : (positionsLeft fs a.size)[x]? = some s) :
    (positionsLeft fs a.size).idxOf s = x := by
  obtain ⟨hlt, rfl⟩ := List.getElem?_eq_some_iff.mp hx
  exact positionsLeft_nodup.idxOf_getElem x hlt

/-- No edge leads out of what is left. -/
theorem outputs_mem_positionsLeft (h : StandardRun ops fs g a removed)
    (hs : s ∈ positionsLeft fs a.size) : ∀ k ∈ a.outputs s, k ∈ positionsLeft fs a.size := by
  intro k hk
  obtain ⟨-, hlive⟩ := h.mem_positionsLeft.mp hs
  have hrange := h.shot.live.range h.graph.wellLinked hlive hk
  rw [h.size] at hrange
  exact h.mem_positionsLeft.mpr ⟨hrange, h.shot.live.live_of_mem_outputs hlive hk⟩

theorem inputs_mem_positionsLeft (h : StandardRun ops fs g a removed)
    (hs : s ∈ positionsLeft fs a.size) : ∀ i ∈ a.inputs s, i ∈ positionsLeft fs a.size := by
  intro i hi
  obtain ⟨hlt, hlive⟩ := h.mem_positionsLeft.mp hs
  have hiLive := h.shot.live.inputs_live s hlive i hi
  have hlink := (h.shot.live.mem_inputs_iff h.graph.wellLinked hiLive hlive).mp hi
  have his := h.shot.live.forward h.graph.wellLinked hiLive hlink
  exact h.mem_positionsLeft.mpr ⟨Nat.lt_trans his hlt, hiLive⟩

/-! ## Edges -/

section Keeps

variable (h : StandardRun ops fs g a removed) (hkeeps : KeepsWriters ops (left a fs) fs)
include h hkeeps

/-- The producers of an operator in the graph of the result are those that it has in the rewritten
arena. -/
theorem producersOf_left (hx : (positionsLeft fs a.size)[x]? = some s) :
    producersOf .standard (left a fs) x
      = (a.inputs s).map fun i => (positionsLeft fs a.size).idxOf i := by
  obtain ⟨hlt, hlive⟩ := h.mem_positionsLeft.mp (List.mem_of_getElem? hx)
  have hxlt : x < (positionsLeft fs a.size).length := (List.getElem?_eq_some_iff.mp hx).1
  obtain ⟨op', hop', hleft⟩ := exists_op_left hx
  obtain ⟨op, hop, hreads⟩ := h.reads_eq hop'
  -- What was found in the program is found in the result, at its place.
  have hwriters : (producersOf .standard (left a fs) x).filterMap
      (fun y => (positionsLeft fs a.size)[y]?.map (tailOf fs)) = producersOf .standard ops s := by
    rw [producersOf_eq hleft, producersOf_eq hop, hreads, List.filterMap_filterMap]
    refine List.filterMap_congr fun n hn => ?_
    obtain ⟨b, rfl⟩ := (h.named op (List.mem_of_getElem? hop)).reads n hn
    have hkept := hkeeps x (by rwa [← h.size]) s (by rwa [← h.size]) op hop b
      (Value.mem_atoms.mpr hn)
    rw [← h.size] at hkept
    exact hkept
  have htails : ((producersOf .standard (left a fs) x).filterMap
      fun y => (positionsLeft fs a.size)[y]?).map (tailOf fs) = (a.inputs s).map (tailOf fs) := by
    rw [List.map_filterMap, hwriters, h.shot.live.inputs s hlive, h.graph.inputs]
  have hinputs : ((producersOf .standard (left a fs) x).filterMap
      fun y => (positionsLeft fs a.size)[y]?) = a.inputs s := by
    refine eq_of_map_eq (fun i hi j hj => ?_) htails
    obtain ⟨y, -, hy⟩ := List.mem_filterMap.mp hi
    exact h.shot.live.tail_inj i j (h.mem_positionsLeft.mp (List.mem_of_getElem? hy)).2
      (h.shot.live.inputs_live s hlive j hj)
  rw [← hinputs, List.map_filterMap]
  have hself : ∀ y ∈ producersOf .standard (left a fs) x,
      (positionsLeft fs a.size)[y]?.map (fun i => (positionsLeft fs a.size).idxOf i) = some y := by
    intro y hy
    have hylt : y < (positionsLeft fs a.size).length :=
      Nat.lt_trans (lt_of_mem_producersOf hy) hxlt
    rw [List.getElem?_eq_getElem hylt, Option.map_some, positionsLeft_nodup.idxOf_getElem]
  rw [List.filterMap_congr hself, List.filterMap_some]

theorem count_producersOf_left {z k : Nat} (hx : (positionsLeft fs a.size)[x]? = some s)
    (hz : (positionsLeft fs a.size)[z]? = some k) :
    (producersOf .standard (left a fs) z).count x
      = (producersOf .standard ops k).count (tailOf fs s) := by
  obtain ⟨hslt, hs⟩ := h.mem_positionsLeft.mp (List.mem_of_getElem? hx)
  obtain ⟨hklt, hk⟩ := h.mem_positionsLeft.mp (List.mem_of_getElem? hz)
  rw [h.producersOf_left hkeeps hz, ← h.graph.inputs, ← h.shot.live.count_inputs hs hk,
    List.count, List.count, List.countP_map]
  refine List.countP_congr fun i hi => ?_
  have hmem := h.inputs_mem_positionsLeft (List.mem_of_getElem? hz) i hi
  have hiff : (positionsLeft fs a.size).idxOf i = x ↔ i = s := by
    rw [← idxOf_positionsLeft hx]
    exact List.idxOf_inj hmem
  simp [hiff]

/-- The consumers of an operator in the graph of the result are those that it has in the rewritten
arena. -/
theorem consumersOf_left (hx : (positionsLeft fs a.size)[x]? = some s) :
    consumersOf .standard (left a fs) (left a fs).length x
      = (a.outputs s).map fun i => (positionsLeft fs a.size).idxOf i := by
  have hlength : (left a fs).length = (positionsLeft fs a.size).length := a.length_survivors _
  have hs := (h.mem_positionsLeft.mp (List.mem_of_getElem? hx)).2
  have houtputs : a.outputs s = (positionsLeft fs a.size).flatMap fun k =>
      List.replicate ((producersOf .standard ops k).count (tailOf fs s)) k := by
    rw [h.shot.live.outputs s hs, h.graph.outputs, filter_consumersOf, h.shot.removed_eq, h.size]
    rfl
  rw [consumersOf, hlength, range_length_positionsLeft, houtputs, List.map_flatMap,
    List.flatMap_map]
  refine List.flatMap_congr fun k hk => ?_
  rw [h.count_producersOf_left hkeeps hx (List.getElem?_idxOf hk), List.map_replicate]

end Keeps

/-! ## The graph of the result -/

/-- A fused operator writes no name that the last of its operators did not write. -/
theorem writes_subset (h : StandardRun ops fs g a removed) {op' : Op} (hop : a.op? i = some op') :
    ∃ op ∈ ops, ∀ n ∈ Registry.standard.writes op', n ∈ Registry.standard.writes op := by
  obtain ⟨op, htail, houtputs, hslots⟩ := h.outputs_eq hop
  refine ⟨op, List.mem_of_getElem? htail, fun n hn => ?_⟩
  obtain ⟨slot, hslot, hn⟩ := List.mem_flatMap.mp hn
  rw [hslots] at hslot
  refine List.mem_flatMap.mpr ⟨slot, hslot, ?_⟩
  rcases houtputs with houtputs | houtputs
  · rwa [houtputs] at hn
  · have hget : Table.get? op'.outputs slot = (op.outputs.get? slot).map (appendNew []) := by
      rw [houtputs]
      exact Slots.get?_join_empty ..
    rw [hget] at hn
    cases hnames : op.outputs.get? slot with
    | none => simp [hnames] at hn
    | some names =>
      rw [hnames] at hn
      exact (mem_of_mem_appendNew hn).resolve_left (by simp)

/-- The operators of the result are registered. -/
theorem isRegistered (h : StandardRun ops fs g a removed)
    (hregistered : ∀ op ∈ ops, op.IsRegistered .standard) {op' : Op} (hop : a.op? i = some op') :
    op'.IsRegistered .standard := by
  have hfused : ∀ s ∈ fusedTypes,
      (Registry.standard.lookup (.text s) >>= Signature.slotKeys).isOk = true := by decide +kernel
  rcases h.op_cases hop with ⟨-, hop⟩ | ⟨f, hf, rfl, op, -, -, rfl⟩
  · exact hregistered op' (List.mem_of_getElem? hop)
  · obtain ⟨s, hs, hType⟩ := h.opIn_hasType hf op
    obtain ⟨slots, hslots⟩ := exists_ok_of_isOk (hfused s hs)
    obtain ⟨signature, hsignature, hkeys⟩ := bind_eq_ok.mp hslots
    refine ⟨⟨signature, hType ▸ hsignature, slots, hkeys⟩, ⟨_, hType⟩, fun n hn => ?_,
      fun n hn => ?_⟩
    · obtain ⟨op₀, hop₀, hreads⟩ := h.reads_eq hop
      exact (h.named op₀ (List.mem_of_getElem? hop₀)).reads n (hreads ▸ hn)
    · obtain ⟨op₀, hop₀, hwrites⟩ := h.writes_subset hop
      exact (h.named op₀ hop₀).writes n (hwrites n hn)

theorem length_left_le (hx : (positionsLeft fs a.size)[x]? = none) : (left a fs).length ≤ x := by
  rw [← List.getElem?_eq_none_iff, getElem?_left, hx]
  rfl

theorem isRegistered_left (h : StandardRun ops fs g a removed)
    (hregistered : ∀ op ∈ ops, op.IsRegistered .standard) :
    ∀ op' ∈ left a fs, op'.IsRegistered .standard := by
  intro op' hop'
  obtain ⟨i, -, hi⟩ := List.mem_filterMap.mp hop'
  exact h.isRegistered hregistered hi

/-- The graph of the result is what is left of the rewritten arena, numbered anew. -/
theorem build_left (h : StandardRun ops fs g a removed)
    (hregistered : ∀ op ∈ ops, op.IsRegistered .standard)
    (hkeeps : KeepsWriters ops (left a fs) fs) :
    ∃ g', Graph.build .standard (left a fs) = .ok g' ∧
      g'.arena = a.renumber (positionsLeft fs a.size) := by
  obtain ⟨g', hg'⟩ := Graph.exists_build (h.isRegistered_left hregistered)
  obtain ⟨hgraph, -⟩ := Graph.isOf_of_build hg'
  refine ⟨g', hg', Arena.ext_columns (fun x => ?_) (fun x => ?_) fun x => ?_⟩
  · rw [hgraph.op?, getElem?_left, Arena.op?_renumber positionsLeft_lt]
  · rw [hgraph.inputs]
    cases hx : (positionsLeft fs a.size)[x]? with
    | none =>
      rw [producersOf_eq_nil (length_left_le hx), (Arena.renumber_eq_nil positionsLeft_lt hx).1]
    | some s => rw [h.producersOf_left hkeeps hx, Arena.inputs_renumber positionsLeft_lt hx]
  · rw [hgraph.outputs]
    cases hx : (positionsLeft fs a.size)[x]? with
    | none =>
      rw [consumersOf_eq_nil (length_left_le hx), (Arena.renumber_eq_nil positionsLeft_lt hx).2]
    | some s => rw [h.consumersOf_left hkeeps hx, Arena.outputs_renumber positionsLeft_lt hx]

/-- Where each name is written once, and not read before, every read sees the write that it saw. -/
theorem keepsWriters_of_isWrittenOnce (h : StandardRun ops fs g a removed)
    (honce : ∀ b, IsWrittenOnce ops b) : KeepsWriters ops (left a fs) fs := by
  intro x _ s hs op hop b hb
  rw [← h.size] at hs ⊢
  have hread : ReadsAt ops s b := by
    refine ⟨op, hop, Registry.readsName_iff.mpr ⟨_, Value.mem_atoms.mp hb, ?_⟩⟩
    simp
  exact h.lastWriterLeft_eq (fun f hf => h.isClearOf_of_isWrittenOnce (honce b) hf) hs hread

end StandardRun

/-- Where each name is written once, and not read before, the graph of the result is what is left of
the rewritten arena: the same operators, with the same edges in the same order, numbered anew. -/
theorem Optimizer.IsStandard.build_optimize {o : Optimizer} (ho : o.IsStandard) {p : Program}
    {block : Block} (hblock : p.blocks = [block]) (honce : ∀ b, IsWrittenOnce block.ops b)
    {out : Outcome} (h : (o.optimize p).result = .ok out) :
    ∃ g s result g', Graph.build o.registry block.ops = .ok g ∧ o.fusePass g = .ok s ∧
      out.program.blocks = [result] ∧ Graph.build o.registry result.ops = .ok g' ∧
      g'.arena = s.arena.renumber (survivorsOf s.removed s.arena.size) := by
  obtain ⟨block', g, s, hblock', hg, hs, hrun, rfl⟩ := ho.exists_pass h
  rw [hblock] at hblock'
  cases hblock'
  have hregistered := Graph.isRegistered_of_build hg
  rw [ho.registry] at hregistered
  obtain ⟨g', hg', harena⟩ :=
    hrun.build_left hregistered (hrun.keepsWriters_of_isWrittenOnce honce)
  rw [positionsLeft, ← hrun.shot.removed_eq] at harena
  refine ⟨g, s, _, g', hg, hs, rfl, ?_, harena⟩
  rw [StandardRun.left, positionsLeft, ← hrun.shot.removed_eq] at hg'
  rw [ho.registry]
  exact hg'

/-- A convolution and an addition that also takes the result of another operator; the sum is read
twice by one operator, which reads that result as well. -/
def sharedSummand : List Op :=
  [.ofTexts "conv2d" [("Input", ["x"])] [("Output", ["c"])] [("Filter", ["w"])],
    .ofTexts "sigmoid" [("X", ["z"])] [("Out", ["s"])],
    .ofTexts "elementwise_add" [("X", ["c", "s"])] [("Out", ["t"])],
    .ofTexts "concat" [("X", ["t", "s", "t"])] [("Out", ["u"])]]

theorem build_optimize_sharedSummand : (∀ b, IsWrittenOnce sharedSummand b) ∧
    ((Optimizer.usual.fusions (.ofOps sharedSummand)).map fun f => f.members) = [[0, 2]] ∧
    ∃ out, (Optimizer.usual.optimize (.ofOps sharedSummand)).result = .ok out ∧
    ∃ g s result g', Graph.build Optimizer.usual.registry sharedSummand = .ok g ∧
      Optimizer.usual.fusePass g = .ok s ∧ out.program.blocks = [result] ∧
      Graph.build Optimizer.usual.registry result.ops = .ok g' ∧
      g'.arena = s.arena.renumber (survivorsOf s.removed s.arena.size) := by
  have honce : ∀ b, IsWrittenOnce sharedSummand b := by decide +kernel
  obtain ⟨out, hout⟩ := exists_ok_of_isOk
    (x := (Optimizer.usual.optimize (.ofOps sharedSummand)).result) (by decide +kernel)
  exact ⟨honce, by decide +kernel, out, hout,
    Optimizer.IsStandard.build_optimize ⟨rfl, rfl⟩ rfl honce hout⟩

end TensorFusion
