import TensorFusion.Proofs.Graph.Walk
import TensorFusion.Proofs.Pass.History
import TensorFusion.Proofs.Sample

/-!
# Proofs — Pass — Linear

Passes with templates without branches, of any length and whatever types they make; a node that was
fused may then be fused again. After each fusion the live part of the graph is linked as it was when
the graph was built.
-/

namespace TensorFusion

/-! ## Trees without branches -/

/-- Whether each node of a tree has at most one child. -/
def Pattern.isLinear : Pattern → Bool
  | .node _ [] => true
  | .node _ [child] => child.isLinear
  | .node _ (_ :: _ :: _) => false

theorem Pattern.exists_chain_of_isLinear : ∀ {p : Pattern}, p.isLinear = true →
    ∃ first rest, p = .chain first rest
  | .node opType [], _ => ⟨opType, [], rfl⟩
  | .node opType [child], h => by
    rw [isLinear] at h
    obtain ⟨first, rest, rfl⟩ := exists_chain_of_isLinear h
    exact ⟨opType, first :: rest, rfl⟩
  | .node _ (_ :: _ :: _), h => by simp [isLinear] at h

namespace Arena.Path

variable {a : Arena} {first second : Value} {rest : List Value} {root : Nat} {ks : List Nat}
  {t : Template}

/-- A tree without branches is paired with the nodes of a path. -/
theorem nodesOf_pairs (h : a.Path first rest root ks) :
    nodesOf (a.pairs (.chain first rest) root) = root :: ks := by
  induction h with
  | last => rfl
  | @step _ _ _ i k _ _ _ _ hout _ ih =>
    rw [Pattern.chain, pairs, hout, pairsBelow, pairsBelow_nil, List.append_nil, ← ih]
    rfl

theorem leavesOf_pairs (h : a.Path first rest root ks) :
    leavesOf (a.pairs (.chain first rest) root) = [leafOf root ks] := by
  induction h with
  | last => rfl
  | @step _ _ _ i k _ _ _ _ hout _ ih =>
    rw [Pattern.chain, pairs, hout, pairsBelow, pairsBelow_nil, List.append_nil, leafOf_cons, ← ih,
      leavesOf, List.filter_cons_of_neg (by simp [Pattern.isLeaf, Pattern.children])]
    rfl

/-- A fusion visits the nodes of the path that was found. -/
theorem visits_eq (h : a.Path first rest root ks) (ht : t.root = .chain first rest) :
    t.visits a root = ks := by
  have hnodes := h.nodesOf_pairs
  rw [← ht, Template.pairs_root] at hnodes
  exact (List.cons.inj hnodes).2

theorem leaves_eq (h : a.Path first rest root ks) (ht : t.root = .chain first rest) :
    t.leaves a root = [leafOf root ks] := by
  rw [Template.leaves, ht, h.leavesOf_pairs]

/-- What is collapsed along a path is contracted. -/
theorem contracted {f : Fused} (h : a.Path first (second :: rest) root ks)
    (ht : t.root = .chain first (second :: rest)) (hnodup : ks.Nodup)
    (hf : Collapsed t a root f) : Contracted t a root ks f := by
  have hvisits := h.visits_eq ht
  have hleaves := h.leaves_eq ht
  have habsorbed : f.absorbed = ks := by rw [hf.absorbed_eq (hvisits ▸ hnodup), hvisits]
  have hinner : t.root.isLeaf = false := by
    rw [ht]
    rfl
  refine ⟨habsorbed, hf.size, fun op hop => ?_, hf.op?_ne, fun k => ?_, ?_, ?_⟩
  · have hlast : Walk.opsAt a [leafOf root ks] = [(Walk.opsAt a ks).getLastD op] :=
      List.filterMap_cons_some (h.op?_leaf hop)
    rw [hf.op?_root op hop, hvisits, hleaves, hlast, Template.fusedOutputs, hinner]
    rfl
  · rw [hf.inputs, hleaves]
    split
    next hk =>
      refine List.map_congr_left fun i _ => ?_
      by_cases hi : i = leafOf root ks <;> simp [Walk.graft, redirect, hi, hk]
    next hk =>
      refine List.map_id'' (fun i => ?_) _
      by_cases hi : i = leafOf root ks <;> simp [Walk.graft, hi, hk]
  · rw [hf.outputs_root, hleaves]
    simp
  · rw [← habsorbed]
    exact hf.outputs_outside

end Arena.Path

/-! ## The live part of a graph -/

/-- A node of an arena that is not absorbed. -/
def Arena.IsLive (a : Arena) (removed : List Nat) (i : Nat) : Prop := i < a.size ∧ i ∉ removed

/-- The live part of an arena is linked: edges between live nodes are entered at both ends, equally
often; the edges of a live node go to and come from live nodes; and they lead forward. -/
structure Arena.IsLinked (a : Arena) (removed : List Nat) : Prop where
  mirrored : ∀ i j, a.IsLive removed i → a.IsLive removed j →
    (a.outputs i).count j = (a.inputs j).count i
  outputs_live : ∀ i, a.IsLive removed i → ∀ k ∈ a.outputs i, a.IsLive removed k
  inputs_live : ∀ k, a.IsLive removed k → ∀ i ∈ a.inputs k, a.IsLive removed i
  outputs_forward : ∀ i, a.IsLive removed i → ∀ k ∈ a.outputs i, i < k
  inputs_forward : ∀ k, a.IsLive removed k → ∀ i ∈ a.inputs k, i < k

namespace Live

variable {a₀ a b : Arena} {tail : Nat → Nat} {removed : List Nat} {i j : Nat}

theorem congr (h : Live a₀ tail a removed) (hsize : b.size = a.size)
    (houtputs : ∀ i, b.outputs i = a.outputs i) (hinputs : ∀ k, b.inputs k = a.inputs k) :
    Live a₀ tail b removed where
  size := hsize.trans h.size
  outputs := fun i hi => (houtputs i).trans (h.outputs i hi)
  inputs := fun k hk => by rw [hinputs, h.inputs k hk]
  inputs_live := fun k hk i hi => h.inputs_live k hk i (hinputs k ▸ hi)
  le_tail := h.le_tail
  tail_inj := h.tail_inj

/-- What the fusions have left of an arena whose edges are in order has its edges in order. -/
theorem isLinked (h : Live a₀ tail a removed) (hlinked : a₀.WellLinked) : a.IsLinked removed := by
  have hproducer : ∀ k, a.IsLive removed k → ∀ i ∈ a.inputs k, i ∉ removed ∧ i < k :=
    fun k hk i hi => by
      have hlive := h.inputs_live k hk.2 i hi
      exact ⟨hlive, h.forward hlinked hlive ((h.mem_inputs_iff hlinked hlive hk.2).mp hi)⟩
  refine ⟨fun i j hi hj => ?_, fun i hi k hk => ?_, fun k hk i hi => ?_, fun i hi k hk => ?_,
    fun k hk i hi => (hproducer k hk i hi).2⟩
  · rw [h.count_inputs hi.2 hj.2, ← hlinked.mirrored, h.outputs i hi.2]
    exact List.count_filter (by simpa using hj.2)
  · exact ⟨h.range hlinked hi.2 hk, h.live_of_mem_outputs hi.2 hk⟩
  · obtain ⟨hlive, hlt⟩ := hproducer k hk i hi
    exact ⟨Nat.lt_trans hlt hk.1, hlive⟩
  · exact h.forward hlinked hi.2 hk

/-! ## Fusions -/

section Fusion

variable {c : Config} {g : Graph} {templates : List Template} {f : Fusion}

/-- A fusion by the rules with a template without branches is of a live path. -/
theorem exists_path (h : Live a₀ tail a removed) (hlinked : a₀.WellLinked)
    (hlinear : f.template.root.isLinear = true) (hbefore : f.before = a)
    (hvalid : f.IsValid c g templates removed) :
    ∃ first rest, f.template.root = .chain first rest ∧
      a.Path first rest f.root f.made.absorbed ∧
      Collapsed f.template a f.root f.made ∧ (f.root :: f.made.absorbed).Nodup := by
  obtain ⟨first, rest, hchain⟩ := Pattern.exists_chain_of_isLinear hlinear
  obtain ⟨v, hv, hmatch⟩ := hvalid.matched
  obtain ⟨ks, hp⟩ := Template.path_of_examine hchain hv hmatch
  have hfuse := hvalid.fused
  rw [hbefore] at hp hfuse
  have hvisits := hp.visits_eq hchain
  have hnodup : (f.root :: ks).Nodup :=
    (h.pairwise_path hlinked hp hvalid.live).imp fun hlt => Nat.ne_of_lt hlt
  have hf : Collapsed f.template a f.root f.made :=
    Template.collapsed_of_fuse hfuse (hvisits ▸ h.root_not_mem hlinked hp hvalid.live)
  have habsorbed : f.made.absorbed = ks := by
    rw [hf.absorbed_eq (hvisits ▸ (List.nodup_cons.mp hnodup).2), hvisits]
  rw [habsorbed]
  exact ⟨first, rest, hchain, hp, hf, hnodup⟩

/-- What a fusion absorbs was live, and is not the root. -/
theorem live_of_mem_absorbed (h : Live a₀ tail a removed) (hlinked : a₀.WellLinked)
    (hlinear : f.template.root.isLinear = true) (hbefore : f.before = a)
    (hvalid : f.IsValid c g templates removed) {m : Nat} (hm : m ∈ f.made.absorbed) :
    m ∉ removed ∧ m ≠ f.root := by
  obtain ⟨first, rest, -, hp, -, hnodup⟩ := h.exists_path hlinked hlinear hbefore hvalid
  refine ⟨h.live_of_mem_path hp hvalid.live (List.mem_cons_of_mem _ hm), ?_⟩
  rintro rfl
  exact (List.nodup_cons.mp hnodup).1 hm

/-- All that a fusion absorbs is new. -/
theorem absorbedWith_eq (h : Live a₀ tail a removed) (hlinked : a₀.WellLinked)
    (hlinear : f.template.root.isLinear = true) (hbefore : f.before = a)
    (hvalid : f.IsValid c g templates removed) :
    Pass.absorbedWith removed f = removed ++ f.made.absorbed := by
  rw [Pass.absorbedWith, List.filter_eq_self.mpr]
  intro m hm
  simpa using (h.live_of_mem_absorbed hlinked hlinear hbefore hvalid hm).1

/-- A fusion by the rules keeps the live part of an arena what the fusions have left of the first
one. The root now ends where the last node of the fusion did. -/
theorem step (h : Live a₀ tail a removed) (hlinked : a₀.WellLinked)
    (hlinear : f.template.root.isLinear = true) (hbefore : f.before = a)
    (hvalid : f.IsValid c g templates removed) :
    Live a₀ (tailWith tail f.root f.leaf) f.made.arena (Pass.absorbedWith removed f) := by
  obtain ⟨first, rest, hchain, hp, hf, hnodup⟩ := h.exists_path hlinked hlinear hbefore hvalid
  rw [h.absorbedWith_eq hlinked hlinear hbefore hvalid]
  cases rest with
  | nil =>
    -- With a single node the operator changes, and no edge does.
    have hnil : f.made.absorbed = [] := List.length_eq_zero_iff.mp hp.length_eq
    have hleaves := hp.leaves_eq hchain
    rw [hnil, leafOf_nil] at hleaves
    rw [Fusion.leaf, hnil, leafOf_nil, tailWith_self, List.append_nil]
    refine h.congr hf.size (fun i => ?_) fun k => ?_
    · by_cases hi : i = f.root
      · rw [hi, hf.outputs_root, hleaves]
        simp
      · rw [hf.outputs_outside i (by simp [Walk.IsInside, hi, hnil]), hnil]
        simp
    · rw [hf.inputs, hleaves]
      refine List.map_id'' (fun i => ?_) _
      by_cases hi : i = f.root <;> simp [Walk.graft, hi]
  | cons second rest =>
    have hks : f.made.absorbed ≠ [] := List.ne_nil_of_length_pos (by simp [hp.length_eq])
    exact h.contract hlinked hp hks hvalid.live
      (hp.contracted hchain (List.nodup_cons.mp hnodup).2 hf)

/-- After any number of fusions with templates without branches, the live part of an arena is what
they have left of the first one. -/
theorem of_history (hlinear : ∀ t ∈ templates, t.root.isLinear = true) (hlinked : a₀.WellLinked)
    {fs : List Fusion} (h : IsHistory c g templates a₀ [] fs) :
    ∃ tail, Live a₀ tail (arenaAfter a₀ fs) (removedAfter [] fs) := by
  refine h.induction (motive := fun _ a removed => ∃ tail, Live a₀ tail a removed)
    (fun _ a removed f hlive hbefore hvalid => ?_) ⟨id, Live.start a₀⟩
  obtain ⟨tail, hlive⟩ := hlive
  exact ⟨_, hlive.step hlinked (hlinear _ hvalid.template_mem) hbefore hvalid⟩

end Fusion

end Live

/-- With templates without branches, the live part of the graph is linked when it is built and after
each fusion, as far as the pass comes; and what a fusion absorbs was live and is not its root. -/
theorem Optimizer.isLinked_of_isLinear {o : Optimizer} {p : Program} {block : Block}
    (hlinear : ∀ t ∈ o.catalog.templates, t.root.isLinear = true) (hblock : p.blocks = [block])
    (hregistered : ∀ op ∈ block.ops, op.IsRegistered o.registry) :
    ∃ g, Graph.build o.registry block.ops = .ok g ∧
      (∀ s, o.fusePass g = .ok s → s.arena = arenaAfter g.arena (o.fusions p) ∧
        s.removed = removedAfter [] (o.fusions p)) ∧
      ∀ done rest, o.fusions p = done ++ rest →
        (arenaAfter g.arena done).IsLinked (removedAfter [] done) ∧
        ∀ f ∈ rest.head?, f.template.fuse (arenaAfter g.arena done) f.root = .ok f.made ∧
          (∀ m ∈ f.made.absorbed, m ∉ removedAfter [] done) ∧ f.root ∉ f.made.absorbed := by
  obtain ⟨g, hg⟩ := Graph.exists_build hregistered
  have hlinked := (Graph.isOf_of_build hg).1.wellLinked
  rw [fusions_eq hblock hg]
  refine ⟨g, hg, fun s hs => o.isLeft_of_fusePass hs, fun done rest hsplit => ?_⟩
  have hhistory := o.isHistory g
  rw [hsplit] at hhistory
  obtain ⟨tail, hlive⟩ := Live.of_history hlinear hlinked hhistory.left
  refine ⟨hlive.isLinked hlinked, fun f hf => ?_⟩
  obtain ⟨rest, rfl⟩ := List.head?_eq_some_iff.mp hf
  obtain ⟨hbefore, hvalid⟩ := hhistory.next
  have habsorbed := fun m => hlive.live_of_mem_absorbed (m := m) hlinked
    (hlinear _ hvalid.template_mem) hbefore hvalid
  exact ⟨hbefore ▸ hvalid.fused, fun m hm => (habsorbed m hm).1, fun hm => (habsorbed _ hm).2 rfl⟩

/-- Templates without branches: the second takes up what the first makes, and the third has a single
node. -/
def refusing : List Template :=
  [.ofChain "conv2d" "conv2d" ["elementwise_add"] [], .ofChain "conv_relu" "conv2d" ["relu"] [],
    .ofChain "sigmoid" "softmax" [] []]

/-- A convolution that is fused twice, and whose result is then read twice by one operator. -/
def readTwice : List Op :=
  [.ofTexts "conv2d" [("Input", ["x"])] [("Output", ["c"])] [("Filter", ["w"])],
    .ofTexts "elementwise_add" [("X", ["c"])] [("Out", ["s"])] [("Y", ["b"])],
    .ofTexts "relu" [("X", ["s"])] [("Out", ["r"])],
    .ofTexts "concat" [("X", ["r", "r"])] [("Out", ["m"])],
    .ofTexts "softmax" [("X", ["m"])] [("Out", ["y"])]]

theorem isLinked_refusing :
    ((Optimizer.withTemplates refusing).fusions (.ofOps readTwice)).map
      (fun f => (f.root, f.made.absorbed)) = [(0, [1]), (0, [2]), (4, [])] ∧
    ∃ g, Graph.build (Optimizer.withTemplates refusing).registry readTwice = .ok g ∧
      (∀ s, (Optimizer.withTemplates refusing).fusePass g = .ok s →
        s.arena
          = arenaAfter g.arena ((Optimizer.withTemplates refusing).fusions (.ofOps readTwice)) ∧
        s.removed
          = removedAfter [] ((Optimizer.withTemplates refusing).fusions (.ofOps readTwice))) ∧
      ∀ done rest, (Optimizer.withTemplates refusing).fusions (.ofOps readTwice) = done ++ rest →
        (arenaAfter g.arena done).IsLinked (removedAfter [] done) ∧
        ∀ f ∈ rest.head?, f.template.fuse (arenaAfter g.arena done) f.root = .ok f.made ∧
          (∀ m ∈ f.made.absorbed, m ∉ removedAfter [] done) ∧ f.root ∉ f.made.absorbed := by
  have hlinear : ∀ t ∈ refusing, t.root.isLinear = true := by decide +kernel
  have hregistered : ∀ op ∈ readTwice, op.IsRegistered .standard := by decide +kernel
  have hblock : (Program.ofOps readTwice).blocks = [{ ops := readTwice }] := rfl
  refine ⟨by decide +kernel, ?_⟩
  exact Optimizer.isLinked_of_isLinear (o := .withTemplates refusing) hlinear hblock hregistered

end TensorFusion
