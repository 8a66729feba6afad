import TensorFusion.Proofs.Graph.Fuse

/-!
# Proofs — Pass — Live

The part of an arena that is not absorbed is at all times what the fusions have left of the first
arena. A live node has the consumers that the last of the nodes fused into it had at first, as far
as they are live, and the producers it had at first, each under the node that it was fused into.
-/

namespace TensorFusion

/-- The live part of an arena, against the first one. The tail of a live node is the last of the
nodes that were fused into it. -/
structure Live (a₀ : Arena) (tail : Nat → Nat) (a : Arena) (removed : List Nat) : Prop where
  size : a.size = a₀.size
  outputs : ∀ i, i ∉ removed → a.outputs i = (a₀.outputs (tail i)).filter (· ∉ removed)
  inputs : ∀ k, k ∉ removed → (a.inputs k).map tail = a₀.inputs k
  inputs_live : ∀ k, k ∉ removed → ∀ i ∈ a.inputs k, i ∉ removed
  le_tail : ∀ i, i ∉ removed → i ≤ tail i
  tail_inj : ∀ i j, i ∉ removed → j ∉ removed → tail i = tail j → i = j

theorem Live.start (a₀ : Arena) : Live a₀ id a₀ [] where
  size := rfl
  outputs := fun i _ => by simp
  inputs := fun k _ => by simp
  inputs_live := fun k _ i _ => by simp
  le_tail := fun i _ => Nat.le_refl i
  tail_inj := fun i j _ _ h => h

/-- The tails once some more nodes are fused into one. -/
def tailWith (tail : Nat → Nat) (root leaf : Nat) (i : Nat) : Nat :=
  if i = root then tail leaf else tail i

/-- Where only one node is fused, its tail stays as it is. -/
theorem tailWith_self (tail : Nat → Nat) (root : Nat) : tailWith tail root root = tail := by
  funext i
  by_cases hi : i = root <;> simp [tailWith, hi]

namespace Live

variable {a₀ a : Arena} {tail : Nat → Nat} {removed : List Nat} {i k : Nat}

/-- The consumers of a live node are live. -/
theorem live_of_mem_outputs (h : Live a₀ tail a removed) (hi : i ∉ removed)
    (hk : k ∈ a.outputs i) : k ∉ removed := by
  rw [h.outputs i hi] at hk
  simpa using (List.mem_filter.mp hk).2

/-- A live node is a consumer of a live node just where the first arena has it as a consumer of the
tail. -/
theorem mem_outputs_iff (h : Live a₀ tail a removed) (hi : i ∉ removed) (hk : k ∉ removed) :
    k ∈ a.outputs i ↔ k ∈ a₀.outputs (tail i) := by
  rw [h.outputs i hi, List.mem_filter]
  simp [hk]

/-- The live edges are entered at both ends. -/
theorem mem_inputs_iff (h : Live a₀ tail a removed) (hlinked : a₀.WellLinked) (hi : i ∉ removed)
    (hk : k ∉ removed) : i ∈ a.inputs k ↔ k ∈ a.outputs i := by
  rw [h.mem_outputs_iff hi hk, hlinked.mem_iff, ← h.inputs k hk, List.mem_map]
  constructor
  · intro hmem
    exact ⟨i, hmem, rfl⟩
  · intro hmem
    obtain ⟨j, hj, htail⟩ := hmem
    rwa [← h.tail_inj j i (h.inputs_live k hk j hj) hi htail]

/-- A live node has a live producer as often as the first arena has the tail of the producer. -/
theorem count_inputs {j : Nat} (h : Live a₀ tail a removed) (hi : i ∉ removed) (hj : j ∉ removed) :
    (a.inputs j).count i = (a₀.inputs j).count (tail i) := by
  rw [← h.inputs j hj, List.count, List.count, List.countP_map]
  refine List.countP_congr fun i' hi' => ?_
  have hinj : tail i' = tail i ↔ i' = i :=
    ⟨h.tail_inj i' i (h.inputs_live j hj i' hi') hi, fun heq => heq ▸ rfl⟩
  simp [hinj]

/-- The live edges lead forward. -/
theorem forward (h : Live a₀ tail a removed) (hlinked : a₀.WellLinked) (hi : i ∉ removed)
    (hk : k ∈ a.outputs i) : i < k := by
  have hlive := h.live_of_mem_outputs hi hk
  rw [h.mem_outputs_iff hi hlive] at hk
  exact Nat.lt_of_le_of_lt (h.le_tail i hi) (hlinked.forward _ k hk)

theorem range (h : Live a₀ tail a removed) (hlinked : a₀.WellLinked) (hi : i ∉ removed)
    (hk : k ∈ a.outputs i) : k < a.size := by
  have hlive := h.live_of_mem_outputs hi hk
  rw [h.mem_outputs_iff hi hlive] at hk
  rw [h.size]
  exact hlinked.range _ k hk

/-- A path that begins at a live node is live. -/
theorem live_of_mem_path (h : Live a₀ tail a removed) {first : Value} {rest : List Value}
    {root : Nat} {ks : List Nat} (hp : a.Path first rest root ks) (hroot : root ∉ removed) {m : Nat}
    (hm : m ∈ root :: ks) : m ∉ removed := by
  induction hp with
  | last =>
    rw [List.mem_singleton.mp hm]
    exact hroot
  | @step _ _ _ i k _ _ _ _ hout _ ih =>
    rcases List.mem_cons.mp hm with rfl | hm
    · exact hroot
    · exact ih (h.live_of_mem_outputs hroot (by simp [hout])) hm

/-- A path that begins at a live node is in ascending order. -/
theorem pairwise_path (h : Live a₀ tail a removed) (hlinked : a₀.WellLinked) {first : Value}
    {rest : List Value} {root : Nat} {ks : List Nat} (hp : a.Path first rest root ks)
    (hroot : root ∉ removed) : (root :: ks).Pairwise (· < ·) :=
  hp.pairwise_lt fun _ hm _ hk => h.forward hlinked (h.live_of_mem_path hp hroot hm) hk

/-! ## A fusion -/

section Contract

variable {t : Template} {first : Value} {rest : List Value} {root : Nat} {ks : List Nat}

/-- Only the last node of a path has consumers outside of it. -/
theorem eq_leaf_of_consumer_outside (h : Live a₀ tail a removed) (hlinked : a₀.WellLinked)
    (hp : a.Path first rest root ks) (hroot : root ∉ removed) {m : Nat} (hm : m ∈ root :: ks)
    (hk : k ∉ removed) (hks : k ∉ ks) (hmk : m ∈ a.inputs k) : m = leafOf root ks := by
  by_cases hleaf : m = leafOf root ks
  · exact hleaf
  · obtain ⟨k', hk', hout⟩ := hp.outputs_of_ne_leaf hm hleaf
    rw [h.mem_inputs_iff hlinked (h.live_of_mem_path hp hroot hm) hk, hout,
      List.mem_singleton] at hmk
    exact absurd (hmk ▸ hk') hks

/-- The consumers of the last node of a path lie behind the path. -/
theorem not_mem_of_mem_outputs_leaf (h : Live a₀ tail a removed) (hlinked : a₀.WellLinked)
    (hp : a.Path first rest root ks) (hroot : root ∉ removed)
    (hk : k ∈ a.outputs (leafOf root ks)) : k ∉ root :: ks := by
  intro hmem
  have hle := le_leafOf (h.pairwise_path hlinked hp hroot) hmem
  have hlt := h.forward hlinked (h.live_of_mem_path hp hroot (leafOf_mem root ks)) hk
  omega

theorem root_not_mem (h : Live a₀ tail a removed) (hlinked : a₀.WellLinked)
    (hp : a.Path first rest root ks) (hroot : root ∉ removed) : root ∉ ks := by
  intro hmem
  have := (List.pairwise_cons.mp (h.pairwise_path hlinked hp hroot)).1 root hmem
  omega

/-- A producer of a node that stays live has the tail it had. -/
theorem tailWith_of_mem_inputs (h : Live a₀ tail a removed) (hlinked : a₀.WellLinked)
    (hp : a.Path first rest root ks) (hks : ks ≠ []) (hroot : root ∉ removed) (hk : k ∉ removed)
    (hout : k ∉ ks) (hi : i ∈ a.inputs k) : tailWith tail root (leafOf root ks) i = tail i := by
  refine if_neg ?_
  rintro rfl
  -- The first node has a consumer on the path, so it is not the last.
  have heq := h.eq_leaf_of_consumer_outside hlinked hp hroot (by simp) hk hout hi
  exact h.root_not_mem hlinked hp hroot (heq ▸ leafOf_mem_of_ne_nil hks)

/-- The first node of a path takes over the live consumers of the last. -/
theorem filter_outputs_leaf (h : Live a₀ tail a removed) (hlinked : a₀.WellLinked)
    (hp : a.Path first rest root ks) (hroot : root ∉ removed) : a.outputs (leafOf root ks)
      = (a₀.outputs (tail (leafOf root ks))).filter (· ∉ removed ++ ks) := by
  have hleafLive := h.live_of_mem_path hp hroot (leafOf_mem root ks)
  rw [h.outputs _ hleafLive]
  refine List.filter_congr fun k hk => ?_
  by_cases hkLive : k ∈ removed
  · simp [hkLive]
  · have hout := h.not_mem_of_mem_outputs_leaf hlinked hp hroot
      ((h.mem_outputs_iff hleafLive hkLive).mpr hk)
    simpa [hkLive] using List.not_mem_of_not_mem_cons hout

/-- A node outside of a path loses the consumers that are on the path. -/
theorem filter_outputs_outside (h : Live a₀ tail a removed) (hlinked : a₀.WellLinked)
    (hp : a.Path first rest root ks) (hroot : root ∉ removed) {f : Fused}
    (hc : Contracted t a root ks f) (hi : i ∉ removed) :
    (a.outputs i).filter (fun k => !(ks.contains k && (f.arena.inputs k).contains i))
      = (a₀.outputs (tail i)).filter (· ∉ removed ++ ks) := by
  rw [h.outputs i hi, List.filter_filter]
  refine List.filter_congr fun k hk => ?_
  by_cases hkLive : k ∈ removed
  · simp [hkLive]
  · by_cases hkks : k ∈ ks
    · -- An absorbed consumer has lost its edge, as it had the node as a producer.
      have hedge : i ∈ a.inputs k := by
        rw [h.mem_inputs_iff hlinked hi hkLive, h.mem_outputs_iff hi hkLive]
        exact hk
      have hkeep : f.arena.inputs k = a.inputs k := by
        rw [hc.inputs, if_neg]
        intro hk'
        exact h.not_mem_of_mem_outputs_leaf hlinked hp hroot hk' (List.mem_cons_of_mem _ hkks)
      simp [hkeep, hedge, hkks]
    · simp [hkks]

/-- The producers of a node that stays live stay live. -/
theorem live_of_mem_inputs_contracted (h : Live a₀ tail a removed) (hlinked : a₀.WellLinked)
    (hp : a.Path first rest root ks) (hroot : root ∉ removed) {f : Fused}
    (hc : Contracted t a root ks f) (hk : k ∉ removed) (hout : k ∉ ks)
    (hi : i ∈ f.arena.inputs k) : i ∉ removed ∧ i ∉ ks := by
  have hlive : ∀ j ∈ a.inputs k, j ≠ leafOf root ks → j ∉ removed ∧ j ∉ ks := fun j hj hjl =>
    ⟨h.inputs_live k hk j hj, fun hjks => hjl (h.eq_leaf_of_consumer_outside hlinked hp hroot
      (List.mem_cons_of_mem _ hjks) hk hout hj)⟩
  rw [hc.inputs] at hi
  split at hi
  next =>
    obtain ⟨j, hj, rfl⟩ := List.mem_map.mp hi
    by_cases hjl : j = leafOf root ks
    · simpa [redirect, hjl] using And.intro hroot (h.root_not_mem hlinked hp hroot)
    · simpa [redirect, hjl] using hlive j hj hjl
  next hno =>
    refine hlive i hi fun hil => hno ?_
    rw [← h.mem_inputs_iff hlinked (h.live_of_mem_path hp hroot (leafOf_mem root ks)) hk, ← hil]
    exact hi

/-- Fusing a live path keeps the live part of an arena what the fusions have left of the first
one. -/
theorem contract (h : Live a₀ tail a removed) (hlinked : a₀.WellLinked)
    (hp : a.Path first rest root ks) (hks : ks ≠ []) (hroot : root ∉ removed) {f : Fused}
    (hc : Contracted t a root ks f) :
    Live a₀ (tailWith tail root (leafOf root ks)) f.arena (removed ++ ks) := by
  have hmem : ∀ {i}, i ∉ removed ++ ks ↔ i ∉ removed ∧ i ∉ ks := by simp
  have hleaf : leafOf root ks ∈ ks := leafOf_mem_of_ne_nil hks
  have hleafLive : leafOf root ks ∉ removed := h.live_of_mem_path hp hroot (leafOf_mem root ks)
  refine ⟨hc.size.trans h.size, fun i hi => ?_, fun k hk => ?_, fun k hk i hi => ?_,
    fun i hi => ?_, fun i j hi hj hij => ?_⟩
  · rw [hmem] at hi
    by_cases hir : i = root
    · subst hir
      rw [hc.outputs_root, tailWith, if_pos rfl, h.filter_outputs_leaf hlinked hp hroot]
    · rw [hc.outputs_outside i (by simp [hir, hi.2]), tailWith, if_neg hir,
        h.filter_outputs_outside hlinked hp hroot hc hi.1]
  · -- Where the last node was a producer now the root is, whose tail is the tail of the last.
    rw [hmem] at hk
    have htail : ∀ i ∈ a.inputs k, tailWith tail root (leafOf root ks) i = tail i := fun i hi =>
      h.tailWith_of_mem_inputs hlinked hp hks hroot hk.1 hk.2 hi
    rw [hc.inputs, ← h.inputs k hk.1]
    split
    · rw [List.map_map]
      refine List.map_congr_left fun i hi => ?_
      by_cases hil : i = leafOf root ks
      · simp [redirect, tailWith, hil]
      · simp [redirect, hil, htail i hi]
    · exact List.map_congr_left htail
  · rw [hmem] at hk ⊢
    exact h.live_of_mem_inputs_contracted hlinked hp hroot hc hk.1 hk.2 hi
  · rw [hmem] at hi
    unfold tailWith
    split
    next hir =>
      rw [hir]
      exact Nat.le_trans (le_leafOf (h.pairwise_path hlinked hp hroot) (by simp))
        (h.le_tail _ hleafLive)
    · exact h.le_tail i hi.1
  · -- The tail of the last node was the tail of no other, and the last node is not live any more.
    rw [hmem] at hi hj
    unfold tailWith at hij
    split at hij <;> split at hij
    next hir hjr => rw [hir, hjr]
    next => exact absurd (h.tail_inj _ _ hleafLive hj.1 hij ▸ hleaf) hj.2
    next => exact absurd (h.tail_inj _ _ hi.1 hleafLive hij ▸ hleaf) hi.2
    next => exact h.tail_inj i j hi.1 hj.1 hij

end Contract

end Live

end TensorFusion
