import TensorFusion.Proofs.Graph.Sound
import TensorFusion.Proofs.Pass.History
import TensorFusion.Proofs.Sample

/-!
# Proofs — Pass — Reach

What the walks of a pass come to, with templates of any shape. A fusion takes away the edges into
what it absorbs, but for those of its root. So walks see live nodes only just as long as what the
leaves of each fusion feed lies outside of it; and where branches of a fusion meet, it comes to a
node twice.
-/

namespace TensorFusion

/-! ## Walks -/

/-- The nodes that a tree of types is grown over from a node, down to a number of levels below
it. -/
def Arena.reach (a : Arena) : Nat → Nat → List Nat
  | 0, i => [i]
  | levels + 1, i => i :: (a.outputs i).flatMap (a.reach levels)

namespace Arena

variable {a : Arena} {levels i : Nat}

/-- A walk stays where the edges from its first node lead. -/
theorem mem_reach_of_closed {P : Nat → Prop} (hP : ∀ i, P i → ∀ k ∈ a.outputs i, P k) (hi : P i)
    {m : Nat} (hm : m ∈ a.reach levels i) : P m := by
  induction levels generalizing i with
  | zero => rwa [List.mem_singleton.mp hm]
  | succ levels ih =>
    rcases List.mem_cons.mp hm with rfl | hm
    · exact hi
    · obtain ⟨k, hk, hm⟩ := List.mem_flatMap.mp hm
      exact ih (hP i hi k hk) hm

end Arena

/-! ## Live nodes -/

/-- The live part of an arena is closed: all edges lead forward, and those of a live node lead to
live nodes which have it as a producer. -/
structure Arena.IsClosed (a : Arena) (removed : List Nat) : Prop where
  forward : ∀ i, ∀ k ∈ a.outputs i, i < k
  live : ∀ i, i ∉ removed → ∀ k ∈ a.outputs i, k ∉ removed
  entered : ∀ i, i ∉ removed → ∀ k ∈ a.outputs i, i ∈ a.inputs k

theorem Arena.WellLinked.isClosed {a : Arena} (h : a.WellLinked) : a.IsClosed [] where
  forward := h.forward
  live := fun _ _ _ _ => by simp
  entered := fun _ _ _ hk => h.mem_iff.mp hk

namespace Fusion

/-- The nodes that a fusion comes to below its root, in order; a node is there as often as the
fusion comes to it. -/
def visits (f : Fusion) : List Nat := f.template.visits f.before f.root

/-- The nodes that a fusion pairs with leaves, whose consumers it hands over to the root. -/
def leaves (f : Fusion) : List Nat := f.template.leaves f.before f.root

/-- A fusion is separate: it comes to no node twice, and what its leaves feed lies outside of it. -/
structure IsSeparate (f : Fusion) : Prop where
  nodup : f.visits.Nodup
  outside : ∀ i ∈ f.leaves, ∀ k ∈ f.before.outputs i, k ∉ f.visits

instance (f : Fusion) : Decidable f.IsSeparate :=
  decidable_of_iff (f.visits.Nodup ∧ ∀ i ∈ f.leaves, ∀ k ∈ f.before.outputs i, k ∉ f.visits)
    ⟨fun h => ⟨h.1, h.2⟩, fun h => ⟨h.nodup, h.outside⟩⟩

end Fusion

namespace Arena.IsClosed

variable {a : Arena} {removed : List Nat} {t : Template} {root : Nat}

/-- A fusion comes to nodes behind its root. -/
theorem root_lt_of_mem_visits (h : a.IsClosed removed) : ∀ m ∈ t.visits a root, root < m :=
  Template.root_lt_of_mem_visits h.forward

theorem root_not_mem (h : a.IsClosed removed) : root ∉ t.visits a root :=
  Template.root_not_mem_visits h.forward

/-- A fusion at a live node comes to live nodes. -/
theorem live_of_mem_visits (h : a.IsClosed removed) (hroot : root ∉ removed) :
    ∀ m ∈ t.visits a root, m ∉ removed :=
  Arena.mem_pairsBelow_of_closed h.live _ (h.live root hroot)

theorem live_of_mem_leaves (h : a.IsClosed removed) (hroot : root ∉ removed) {i : Nat}
    (hi : i ∈ t.leaves a root) : i ∉ removed := by
  rcases Template.mem_of_mem_leaves hi with rfl | hi
  · exact hroot
  · exact h.live_of_mem_visits hroot i hi

/-- The edges of a leaf lead forward from the root. -/
theorem root_lt_of_leaf (h : a.IsClosed removed) {i k : Nat} (hi : i ∈ t.leaves a root)
    (hk : k ∈ a.outputs i) : root < k := by
  have hlt := h.forward i k hk
  rcases Template.mem_of_mem_leaves hi with rfl | hi
  · exact hlt
  · exact Nat.lt_trans (h.root_lt_of_mem_visits i hi) hlt

/-- A fusion keeps the live part of an arena closed, as long as what its leaves feed lies outside
of it. -/
theorem collapse (h : a.IsClosed removed) (hroot : root ∉ removed) {f : Fused}
    (hf : Collapsed t a root f)
    (houtside : ∀ i ∈ t.leaves a root, ∀ k ∈ a.outputs i, k ∉ t.visits a root) :
    f.arena.IsClosed (removed ++ t.visits a root) := by
  -- A node outside of the fusion stays a producer where it was one.
  have hproducer : ∀ i, i ≠ root → i ∉ t.visits a root → ∀ k, i ∈ a.inputs k →
      i ∈ f.arena.inputs k := by
    intro i hi hin k hk
    have hleaf : i ∉ t.leaves a root := fun hmem =>
      (Template.mem_of_mem_leaves hmem).elim hi hin
    rw [hf.inputs]
    exact List.mem_map.mpr ⟨i, hk, by simp [Walk.graft, hleaf]⟩
  refine ⟨fun i k hk => ?_, fun i hi k hk => ?_, fun i hi k hk => ?_⟩
  · by_cases hir : i = root
    · subst hir
      obtain ⟨leaf, hleaf, hk⟩ := hf.exists_leaf_of_mem_outputs hk
      exact h.root_lt_of_leaf hleaf hk
    · exact h.forward i k (hf.mem_outputs_of_ne hir hk)
  · rw [List.mem_append, not_or] at hi ⊢
    by_cases hir : i = root
    · subst hir
      obtain ⟨leaf, hleaf, hk⟩ := hf.exists_leaf_of_mem_outputs hk
      exact ⟨h.live leaf (h.live_of_mem_leaves hroot hleaf) k hk, houtside leaf hleaf k hk⟩
    · have hka := hf.mem_outputs_of_ne hir hk
      refine ⟨h.live i hi.1 k hka, fun hin => ?_⟩
      -- An edge into the fusion from outside is taken away.
      have hin' : k ∈ f.absorbed := hf.mem_absorbed.mpr hin
      have hi' : i ∉ f.absorbed := fun hmem => hi.2 (hf.mem_absorbed.mp hmem)
      rw [hf.outputs_outside i (by simp [Walk.IsInside, hir, hi'])] at hk
      have hpass := (List.mem_filter.mp hk).2
      simp [hin', hproducer i hir hi.2 k (h.entered i hi.1 k hka)] at hpass
  · rw [List.mem_append, not_or] at hi
    by_cases hir : i = root
    · subst hir
      obtain ⟨leaf, hleaf, hk⟩ := hf.exists_leaf_of_mem_outputs hk
      rw [hf.inputs]
      exact List.mem_map.mpr ⟨leaf, h.entered leaf (h.live_of_mem_leaves hroot hleaf) k hk,
        by simp [Walk.graft, hleaf, hk]⟩
    · exact hproducer i hir hi.2 k (h.entered i hi.1 k (hf.mem_outputs_of_ne hir hk))

end Arena.IsClosed

/-! ## Runs -/

/-- What some fusions leave is tidy: walks from live nodes come to live nodes only, and what is
absorbed is what the fusions have come to, each node once in all. -/
structure IsTidy (a : Arena) (removed : List Nat) (done : List Fusion) : Prop where
  reach : ∀ i, i ∉ removed → ∀ levels, ∀ m ∈ a.reach levels i, m ∉ removed
  removed_eq : removed = done.flatMap Fusion.visits
  once : (done.flatMap Fusion.visits).Nodup

section Step

variable {c : Config} {g : Graph} {templates : List Template} {a : Arena} {removed : List Nat}
  {f : Fusion}

theorem Fusion.IsValid.collapsed (hvalid : f.IsValid c g templates removed) (hbefore : f.before = a)
    (h : a.IsClosed removed) : Collapsed f.template a f.root f.made :=
  Template.collapsed_of_fuse (hbefore ▸ hvalid.fused) h.root_not_mem

/-- What a fusion absorbs is what it has come to. -/
theorem Fusion.IsValid.absorbedWith_eq (hvalid : f.IsValid c g templates removed)
    (hbefore : f.before = a) (h : a.IsClosed removed) (hnodup : f.visits.Nodup) :
    Pass.absorbedWith removed f = removed ++ f.visits := by
  subst hbefore
  rw [Pass.absorbedWith, (hvalid.collapsed rfl h).absorbed_eq hnodup, ← Fusion.visits,
    List.filter_eq_self.mpr]
  intro m hm
  simpa using h.live_of_mem_visits hvalid.live m hm

/-- A separate fusion keeps the live part of an arena closed. -/
theorem Arena.IsClosed.step (h : a.IsClosed removed) (hbefore : f.before = a)
    (hvalid : f.IsValid c g templates removed) (hseparate : f.IsSeparate) :
    f.made.arena.IsClosed (Pass.absorbedWith removed f) := by
  rw [hvalid.absorbedWith_eq hbefore h hseparate.nodup]
  subst hbefore
  exact h.collapse hvalid.live (hvalid.collapsed rfl h) hseparate.outside

/-- A fusion after which walks still come to live nodes only, and which comes to no node twice, is
separate. -/
theorem Fusion.IsValid.isSeparate (hvalid : f.IsValid c g templates removed)
    (hbefore : f.before = a) (h : a.IsClosed removed) (hnodup : f.visits.Nodup)
    (hreach : ∀ m ∈ f.made.arena.reach 1 f.root, m ∉ Pass.absorbedWith removed f) :
    f.IsSeparate where
  nodup := hnodup
  outside := fun i hi k hk hmem => by
    rw [hvalid.absorbedWith_eq hbefore h hnodup] at hreach
    subst hbefore
    -- The root has the edge of the leaf now.
    have hout : k ∈ f.made.arena.outputs f.root := by
      rw [(hvalid.collapsed rfl h).outputs_root]
      exact List.mem_flatMap.mpr ⟨i, hi, hk⟩
    exact hreach k (by simp [Arena.reach, hout]) (List.mem_append_right _ hmem)

end Step

namespace IsHistory

variable {c : Config} {g : Graph} {templates : List Template} {a₀ : Arena} {done : List Fusion}

/-- After separate fusions, what is live is closed, and what is absorbed was come to once. -/
theorem isClosed (h : IsHistory c g templates a₀ [] done) (hlinked : a₀.WellLinked)
    (hseparate : ∀ f ∈ done, f.IsSeparate) :
    (arenaAfter a₀ done).IsClosed (removedAfter [] done) ∧
      removedAfter [] done = done.flatMap Fusion.visits ∧
      (done.flatMap Fusion.visits).Nodup := by
  refine h.induction (motive := fun fs a removed => (∀ f ∈ fs, f.IsSeparate) →
      a.IsClosed removed ∧ removed = fs.flatMap Fusion.visits ∧ (fs.flatMap Fusion.visits).Nodup)
    (fun fs a removed f ih hbefore hvalid hseparate => ?_)
    (fun _ => ⟨hlinked.isClosed, rfl, by simp⟩) hseparate
  obtain ⟨hclosed, hremoved, hnodup⟩ := ih fun f' hf' => hseparate f' (by simp [hf'])
  have hf := hseparate f (by simp)
  refine ⟨hclosed.step hbefore hvalid hf, ?_, ?_⟩
  · rw [hvalid.absorbedWith_eq hbefore hclosed hf.nodup, hremoved]
    simp
  · rw [List.flatMap_append, List.flatMap_singleton, ← hremoved]
    refine List.nodup_append.mpr ⟨hremoved ▸ hnodup, hf.nodup, ?_⟩
    rintro m hm m' hm' rfl
    subst hbefore
    exact hclosed.live_of_mem_visits hvalid.live m hm' hm

theorem isTidy (h : IsHistory c g templates a₀ [] done) (hlinked : a₀.WellLinked)
    (hseparate : ∀ f ∈ done, f.IsSeparate) :
    IsTidy (arenaAfter a₀ done) (removedAfter [] done) done := by
  obtain ⟨hclosed, hremoved, hnodup⟩ := h.isClosed hlinked hseparate
  exact ⟨fun i hi _ _ hm => Arena.mem_reach_of_closed hclosed.live hi hm, hremoved, hnodup⟩

/-- Fusions leave what is tidy, one after the other, just where they are all separate. -/
theorem isSeparate_iff (h : IsHistory c g templates a₀ [] done) (hlinked : a₀.WellLinked) :
    (∀ f ∈ done, f.IsSeparate) ↔ ∀ front back, done = front ++ back →
      IsTidy (arenaAfter a₀ front) (removedAfter [] front) front := by
  constructor
  · rintro hseparate front back rfl
    exact h.left.isTidy hlinked fun f hf => hseparate f (List.mem_append_left _ hf)
  · -- From the end, since each fusion is made in what all those before it have left.
    induction done using List.reverseRecOn with
    | nil => simp
    | append_singleton front f ih =>
      intro htidy
      have hfront := ih h.left fun front' back' hsplit =>
        htidy front' (back' ++ [f]) (by rw [hsplit, List.append_assoc])
      obtain ⟨hclosed, -, -⟩ := h.left.isClosed hlinked hfront
      obtain ⟨hbefore, hvalid⟩ := h.next
      have hlast := htidy (front ++ [f]) [] (by simp)
      have hnodup : f.visits.Nodup := by
        have honce := hlast.once
        rw [List.flatMap_append, List.flatMap_singleton] at honce
        exact (List.nodup_append.mp honce).2.1
      have harena : arenaAfter a₀ (front ++ [f]) = f.made.arena := by simp [arenaAfter]
      have hremoved : removedAfter [] (front ++ [f])
          = Pass.absorbedWith (removedAfter [] front) f := by simp [removedAfter]
      have hroot : f.root ∉ Pass.absorbedWith (removedAfter [] front) f := by
        rw [hvalid.absorbedWith_eq hbefore hclosed hnodup, List.mem_append, not_or, Fusion.visits,
          hbefore]
        exact ⟨hvalid.live, hclosed.root_not_mem⟩
      have hreach := hlast.reach f.root (hremoved ▸ hroot) 1
      rw [harena, hremoved] at hreach
      have hsep := hvalid.isSeparate hbefore hclosed hnodup hreach
      intro f' hf'
      rcases List.mem_append.mp hf' with hf' | hf'
      · exact hfront f' hf'
      · rwa [List.mem_singleton.mp hf']

end IsHistory

/-- As long as all fusions are separate, and no longer, walks come to live nodes only, and each node
that is absorbed was come to once. -/
theorem Optimizer.isTidy_iff {o : Optimizer} {p : Program} {block : Block}
    (hblock : p.blocks = [block]) (hregistered : ∀ op ∈ block.ops, op.IsRegistered o.registry) :
    ∃ g, Graph.build o.registry block.ops = .ok g ∧
      (∀ s, o.fusePass g = .ok s → s.arena = arenaAfter g.arena (o.fusions p) ∧
        s.removed = removedAfter [] (o.fusions p)) ∧
      ∀ done rest, o.fusions p = done ++ rest →
        ((∀ front back, done = front ++ back →
            IsTidy (arenaAfter g.arena front) (removedAfter [] front) front) ↔
          ∀ f ∈ done, f.IsSeparate) ∧
        ((∀ f ∈ done, f.IsSeparate) → ∀ f ∈ rest.head?,
          f.template.fuse (arenaAfter g.arena done) f.root = .ok f.made ∧
          Collapsed f.template (arenaAfter g.arena done) f.root f.made ∧
          ∀ m ∈ f.root :: f.visits, m ∉ removedAfter [] done) := by
  obtain ⟨g, hg⟩ := Graph.exists_build hregistered
  have hlinked := (Graph.isOf_of_build hg).1.wellLinked
  rw [fusions_eq hblock hg]
  refine ⟨g, hg, fun s hs => o.isLeft_of_fusePass hs, fun done rest hsplit => ?_⟩
  have hhistory := o.isHistory g
  rw [hsplit] at hhistory
  refine ⟨(hhistory.left.isSeparate_iff hlinked).symm, fun hseparate f hf => ?_⟩
  obtain ⟨rest, rfl⟩ := List.head?_eq_some_iff.mp hf
  obtain ⟨hbefore, hvalid⟩ := hhistory.next
  obtain ⟨hclosed, -, -⟩ := hhistory.left.isClosed hlinked hseparate
  refine ⟨hbefore ▸ hvalid.fused, hvalid.collapsed hbefore hclosed, fun m hm => ?_⟩
  rcases List.mem_cons.mp hm with rfl | hm
  · exact hvalid.live
  · rw [Fusion.visits, hbefore] at hm
    exact hclosed.live_of_mem_visits hvalid.live m hm

/-- A template with two branches, and one that goes on from what it makes. -/
def branching : List Template :=
  [{ name := "branches"
     root := .node "relu" [.leaf "sigmoid", .leaf "elementwise_add"]
     fusedType := "relu" },
    .ofChain "softmax" "relu" ["elementwise_add"] []]

/-- Two branches that are joined behind what is fused. -/
def apartBranches : List Op :=
  [.ofTexts "relu" [("X", ["x"])] [("Out", ["a"])],
    .ofTexts "sigmoid" [("X", ["a"])] [("Out", ["b"])],
    .ofTexts "elementwise_add" [("X", ["a"])] [("Out", ["s"])],
    .ofTexts "concat" [("X", ["b", "s"])] [("Out", ["m"])]]

theorem isTidy_apartBranches :
    ((Optimizer.withTemplates branching).fusions (.ofOps apartBranches)).map
      (fun f => (f.root, f.visits)) = [(0, [1, 2])] ∧
    ∃ g, Graph.build (Optimizer.withTemplates branching).registry apartBranches = .ok g ∧
      IsTidy
        (arenaAfter g.arena ((Optimizer.withTemplates branching).fusions (.ofOps apartBranches)))
        (removedAfter [] ((Optimizer.withTemplates branching).fusions (.ofOps apartBranches)))
        ((Optimizer.withTemplates branching).fusions (.ofOps apartBranches)) := by
  have hregistered : ∀ op ∈ apartBranches, op.IsRegistered .standard := by decide +kernel
  have hblock : (Program.ofOps apartBranches).blocks = [{ ops := apartBranches }] := rfl
  have hseparate : ∀ f ∈ (Optimizer.withTemplates branching).fusions (.ofOps apartBranches),
      f.IsSeparate := by decide +kernel
  obtain ⟨g, hg, -, hrun⟩ :=
    Optimizer.isTidy_iff (o := .withTemplates branching) hblock hregistered
  obtain ⟨htidy, -⟩ := hrun _ [] (List.append_nil _).symm
  exact ⟨by decide +kernel, g, hg, htidy.mpr hseparate _ [] (List.append_nil _).symm⟩

/-- Two branches, the first of which feeds the second. -/
def linkedBranches : List Op :=
  [.ofTexts "relu" [("X", ["x"])] [("Out", ["a"])],
    .ofTexts "sigmoid" [("X", ["a"])] [("Out", ["b"])],
    .ofTexts "elementwise_add" [("X", ["a", "b"])] [("Out", ["s"])]]

/-- The root keeps an edge to what it has absorbed; the next template finds a match there, and
absorbs the same node again. -/
theorem exists_visit_of_removed_linkedBranches : ∃ done f,
    (Optimizer.withTemplates branching).fusions (.ofOps linkedBranches) = done ++ [f] ∧
    2 ∈ removedAfter [] done ∧ 2 ∈ f.before.reach (f.template.depth - 1) f.root ∧
    2 ∈ f.visits := by
  have hview : (((Optimizer.withTemplates branching).fusions (.ofOps linkedBranches)).getLast?.any
      fun f => decide (2 ∈ removedAfter []
          ((Optimizer.withTemplates branching).fusions (.ofOps linkedBranches)).dropLast ∧
        2 ∈ f.before.reach (f.template.depth - 1) f.root ∧ 2 ∈ f.visits)) = true := by
    decide +kernel
  obtain ⟨f, hf, hview⟩ := (Option.any_eq_true _ _).mp hview
  exact ⟨_, f, (List.dropLast_append_getLast? f hf).symm, of_decide_eq_true hview⟩

end TensorFusion
