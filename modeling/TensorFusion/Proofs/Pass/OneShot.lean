import Mathlib.Data.List.Nodup
import Mathlib.Data.List.Pairwise
import TensorFusion.Proofs.Graph.Build
import TensorFusion.Proofs.Pass.Fusions
import TensorFusion.Proofs.Pass.Live

/-!
# Proofs — Pass — One shot

A run of templates none of which looks for a type that another makes. A fused operator is then
never fused again, so the run takes apart the program in one go: every fusion is of operators that
the program was given with, no two fusions share one, and the others are left as they were.
-/

namespace TensorFusion

/-- Templates that each look for a path of at least two types, and never for a type that one of them
makes. -/
structure Template.AreFinal (templates : List Template) : Prop where
  chain : ∀ t ∈ templates, ∃ first second rest, t.root = .chain first (second :: rest)
  final : ∀ t ∈ templates, ∀ t' ∈ templates, ∀ first rest, t'.root = .chain first rest →
    ∀ opType ∈ first :: rest, t.fusedType.same opType = false

/-- The tails that some fusions leave behind. -/
def tailOf (fs : List Fusion) : Nat → Nat :=
  fs.foldl (fun tail f => tailWith tail f.root f.leaf) id

theorem tailOf_append (fs : List Fusion) (f : Fusion) :
    tailOf (fs ++ [f]) = tailWith (tailOf fs) f.root f.leaf := by
  simp [tailOf]

/-- What a fusion makes of the operator at its root. -/
def Fusion.opIn (a₀ : Arena) (f : Fusion) (op : Op) : Op :=
  f.template.fusedOp op (Walk.opsAt a₀ f.made.absorbed)

/-- A fusion of nodes of the first arena, all of whose edges but those from the last it has used
up. -/
structure Fusion.Stands (templates : List Template) (a₀ : Arena) (removed : List Nat) (f : Fusion) :
    Prop where
  template_mem : f.template ∈ templates
  path : ∃ first second rest, f.template.root = .chain first (second :: rest) ∧
    f.before.Path first (second :: rest) f.root f.made.absorbed
  ascending : f.members.Pairwise (· < ·)
  op? : ∀ m ∈ f.members, f.before.op? m = a₀.op? m
  edge : ∀ m ∈ f.members, ∀ k ∈ f.before.outputs m, k ∈ a₀.outputs m
  usedUp : ∀ m ∈ f.members, m ≠ f.leaf → ∀ k ∈ a₀.outputs m, k ∈ removed
  root_live : f.root ∉ removed
  absorbed_removed : ∀ m ∈ f.made.absorbed, m ∈ removed
  made_op? : f.made.arena.op? f.root = (a₀.op? f.root).map (f.opIn a₀)

/-- The state of a run in one go. -/
structure OneShot (templates : List Template) (a₀ : Arena) (fs : List Fusion) (a : Arena)
    (removed : List Nat) : Prop where
  live : Live a₀ (tailOf fs) a removed
  removed_eq : removed = fs.flatMap (·.made.absorbed)
  removed_nodup : removed.Nodup
  roots_nodup : (fs.map (·.root)).Nodup
  stands : ∀ f ∈ fs, f.Stands templates a₀ removed
  tail_root : ∀ f ∈ fs, tailOf fs f.root = f.leaf
  tail_ne : ∀ i, (∀ f ∈ fs, i ≠ f.root) → tailOf fs i = i
  op?_root : ∀ f ∈ fs, a.op? f.root = (a₀.op? f.root).map (f.opIn a₀)
  op?_ne : ∀ i, (∀ f ∈ fs, i ≠ f.root) → a.op? i = a₀.op? i

theorem OneShot.start (templates : List Template) (a₀ : Arena) :
    OneShot templates a₀ [] a₀ [] where
  live := Live.start a₀
  removed_eq := rfl
  removed_nodup := by simp
  roots_nodup := by simp
  stands := by simp
  tail_root := by simp
  tail_ne := fun _ _ => rfl
  op?_root := by simp
  op?_ne := fun _ _ => rfl

theorem Fusion.Stands.mono {templates : List Template} {a₀ : Arena} {removed more : List Nat}
    {f : Fusion} (h : f.Stands templates a₀ removed) (hroot : f.root ∉ more) :
    f.Stands templates a₀ (removed ++ more) where
  template_mem := h.template_mem
  path := h.path
  ascending := h.ascending
  op? := h.op?
  edge := h.edge
  usedUp := fun m hm hne k hk => List.mem_append_left _ (h.usedUp m hm hne k hk)
  root_live := by simp [h.root_live, hroot]
  absorbed_removed := fun m hm => List.mem_append_left _ (h.absorbed_removed m hm)
  made_op? := h.made_op?

namespace OneShot

variable {templates : List Template} {a₀ a : Arena} {fs : List Fusion} {removed : List Nat}
  {t : Template} {first second : Value} {rest : List Value} {root : Nat} {ks : List Nat}

/-- An operator is left as it was, or it is what a fusion has made of the root. -/
theorem op_cases (h : OneShot templates a₀ fs a removed) {i : Nat} {op' : Op}
    (hop : a.op? i = some op') : ((∀ f ∈ fs, i ≠ f.root) ∧ a₀.op? i = some op') ∨
      ∃ f ∈ fs, f.root = i ∧ ∃ op, a₀.op? i = some op ∧ op' = f.opIn a₀ op := by
  rcases Fusion.root_cases fs i with hi | ⟨f, hf, rfl⟩
  · exact .inl ⟨hi, by rw [← h.op?_ne i hi, hop]⟩
  · rw [h.op?_root f hf, Option.map_eq_some_iff] at hop
    obtain ⟨op, hop, rfl⟩ := hop
    exact .inr ⟨f, hf, rfl, op, hop, rfl⟩

/-- No node of a path that a template finds was made by a fusion. -/
theorem not_root_of_mem_path (h : OneShot templates a₀ fs a removed)
    (hfinal : Template.AreFinal templates) (ht : t ∈ templates) (hroot : t.root = .chain first rest)
    (hp : a.Path first rest root ks) {m : Nat} (hm : m ∈ root :: ks) : ∀ f ∈ fs, m ≠ f.root := by
  rintro f hf rfl
  obtain ⟨op, hop, ty, hty, hsame⟩ := hp.mem_type hm
  rw [h.op?_root f hf, Option.map_eq_some_iff] at hop
  obtain ⟨op₀, -, rfl⟩ := hop
  have hfused := hfinal.final f.template (h.stands f hf).template_mem t ht first rest hroot ty hty
  exact absurd hsame (by simpa [Fusion.opIn, Template.fusedOp] using hfused)

theorem op?_of_mem_path (h : OneShot templates a₀ fs a removed)
    (hfinal : Template.AreFinal templates) (ht : t ∈ templates) (hroot : t.root = .chain first rest)
    (hp : a.Path first rest root ks) {m : Nat} (hm : m ∈ root :: ks) : a.op? m = a₀.op? m :=
  h.op?_ne m (h.not_root_of_mem_path hfinal ht hroot hp hm)

theorem opsAt_path (h : OneShot templates a₀ fs a removed)
    (hfinal : Template.AreFinal templates) (ht : t ∈ templates) (hroot : t.root = .chain first rest)
    (hp : a.Path first rest root ks) : Walk.opsAt a ks = Walk.opsAt a₀ ks :=
  List.filterMap_congr fun _ hm =>
    h.op?_of_mem_path hfinal ht hroot hp (List.mem_cons_of_mem _ hm)

/-- A path that a template finds at a live node can be fused. -/
theorem fuse_path (h : OneShot templates a₀ fs a removed) (hlinked : a₀.WellLinked)
    (hTypes : ∀ i op, a₀.op? i = some op → ∃ opType, op.opType = .atom opType)
    (hfinal : Template.AreFinal templates) (ht : t ∈ templates)
    (hchain : t.root = .chain first (second :: rest))
    (hp : a.Path first (second :: rest) root ks) (hlive : root ∉ removed) :
    ∃ f, t.fuse a root = .ok f ∧ Contracted t a root ks f := by
  have hascending := h.live.pairwise_path hlinked hp hlive
  refine Template.fuse_path hchain hp (fun m hm op hop => ?_)
    (hascending.imp fun hlt => Nat.ne_of_lt hlt) fun k hk => ?_
  · rw [h.op?_of_mem_path hfinal ht hchain hp hm] at hop
    exact hTypes m op hop
  · exact h.live.range hlinked (h.live.live_of_mem_path hp hlive (leafOf_mem root ks)) hk

/-- A fusion by the rules is of a path, with what that makes of the arena. -/
theorem exists_path (h : OneShot templates a₀ fs a removed) (hlinked : a₀.WellLinked)
    (hTypes : ∀ i op, a₀.op? i = some op → ∃ opType, op.opType = .atom opType)
    (hfinal : Template.AreFinal templates) {c : Config} {g : Graph} {f : Fusion}
    (hbefore : f.before = a) (hvalid : f.IsValid c g templates removed) :
    ∃ first second rest, f.template.root = .chain first (second :: rest) ∧
      a.Path first (second :: rest) f.root f.made.absorbed ∧
      Contracted f.template a f.root f.made.absorbed f.made := by
  obtain ⟨first, second, rest, hchain⟩ := hfinal.chain f.template hvalid.template_mem
  obtain ⟨v, hv, hmatch⟩ := hvalid.matched
  obtain ⟨ks, hp⟩ := Template.path_of_examine hchain hv hmatch
  rw [hbefore] at hp
  obtain ⟨made, hmade, hc⟩ :=
    h.fuse_path hlinked hTypes hfinal hvalid.template_mem hchain hp hvalid.live
  have heq : made = f.made := by
    have hfused := hvalid.fused
    rw [hbefore, hmade] at hfused
    exact Except.ok.inj hfused
  subst heq
  rw [← hc.absorbed] at hp hc
  exact ⟨first, second, rest, hchain, hp, hc⟩

/-- At first a node of a path that a template finds has the consumers it has now, and those that
are absorbed by now. -/
theorem outputs_of_mem_path (h : OneShot templates a₀ fs a removed)
    (hfinal : Template.AreFinal templates) (ht : t ∈ templates) (hroot : t.root = .chain first rest)
    (hp : a.Path first rest root ks) (hlive : root ∉ removed) {m : Nat} (hm : m ∈ root :: ks) :
    a.outputs m = (a₀.outputs m).filter (· ∉ removed) := by
  rw [h.live.outputs m (h.live.live_of_mem_path hp hlive hm),
    h.tail_ne m (h.not_root_of_mem_path hfinal ht hroot hp hm)]

/-- No two fusions absorb the same node. -/
theorem eq_of_mem_absorbed (h : OneShot templates a₀ fs a removed) {f f' : Fusion} (hf : f ∈ fs)
    (hf' : f' ∈ fs) {m : Nat} (hm : m ∈ f.made.absorbed) (hm' : m ∈ f'.made.absorbed) : f = f' := by
  have hnodup := h.removed_nodup
  rw [h.removed_eq, List.nodup_flatMap] at hnodup
  by_contra hne
  have : Std.Symm (Function.onFun List.Disjoint fun f : Fusion => f.made.absorbed) :=
    ⟨fun _ _ hd _ hm hm' => hd hm' hm⟩
  exact hnodup.2.forall hf hf' hne hm hm'

/-- Fusions at different roots have no node in common. -/
theorem disjoint_members (h : OneShot templates a₀ fs a removed) {f f' : Fusion} (hf : f ∈ fs)
    (hf' : f' ∈ fs) (hne : f.root ≠ f'.root) : f.members.Disjoint f'.members := by
  intro m hm hm'
  have hroot : ∀ g ∈ fs, ∀ g' ∈ fs, g.root ∉ g'.made.absorbed := fun g hg g' hg' hmem =>
    (h.stands g hg).root_live ((h.stands g' hg').absorbed_removed _ hmem)
  rcases List.mem_cons.mp hm with rfl | hm <;> rcases List.mem_cons.mp hm' with heq | hm'
  · exact hne heq
  · exact hroot f hf f' hf' hm'
  · exact hroot f' hf' f hf (heq ▸ hm)
  · exact hne (congrArg Fusion.root (h.eq_of_mem_absorbed hf hf' hm hm'))

section Step

variable {f : Fusion}

/-- The operator that a fusion makes is put together of operators of the first arena. -/
theorem made_op? (h : OneShot templates a₀ fs a removed) (hfinal : Template.AreFinal templates)
    (ht : f.template ∈ templates) (hchain : f.template.root = .chain first rest)
    (hp : a.Path first rest f.root f.made.absorbed)
    (hc : Contracted f.template a f.root f.made.absorbed f.made) :
    f.made.arena.op? f.root = (a₀.op? f.root).map (f.opIn a₀) := by
  obtain ⟨op, hop, -⟩ := hp.head
  rw [hc.op?_root op hop, h.opsAt_path hfinal ht hchain hp,
    ← h.op?_of_mem_path hfinal ht hchain hp (List.mem_cons_self ..), hop]
  rfl

/-- The fusion of a path that a template finds at a live node is of nodes of the first arena. -/
theorem stands_of_path (h : OneShot templates a₀ fs a removed) (hlinked : a₀.WellLinked)
    (hfinal : Template.AreFinal templates) (hbefore : f.before = a) (ht : f.template ∈ templates)
    (hchain : f.template.root = .chain first (second :: rest))
    (hp : a.Path first (second :: rest) f.root f.made.absorbed) (hlive : f.root ∉ removed)
    (hc : Contracted f.template a f.root f.made.absorbed f.made) :
    f.Stands templates a₀ (removed ++ f.made.absorbed) where
  template_mem := ht
  path := ⟨first, second, rest, hchain, by rwa [hbefore]⟩
  ascending := h.live.pairwise_path hlinked hp hlive
  op? := fun m hm => by
    rw [hbefore]
    exact h.op?_of_mem_path hfinal ht hchain hp hm
  edge := fun m hm k hk => by
    rw [hbefore, h.outputs_of_mem_path hfinal ht hchain hp hlive hm] at hk
    exact (List.mem_filter.mp hk).1
  usedUp := fun m hm hne k hk => by
    -- What is not absorbed before is the one consumer on the path.
    obtain ⟨k', hk', hout⟩ := hp.outputs_of_ne_leaf hm hne
    by_cases hkLive : k ∈ removed
    · exact List.mem_append_left _ hkLive
    · have hmem : k ∈ a.outputs m := by
        rw [h.outputs_of_mem_path hfinal ht hchain hp hlive hm]
        exact List.mem_filter.mpr ⟨hk, by simpa using hkLive⟩
      rw [hout, List.mem_singleton] at hmem
      exact List.mem_append_right _ (hmem ▸ hk')
  root_live := by simpa [hlive] using h.live.root_not_mem hlinked hp hlive
  absorbed_removed := fun m hm => List.mem_append_right _ hm
  made_op? := h.made_op? hfinal ht hchain hp hc

/-- A fusion by the rules goes on with the run in one go. -/
theorem step (h : OneShot templates a₀ fs a removed) (hlinked : a₀.WellLinked)
    (hTypes : ∀ i op, a₀.op? i = some op → ∃ opType, op.opType = .atom opType)
    (hfinal : Template.AreFinal templates) {c : Config} {g : Graph}
    (hbefore : f.before = a) (hvalid : f.IsValid c g templates removed) :
    OneShot templates a₀ (fs ++ [f]) f.made.arena (Pass.absorbedWith removed f) := by
  obtain ⟨first, second, rest, hchain, hp, hc⟩ :=
    h.exists_path hlinked hTypes hfinal hbefore hvalid
  have ht := hvalid.template_mem
  have hlive : ∀ m ∈ f.members, m ∉ removed :=
    fun m hm => h.live.live_of_mem_path hp hvalid.live hm
  -- No member was made by an earlier fusion, so its tail and its operator are those of the start.
  have hnew : ∀ m ∈ f.members, ∀ f' ∈ fs, m ≠ f'.root :=
    fun m hm => h.not_root_of_mem_path hfinal ht hchain hp hm
  have hnewRoot : ∀ f' ∈ fs, f'.root ≠ f.root :=
    fun f' hf' => (hnew f.root (List.mem_cons_self ..) f' hf').symm
  have hnodup : f.members.Nodup :=
    (h.live.pairwise_path hlinked hp hvalid.live).imp fun hlt => Nat.ne_of_lt hlt
  have hremoved : Pass.absorbedWith removed f = removed ++ f.made.absorbed := by
    rw [Pass.absorbedWith, List.filter_eq_self.mpr]
    intro m hm
    simpa using hlive m (List.mem_cons_of_mem _ hm)
  have hks : f.made.absorbed ≠ [] := List.ne_nil_of_length_pos (by simp [hp.length_eq])
  rw [hremoved]
  refine ⟨?_, ?_, ?_, ?_, fun f' hf' => ?_, fun f' hf' => ?_, fun i hi => ?_, fun f' hf' => ?_,
    fun i hi => ?_⟩
  · rw [tailOf_append]
    exact h.live.contract hlinked hp hks hvalid.live hc
  · simp [h.removed_eq]
  · refine List.nodup_append.mpr ⟨h.removed_nodup, (List.nodup_cons.mp hnodup).2, ?_⟩
    rintro m hm m' hm' rfl
    exact hlive m (List.mem_cons_of_mem _ hm') hm
  · rw [List.map_append, List.nodup_append]
    refine ⟨h.roots_nodup, by simp, ?_⟩
    rintro m hm m' hm' rfl
    obtain ⟨f', hf', rfl⟩ := List.mem_map.mp hm
    exact hnewRoot f' hf' (by simpa using hm')
  · rcases List.mem_append.mp hf' with hf' | hf'
    · refine (h.stands f' hf').mono fun hmem => ?_
      exact hnew f'.root (List.mem_cons_of_mem _ hmem) f' hf' rfl
    · rw [List.mem_singleton.mp hf']
      exact h.stands_of_path hlinked hfinal hbefore ht hchain hp hvalid.live hc
  · rw [tailOf_append, tailWith]
    rcases List.mem_append.mp hf' with hf' | hf'
    · rw [if_neg (hnewRoot f' hf')]
      exact h.tail_root f' hf'
    · rw [List.mem_singleton.mp hf', if_pos rfl]
      exact h.tail_ne f.leaf (hnew _ (leafOf_mem _ _))
  · rw [tailOf_append, tailWith, if_neg (hi f (by simp))]
    exact h.tail_ne i fun f' hf' => hi f' (by simp [hf'])
  · rcases List.mem_append.mp hf' with hf' | hf'
    · rw [hc.op?_ne _ (hnewRoot f' hf')]
      exact h.op?_root f' hf'
    · rw [List.mem_singleton.mp hf']
      exact h.made_op? hfinal ht hchain hp hc
  · rw [hc.op?_ne i (hi f (by simp))]
    exact h.op?_ne i fun f' hf' => hi f' (by simp [hf'])

end Step

end OneShot

end TensorFusion
