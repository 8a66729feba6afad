import TensorFusion.Proofs.Pass.Reach

/-!
# Proofs — Pass — Frame

What the fusions of a pass leave alone, with templates of any shape. The operators of the result
stand in the order of the program. Those that were never fused into are as they were; the others
have kept what they read, and have the type that the last fusion gave them.
-/

namespace TensorFusion

theorem Template.lt_size_of_fuse {t : Template} {a : Arena} {root : Nat} {f : Fused}
    (h : t.fuse a root = .ok f) : root < a.size := by
  unfold fuse at h
  split at h
  next => cases h
  next node hnode =>
    have hop : a.op? root = some node.op := by simp [Arena.op?, hnode]
    exact Arena.lt_size_of_op? hop

/-- What some fusions have left of the operators of an arena, each position against the first
arena. -/
structure Framed (a₀ : Arena) (fs : List Fusion) (a : Arena) : Prop where
  forward : a.IsForward
  size : a.size = a₀.size
  spared : ∀ i, (∀ f ∈ fs, f.root ≠ i) → a.op? i = a₀.op? i
  inputs : ∀ i, (a.op? i).map (·.inputs) = (a₀.op? i).map (·.inputs)
  opType : ∀ front f back, fs = front ++ f :: back → (∀ f' ∈ back, f'.root ≠ f.root) →
    (a.op? f.root).map (·.opType) = some f.template.fusedType

theorem Framed.start {a₀ : Arena} (h : a₀.IsForward) : Framed a₀ [] a₀ where
  forward := h
  size := rfl
  spared := fun _ _ => rfl
  inputs := fun _ => rfl
  opType := fun front f back hnil => by simp at hnil

section Step

variable {c : Config} {g : Graph} {templates : List Template} {a₀ a : Arena} {fs : List Fusion}
  {removed : List Nat} {f : Fusion}

/-- Where edges lead forward, a fusion by the rules collapses what it comes to. -/
theorem Fusion.IsValid.collapsed_of_isForward (hvalid : f.IsValid c g templates removed)
    (hbefore : f.before = a) (h : a.IsForward) : Collapsed f.template a f.root f.made :=
  Template.collapsed_of_fuse (hbefore ▸ hvalid.fused) (Template.root_not_mem_visits h.outputs)

/-- A fusion by the rules keeps the frame. -/
theorem Framed.step (h : Framed a₀ fs a) (hbefore : f.before = a)
    (hvalid : f.IsValid c g templates removed) : Framed a₀ (fs ++ [f]) f.made.arena := by
  have hcollapsed := hvalid.collapsed_of_isForward hbefore h.forward
  obtain ⟨op, hop⟩ := Arena.op?_of_lt (Template.lt_size_of_fuse (hbefore ▸ hvalid.fused))
  have hroot := hcollapsed.op?_root op hop
  refine ⟨hcollapsed.isForward h.forward, hcollapsed.size.trans h.size, fun i hi => ?_, fun i => ?_,
    fun front f' back hsplit hback => ?_⟩
  · rw [hcollapsed.op?_ne i (hi f (by simp)).symm]
    exact h.spared i fun f' hf' => hi f' (by simp [hf'])
  · rw [← h.inputs i]
    by_cases hi : i = f.root
    · rw [hi, hroot, hop]
      rfl
    · rw [hcollapsed.op?_ne i hi]
  · rcases List.eq_nil_or_concat back with rfl | ⟨back, last, rfl⟩
    · -- The fusion is the one that was made last.
      obtain ⟨-, hlast⟩ := List.append_inj' hsplit rfl
      obtain rfl := List.singleton_inj.mp hlast
      rw [hroot]
      rfl
    · rw [List.concat_eq_append] at hsplit hback
      rw [← List.cons_append, ← List.append_assoc] at hsplit
      obtain ⟨hfront, hlast⟩ := List.append_inj' hsplit rfl
      obtain rfl := List.singleton_inj.mp hlast
      rw [hcollapsed.op?_ne f'.root (hback f (by simp)).symm]
      exact h.opType front f' back hfront fun g' hg' => hback g' (by simp [hg'])

end Step

/-- After any number of fusions by the rules the frame is kept. -/
theorem IsHistory.framed {c : Config} {g : Graph} {templates : List Template} {a₀ : Arena}
    {fs : List Fusion} (h : IsHistory c g templates a₀ [] fs) (hforward : a₀.IsForward) :
    Framed a₀ fs (arenaAfter a₀ fs) :=
  h.induction (motive := fun fs a _ => Framed a₀ fs a)
    (fun _ _ _ _ hframed hbefore hvalid => hframed.step hbefore hvalid) (Framed.start hforward)

/-! ## Results -/

/-- What a result keeps of the operators of a program, each of which stands for a position that is
kept. -/
structure KeepsFrame (fs : List Fusion) (ops : List Op) (kept : List Nat) (result : List Op) :
    Prop where
  ascending : kept.Pairwise (· < ·)
  range : ∀ i ∈ kept, i < ops.length
  length : result.length = kept.length
  spared : ∀ x i : Nat, kept[x]? = some i → (∀ f ∈ fs, f.root ≠ i) → result[x]? = ops[i]?
  inputs : ∀ x i : Nat, kept[x]? = some i →
    (result[x]?).map (·.inputs) = (ops[i]?).map (·.inputs)
  opType : ∀ front f back, fs = front ++ f :: back → (∀ f' ∈ back, f'.root ≠ f.root) →
    ∀ x : Nat, kept[x]? = some f.root →
      (result[x]?).map (·.opType) = some f.template.fusedType

theorem Framed.of_survivors {r : Registry} {ops : List Op} {g : Graph} {fs : List Fusion} {a : Arena}
    (h : Framed g.arena fs a) (hg : g.IsOf r ops) (removed : List Nat) :
    KeepsFrame fs ops (survivorsOf removed ops.length)
      ((survivorsOf removed a.size).filterMap a.op?) := by
  have hsize : a.size = ops.length := h.size.trans hg.size
  have hresult : ∀ x i : Nat, (survivorsOf removed ops.length)[x]? = some i →
      ((survivorsOf removed a.size).filterMap a.op?)[x]? = a.op? i := by
    intro x i hi
    rw [Arena.getElem?_survivors, hsize, hi]
    rfl
  refine ⟨survivorsOf_pairwise _ _, fun i hi => (mem_survivorsOf.mp hi).1, ?_,
    fun x i hi hspared => ?_, fun x i hi => ?_, fun front f back hsplit hback x hx => ?_⟩
  · rw [Arena.length_survivors, hsize]
  · rw [hresult x i hi, h.spared i hspared, hg.op?]
  · rw [hresult x i hi, h.inputs, hg.op?]
  · rw [hresult x f.root hx, h.opType front f back hsplit hback]

/-- An optimization that comes to a result keeps the frame, whatever its templates look like. The
edges lead forward after each of its fusions, so none absorbs its own root. Where nothing is fused,
the program comes back as it was. -/
theorem Optimizer.keepsFrame {o : Optimizer} {p : Program} {block : Block}
    (hblock : p.blocks = [block]) {out : Outcome} (h : (o.optimize p).result = .ok out) :
    ∃ g s result, Graph.build o.registry block.ops = .ok g ∧ o.fusePass g = .ok s ∧
      s.arena = arenaAfter g.arena (o.fusions p) ∧ s.removed = removedAfter [] (o.fusions p) ∧
      out.program.blocks = [{ vars := block.vars, ops := result }] ∧
      KeepsFrame (o.fusions p) block.ops (survivorsOf s.removed block.ops.length) result ∧
      (∀ done rest, o.fusions p = done ++ rest → (arenaAfter g.arena done).IsForward ∧
        ∀ f ∈ rest.head?, f.template.fuse (arenaAfter g.arena done) f.root = .ok f.made ∧
          f.root ∉ f.made.absorbed) ∧
      (o.fusions p = [] ∨ o.config.fuses = false → out.program = p) := by
  have hnothing : o.fusions p = [] → out.program = p := program_eq_of_fusions_eq_nil h
  obtain ⟨block', g, s, hblock', hg, hs, rfl⟩ := optimize_eq_ok h
  rw [hblock] at hblock'
  cases hblock'
  obtain ⟨hgraph, -⟩ := Graph.isOf_of_build hg
  obtain ⟨harena, hremoved⟩ := o.isLeft_of_fusePass hs
  have hhistory := o.isHistory g
  rw [fusions_eq hblock hg] at hnothing ⊢
  have hforward := hgraph.wellLinked.isForward
  refine ⟨g, s, _, hg, hs, harena, hremoved, rfl, ?_, fun done rest hsplit => ?_, fun hoff => ?_⟩
  · rw [harena]
    exact (hhistory.framed hforward).of_survivors hgraph s.removed
  · rw [hsplit] at hhistory
    have hframed := hhistory.left.framed hforward
    refine ⟨hframed.forward, fun f hf => ?_⟩
    obtain ⟨rest, rfl⟩ := List.head?_eq_some_iff.mp hf
    obtain ⟨hbefore, hvalid⟩ := hhistory.next
    refine ⟨hbefore ▸ hvalid.fused, fun hmem => ?_⟩
    rw [(hvalid.collapsed_of_isForward hbefore hframed.forward).mem_absorbed] at hmem
    exact Template.root_not_mem_visits hframed.forward.outputs hmem
  · refine hnothing (hoff.elim id fun hfuses => ?_)
    rw [fusionsIn, hfuses]
    rfl

/-- Two fusions at one root, the second of which finds what the first has made. -/
theorem keepsFrame_linkedBranches :
    ((Optimizer.withTemplates branching).fusions (.ofOps linkedBranches)).map (·.root) = [0, 0] ∧
    ∃ out, ((Optimizer.withTemplates branching).optimize (.ofOps linkedBranches)).result = .ok out ∧
    ∃ g s result, Graph.build Registry.standard linkedBranches = .ok g ∧
      (Optimizer.withTemplates branching).fusePass g = .ok s ∧
      s.arena = arenaAfter g.arena
        ((Optimizer.withTemplates branching).fusions (.ofOps linkedBranches)) ∧
      s.removed = removedAfter []
        ((Optimizer.withTemplates branching).fusions (.ofOps linkedBranches)) ∧
      out.program.blocks = [{ ops := result }] ∧
      KeepsFrame ((Optimizer.withTemplates branching).fusions (.ofOps linkedBranches))
        linkedBranches (survivorsOf s.removed linkedBranches.length) result := by
  obtain ⟨out, hout⟩ := exists_ok_of_isOk
    (x := ((Optimizer.withTemplates branching).optimize (.ofOps linkedBranches)).result)
    (by decide +kernel)
  obtain ⟨g, s, result, hg, hs, harena, hremoved, hblocks, hkeeps, -⟩ :=
    Optimizer.keepsFrame (o := .withTemplates branching) rfl hout
  exact ⟨by decide +kernel, out, hout, g, s, result, hg, hs, harena, hremoved, hblocks, hkeeps⟩

end TensorFusion
