import TensorFusion.Proofs.Graph.Merge
import TensorFusion.Proofs.Pass.Linear

/-!
# Proofs — Pass — Conserved

What becomes of the results of a program, with templates without branches. Each operator that is
left has the output slots of one operator of the program: its own, or those of the last operator
that was fused into it. No two operators that are left have the slots of the same one, and an
operator whose slots are lost has only fed operators that are absorbed.
-/

namespace TensorFusion

/-! ## Names, each once -/

/-- No name comes after another spelling of it. -/
def IsFreeOfRepeats (names : List Value) : Prop :=
  names.Pairwise fun n m => n.same m = false

theorem isFreeOfRepeats_appendNew {names : List Value} (h : IsFreeOfRepeats names)
    (more : List Value) : IsFreeOfRepeats (appendNew names more) := by
  induction more generalizing names with
  | nil => exact h
  | cons name more ih =>
    rw [appendNew_cons]
    split
    next => exact ih h
    next hnew =>
      refine ih (List.pairwise_append.mpr ⟨h, List.pairwise_singleton _ _, fun n hn m hm => ?_⟩)
      rw [List.mem_singleton.mp hm]
      simpa using fun hsame => hnew (List.any_eq_true.mpr ⟨n, hn, hsame⟩)

/-- Names without repeats are all taken over. -/
theorem appendNew_eq_append {names more : List Value} (h : IsFreeOfRepeats (names ++ more)) :
    appendNew names more = names ++ more := by
  induction more generalizing names with
  | nil => exact (List.append_nil names).symm
  | cons name more ih =>
    have hnew : names.any (·.same name) = false := by
      rw [List.any_eq_false]
      intro n hn
      simpa using (List.pairwise_append.mp h).2.2 n hn name (by simp)
    rw [appendNew_cons, hnew]
    have hrest : IsFreeOfRepeats ((names ++ [name]) ++ more) := by simpa using h
    simpa using ih hrest

/-- Names of which each is there once are left as they are. -/
theorem appendNew_idem (names : List Value) :
    appendNew [] (appendNew [] names) = appendNew [] names := by
  have h : IsFreeOfRepeats ([] ++ appendNew [] names) :=
    isFreeOfRepeats_appendNew List.Pairwise.nil names
  exact appendNew_eq_append h

/-- Output slots with each name once. -/
def Slots.withoutRepeats (slots : Slots) : Slots := slots.mapValues (appendNew [])

theorem Slots.withoutRepeats_idem (slots : Slots) :
    slots.withoutRepeats.withoutRepeats = slots.withoutRepeats := by
  refine Table.ext ?_
  simp [withoutRepeats, Table.mapValues, Function.comp_def, appendNew_idem]

/-! ## Fusions -/

/-- A node that was never fused into ends where it begins. -/
theorem tailOf_of_spared {fs : List Fusion} {i : Nat} (h : ∀ f ∈ fs, f.root ≠ i) :
    tailOf fs i = i := by
  induction fs using List.reverseRecOn with
  | nil => rfl
  | append_singleton fs f ih =>
    rw [tailOf_append, tailWith, if_neg (h f (by simp)).symm]
    exact ih fun f' hf' => h f' (by simp [hf'])

/-- Each live operator has the outputs of the operator that it ends with, and an operator that none
ends with has only fed what is absorbed. -/
structure Conserved (a₀ : Arena) (fs : List Fusion) (a : Arena) (removed : List Nat) : Prop where
  live : Live a₀ (tailOf fs) a removed
  outputs : ∀ i op, i ∉ removed → a.op? i = some op → ∃ op₀, a₀.op? (tailOf fs i) = some op₀ ∧
    (op.outputs = op₀.outputs ∨
      (∃ f ∈ fs, f.root = i) ∧ op.outputs = op₀.outputs.withoutRepeats)
  interior : ∀ w < a₀.size, (∃ i, i ∉ removed ∧ tailOf fs i = w) ∨
    a₀.outputs w ≠ [] ∧ ∀ k ∈ a₀.outputs w, k ∈ removed

theorem Conserved.start (a₀ : Arena) : Conserved a₀ [] a₀ [] where
  live := Live.start a₀
  outputs := fun _ op _ hop => ⟨op, hop, .inl rfl⟩
  interior := fun w _ => .inl ⟨w, by simp, rfl⟩

section Step

variable {c : Config} {g : Graph} {templates : List Template} {a₀ a : Arena} {fs : List Fusion}
  {removed : List Nat} {f : Fusion}

/-- A fused operator has the outputs of the last of the operators, each name once where there were
several operators. -/
theorem Fusion.outputs_of_path {first : Value} {rest : List Value}
    (hchain : f.template.root = .chain first rest)
    (hp : a.Path first rest f.root f.made.absorbed) (hf : Collapsed f.template a f.root f.made) :
    ∃ op last, f.made.arena.op? f.root = some op ∧ a.op? f.leaf = some last ∧
      (op.outputs = last.outputs ∨ op.outputs = last.outputs.withoutRepeats) := by
  obtain ⟨op, hop, -⟩ := hp.head
  have hlast := hp.op?_leaf hop
  have hleaf : Walk.opsAt a [leafOf f.root f.made.absorbed]
      = [(Walk.opsAt a f.made.absorbed).getLastD op] := List.filterMap_cons_some hlast
  refine ⟨_, _, hf.op?_root op hop, hlast, ?_⟩
  rw [hp.leaves_eq hchain, hleaf, Template.fusedOutputs, hchain]
  cases rest with
  | nil =>
    have hnil : f.made.absorbed = [] := List.length_eq_zero_iff.mp hp.length_eq
    rw [hnil]
    exact .inl rfl
  | cons second rest => exact .inr (Slots.join_empty _)

/-- A fusion by the rules conserves the outputs. -/
theorem Conserved.step (h : Conserved a₀ fs a removed) (hlinked : a₀.WellLinked)
    (hlinear : f.template.root.isLinear = true) (hbefore : f.before = a)
    (hvalid : f.IsValid c g templates removed) :
    Conserved a₀ (fs ++ [f]) f.made.arena (Pass.absorbedWith removed f) := by
  obtain ⟨first, rest, hchain, hp, hf, hnodup⟩ := h.live.exists_path hlinked hlinear hbefore hvalid
  have hlive := h.live.step hlinked hlinear hbefore hvalid
  rw [h.live.absorbedWith_eq hlinked hlinear hbefore hvalid] at hlive ⊢
  have hmembers : ∀ m ∈ f.members, m ∉ removed := fun m hm =>
    h.live.live_of_mem_path hp hvalid.live hm
  have hroot : f.root ∉ removed ++ f.made.absorbed := by
    simpa using ⟨hvalid.live, (List.nodup_cons.mp hnodup).1⟩
  refine ⟨by rwa [tailOf_append], fun i op hi hop => ?_, fun w hw => ?_⟩
  · rw [tailOf_append, tailWith]
    split
    next hir =>
      -- The root has the outputs of the leaf, which has those of its own tail.
      subst hir
      obtain ⟨op', last, hop', hlast, houtputs⟩ := Fusion.outputs_of_path hchain hp hf
      rw [hop] at hop'
      cases hop'
      obtain ⟨op₀, hop₀, houtputs₀⟩ := h.outputs f.leaf last (hmembers _ (leafOf_mem _ _)) hlast
      refine ⟨op₀, hop₀, ?_⟩
      have hfused : ∃ f' ∈ fs ++ [f], f'.root = f.root := ⟨f, by simp, rfl⟩
      rcases houtputs with houtputs | houtputs <;> rcases houtputs₀ with houtputs₀ | ⟨-, houtputs₀⟩
      · exact .inl (houtputs.trans houtputs₀)
      · exact .inr ⟨hfused, houtputs.trans houtputs₀⟩
      · exact .inr ⟨hfused, by rw [houtputs, houtputs₀]⟩
      · exact .inr ⟨hfused, by rw [houtputs, houtputs₀, Slots.withoutRepeats_idem]⟩
    next hir =>
      rw [hf.op?_ne i hir] at hop
      have hi' : i ∉ removed := fun hmem => hi (List.mem_append_left _ hmem)
      obtain ⟨op₀, hop₀, houtputs⟩ := h.outputs i op hi' hop
      refine ⟨op₀, hop₀, houtputs.imp_right fun hfused => ?_⟩
      obtain ⟨⟨f', hf', heq⟩, hsame⟩ := hfused
      exact ⟨⟨f', List.mem_append_left _ hf', heq⟩, hsame⟩
  · rcases h.interior w hw with ⟨i, hi, rfl⟩ | ⟨hfeeds, hgone⟩
    · by_cases hmem : i ∈ f.members
      · by_cases hleaf : i = f.leaf
        · exact .inl ⟨f.root, hroot, by rw [tailOf_append, tailWith, if_pos rfl, hleaf]⟩
        · -- A node before the leaf feeds the next one only, which is absorbed now.
          obtain ⟨k, hk, hout⟩ := hp.outputs_of_ne_leaf hmem hleaf
          have hfilter := h.live.outputs i hi
          rw [hout] at hfilter
          refine .inr ⟨fun hnil => ?_, fun k' hk' => ?_⟩
          · rw [hnil] at hfilter
            simp at hfilter
          · by_cases hgone : k' ∈ removed
            · exact List.mem_append_left _ hgone
            · have hmem' : k' ∈ [k] := by
                rw [hfilter]
                exact List.mem_filter.mpr ⟨hk', by simpa using hgone⟩
              rw [List.mem_singleton.mp hmem']
              exact List.mem_append_right _ hk
      · obtain ⟨hir, habsorbed⟩ := not_or.mp (mt List.mem_cons.mpr hmem)
        refine .inl ⟨i, by simp [hi, habsorbed], ?_⟩
        rw [tailOf_append, tailWith, if_neg hir]
    · exact .inr ⟨hfeeds, fun k hk => List.mem_append_left _ (hgone k hk)⟩

end Step

/-- After any number of fusions with templates without branches the outputs are conserved. -/
theorem IsHistory.conserved {c : Config} {g : Graph} {templates : List Template} {a₀ : Arena}
    {fs : List Fusion} (h : IsHistory c g templates a₀ [] fs)
    (hlinear : ∀ t ∈ templates, t.root.isLinear = true) (hlinked : a₀.WellLinked) :
    Conserved a₀ fs (arenaAfter a₀ fs) (removedAfter [] fs) :=
  h.induction (motive := Conserved a₀)
    (fun _ _ _ _ hconserved hbefore hvalid =>
      hconserved.step hlinked (hlinear _ hvalid.template_mem) hbefore hvalid) (Conserved.start a₀)

/-! ## Results -/

/-- No name is put out by two operators, in whatever slots. -/
def PutsOutOnce (ops : List Op) : Prop :=
  ∀ (i j : Nat) (op op' : Op) (name : Atom), ops[i]? = some op → ops[j]? = some op' →
    op.putsOut name = true → op'.putsOut name = true → i = j

/-- The operators of a result, each of which stands for a position that is kept, have the outputs of
operators of the program, found by a map of the positions. -/
structure ConservesOutputs (r : Registry) (fs : List Fusion) (ops : List Op) (kept : List Nat)
    (result : List Op) (source : Nat → Nat) : Prop where
  ascending : kept.Pairwise (· < ·)
  length : result.length = kept.length
  range : ∀ i ∈ kept, source i < ops.length
  injective : ∀ i ∈ kept, ∀ j ∈ kept, source i = source j → i = j
  le_source : ∀ i ∈ kept, i ≤ source i
  spared : ∀ i ∈ kept, (∀ f ∈ fs, f.root ≠ i) → source i = i
  outputs : ∀ (x i : Nat) (op : Op), kept[x]? = some i → result[x]? = some op →
    ∃ op₀, ops[source i]? = some op₀ ∧ (op.outputs = op₀.outputs ∨
      (∃ f ∈ fs, f.root = i) ∧ op.outputs = op₀.outputs.withoutRepeats)
  interior : ∀ w < ops.length, w ∉ kept.map source →
    consumersOf r ops ops.length w ≠ [] ∧ ∀ k ∈ consumersOf r ops ops.length w, k ∉ kept

theorem Conserved.of_survivors {r : Registry} {ops : List Op} {g : Graph} {fs : List Fusion}
    {a : Arena} {removed : List Nat} (h : Conserved g.arena fs a removed) (hg : g.IsOf r ops) :
    ConservesOutputs r fs ops (survivorsOf removed ops.length)
      ((survivorsOf removed a.size).filterMap a.op?) (tailOf fs) := by
  have hsize : a.size = ops.length := h.live.size.trans hg.size
  have hlive : ∀ i ∈ survivorsOf removed ops.length, i ∉ removed := fun i hi =>
    (mem_survivorsOf.mp hi).2
  have houtputs : ∀ i op, i ∉ removed → a.op? i = some op → ∃ op₀, ops[tailOf fs i]? = some op₀ ∧
      (op.outputs = op₀.outputs ∨
        (∃ f ∈ fs, f.root = i) ∧ op.outputs = op₀.outputs.withoutRepeats) := by
    intro i op hi hop
    rw [← hg.op?]
    exact h.outputs i op hi hop
  refine ⟨survivorsOf_pairwise _ _, ?_, fun i hi => ?_, fun i hi j hj => ?_, fun i hi => ?_,
    fun i _ => tailOf_of_spared, fun x i op hi hop => ?_, fun w hw hlost => ?_⟩
  · rw [Arena.length_survivors, hsize]
  · obtain ⟨op, hop⟩ := Arena.op?_of_lt (hsize ▸ (mem_survivorsOf.mp hi).1)
    obtain ⟨op₀, hop₀, -⟩ := houtputs i op (hlive i hi) hop
    exact (List.getElem?_eq_some_iff.mp hop₀).1
  · exact h.live.tail_inj i j (hlive i hi) (hlive j hj)
  · exact h.live.le_tail i (hlive i hi)
  · rw [Arena.getElem?_survivors, hsize, hi] at hop
    exact houtputs i op (hlive i (List.mem_of_getElem? hi)) hop
  · rw [← hg.outputs]
    rcases h.interior w (hg.size ▸ hw) with ⟨i, hi, rfl⟩ | ⟨hfeeds, hgone⟩
    · have hle := h.live.le_tail i hi
      exact absurd (List.mem_map_of_mem (mem_survivorsOf.mpr ⟨by omega, hi⟩)) hlost
    · exact ⟨hfeeds, fun k hk hkept => hlive k hkept (hgone k hk)⟩

/-- Where the outputs are conserved, no name is put out twice that was put out once. -/
theorem ConservesOutputs.putsOutOnce {r : Registry} {fs : List Fusion} {ops result : List Op}
    {kept : List Nat} {source : Nat → Nat}
    (h : ConservesOutputs r fs ops kept result source) (honce : PutsOutOnce ops) :
    PutsOutOnce result := by
  have hsource : ∀ (x : Nat) (op : Op) (name : Atom), result[x]? = some op →
      op.putsOut name = true → ∃ i op₀, kept[x]? = some i ∧ ops[source i]? = some op₀ ∧
        op₀.putsOut name = true := by
    intro x op name hop hputs
    have hx : x < kept.length := h.length ▸ (List.getElem?_eq_some_iff.mp hop).1
    have hi : kept[x]? = some kept[x] := List.getElem?_eq_getElem hx
    obtain ⟨op₀, hop₀, houtputs⟩ := h.outputs x _ op hi hop
    refine ⟨_, op₀, hi, hop₀, ?_⟩
    rcases houtputs with houtputs | ⟨-, houtputs⟩
    · rwa [Op.putsOut, houtputs] at hputs
    · rwa [Op.putsOut, houtputs, Slots.withoutRepeats, ← Slots.join_empty,
        Slots.any_names_join_empty] at hputs
  intro x y op op' name hop hop' hputs hputs'
  obtain ⟨i, op₀, hi, hop₀, hputs₀⟩ := hsource x op name hop hputs
  obtain ⟨j, op₁, hj, hop₁, hputs₁⟩ := hsource y op' name hop' hputs'
  -- The two operators have the outputs of one, so they stand for one position.
  have heq := h.injective i (List.mem_of_getElem? hi) j (List.mem_of_getElem? hj)
    (honce _ _ op₀ op₁ name hop₀ hop₁ hputs₀ hputs₁)
  subst heq
  have hnodup : kept.Nodup := h.ascending.imp Nat.ne_of_lt
  obtain ⟨hx, hx'⟩ := List.getElem?_eq_some_iff.mp hi
  obtain ⟨hy, hy'⟩ := List.getElem?_eq_some_iff.mp hj
  exact (hnodup.getElem_inj_iff).mp (hx'.trans hy'.symm)

/-- An optimization with templates without branches conserves the outputs: those of an operator of
the result are the outputs of the operator that it ends with, which is never shared. An operator
whose outputs are not in the result was read, and by absorbed operators only. -/
theorem Optimizer.conservesOutputs {o : Optimizer} {p : Program} {block : Block} {out : Outcome}
    (hlinear : ∀ t ∈ o.catalog.templates, t.root.isLinear = true) (hblock : p.blocks = [block])
    (h : (o.optimize p).result = .ok out) :
    ∃ g s result, Graph.build o.registry block.ops = .ok g ∧ o.fusePass g = .ok s ∧
      s.removed = removedAfter [] (o.fusions p) ∧
      out.program.blocks = [{ vars := block.vars, ops := result }] ∧
      ConservesOutputs o.registry (o.fusions p) block.ops (survivorsOf s.removed block.ops.length)
        result (tailOf (o.fusions p)) ∧
      (PutsOutOnce block.ops → PutsOutOnce result) := by
  obtain ⟨block', g, s, hblock', hg, hs, rfl⟩ := optimize_eq_ok h
  rw [hblock] at hblock'
  cases hblock'
  obtain ⟨hgraph, -⟩ := Graph.isOf_of_build hg
  obtain ⟨harena, hremoved⟩ := o.isLeft_of_fusePass hs
  have hconserved := (o.isHistory g).conserved hlinear hgraph.wellLinked
  rw [fusions_eq hblock hg]
  rw [← harena, ← hremoved] at hconserved
  have hresult := hconserved.of_survivors hgraph
  exact ⟨g, s, _, hg, hs, hremoved, rfl, hresult, hresult.putsOutOnce⟩

/-- A convolution that is fused in two turns, the second time with an operator that puts out one
name twice in a slot. -/
def repeatedOutput : List Op :=
  [.ofTexts "conv2d" [("Input", ["x"])] [("Output", ["c"])] [("Filter", ["w"])],
    .ofTexts "elementwise_add" [("X", ["c"])] [("Out", ["s"])] [("Y", ["b"])],
    .ofTexts "relu" [("X", ["s"])] [("Out", ["r", "r"]), ("Mask", ["m"])],
    .ofTexts "concat" [("X", ["r", "r"])] [("Out", ["y"])]]

theorem conservesOutputs_repeatedOutput :
    (survivorsOf [1, 2] repeatedOutput.length).map
      (tailOf ((Optimizer.withTemplates refusing).fusions (.ofOps repeatedOutput))) = [2, 3] ∧
    ∃ out, ((Optimizer.withTemplates refusing).optimize (.ofOps repeatedOutput)).result = .ok out ∧
    ∃ (s : Pass) (result : List Op), s.removed = [1, 2] ∧ out.program.blocks = [{ ops := result }] ∧
      ConservesOutputs .standard
        ((Optimizer.withTemplates refusing).fusions (.ofOps repeatedOutput)) repeatedOutput
        (survivorsOf s.removed repeatedOutput.length) result
        (tailOf ((Optimizer.withTemplates refusing).fusions (.ofOps repeatedOutput))) := by
  have hlinear : ∀ t ∈ refusing, t.root.isLinear = true := by decide +kernel
  have hblock : (Program.ofOps repeatedOutput).blocks = [{ ops := repeatedOutput }] := rfl
  obtain ⟨out, hout⟩ := exists_ok_of_isOk
    (x := ((Optimizer.withTemplates refusing).optimize (.ofOps repeatedOutput)).result)
    (by decide +kernel)
  obtain ⟨g, s, result, -, -, hremoved, hblocks, hconserves, -⟩ :=
    Optimizer.conservesOutputs (o := .withTemplates refusing) hlinear hblock hout
  have hgone : removedAfter [] ((Optimizer.withTemplates refusing).fusions (.ofOps repeatedOutput))
      = [1, 2] := by decide +kernel
  exact ⟨by decide +kernel, out, hout, s, result, hremoved.trans hgone, hblocks, hconserves⟩

end TensorFusion
