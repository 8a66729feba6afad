import TensorFusion.Proofs.Sample
import TensorFusion.Proofs.Standard.Rewrite
import TensorFusion.Proofs.Standard.Stages
import TensorFusion.Tensor.Reference

/-!
# Proofs — Standard — Semantics

Fusion keeps what a program computes. The scope that a program ends in solves the equations of all
of its operators; it solves those of the optimized program as well, since a fused operator computes
what the operators of its chain computed one after another, and the optimized program finds every
input in time. So both end in the same scope, but for the names between the operators of a chain.
This is shown for both interpreters at once; only what a fused operator computes is a matter of its
own for each.
-/

namespace TensorFusion

/-- A name is written by an operator whose results are used up inside a fusion. -/
def IsWrittenInside (fs : List Fusion) (ops : List Op) (b : Atom) : Prop :=
  ∃ w < ops.length, IsUsedUp fs w ∧ WritesAt ops w b

instance (fs : List Fusion) (ops : List Op) (b : Atom) : Decidable (IsWrittenInside fs ops b) :=
  inferInstanceAs (Decidable (∃ w < ops.length, _))

/-! ## The given program -/

/-- What is asked of a program so that fusion keeps what an interpreter makes of it: names in
declared slots are keys; each is written once, and none that is given; what is read in other slots
is given; behind a convolution one name is read; and a fused operator makes of its input what the
operators of its chain make of it one after another. -/
structure Interpreter.IsSafe {α : Type} (I : Interpreter α) (feeds : Scope α) (ops : List Op) :
    Prop where
  named : ∀ op ∈ ops, op.IsNamed .standard
  once : ∀ i j b, WritesAt ops i b → WritesAt ops j b → i = j
  fresh : ∀ i b, WritesAt ops i b → Table.get? feeds b = none
  fed : ∀ op ∈ ops, ∀ name ∈ Registry.standard.otherReads op, ∃ x, feeds.fetch name = .ok x
  single : ∀ op ∈ ops, op.HasType tailTypes → ∀ name, op.source = .ok name →
    Registry.standard.reads op = [name]
  fuses : ∀ {t : Template} {first : String} {rest : List String} {root : Op} {absorbed : List Op}
    {x y : α}, t.Composes first rest → (∀ op ∈ root :: absorbed, op ∈ ops) →
      (root :: absorbed).map Op.opType = (first :: rest).map Value.text →
      (root :: absorbed).foldlM (fun x op => I.compute op feeds x) x = .ok y →
      I.compute (t.fusedOp root absorbed) feeds x = .ok y

section Given

variable {α : Type} {I : Interpreter α} {feeds T : Scope α} {ops : List Op} {op : Op} {i : Nat}
  {b : Atom}

theorem writesAt_of_stores (hop : ops[i]? = some op) (h : op.Stores b) : WritesAt ops i b :=
  ⟨op, hop, h.writesName⟩

namespace Interpreter.IsSafe

/-- A safe program that is gone through to an end ends in a solution. -/
theorem solution (h : I.IsSafe feeds ops) (hrun : ops.foldlM I.step feeds = .ok T) :
    Solution I feeds ops T ∧ Scope.Fills feeds ops T := by
  refine Solution.of_run (fun op hop => Op.isFed_of_otherReads (h.fed op hop))
    (fun op hop b hstores => ?_) ?_ hrun
  · obtain ⟨i, hi⟩ := List.mem_iff_getElem?.mp hop
    exact h.fresh i b (writesAt_of_stores hi hstores)
  · rw [List.pairwise_iff_getElem]
    intro i j hi hj hij b hstores hstores'
    have := h.once i j b (writesAt_of_stores (List.getElem?_eq_getElem hi) hstores)
      (writesAt_of_stores (List.getElem?_eq_getElem hj) hstores')
    omega

/-- The producer of an operator with one input puts out that input. -/
theorem stores_of_producer (h : I.IsSafe feeds ops) (hT : Solution I feeds ops T) {k m : Nat}
    {e : Op} (hop : ops[k]? = some op) (he : ops[m]? = some e) (hType : op.HasType tailTypes)
    (hm : m ∈ producersOf .standard ops k) {n : Atom} (hn : op.source = .ok (.atom n)) :
    e.Stores n := by
  rw [producersOf_eq hop, h.single op (List.mem_of_getElem? hop) hType _ hn] at hm
  have hlast : lastWriter .standard ops (.atom n) k = some m := by simpa using hm
  obtain ⟨-, ⟨e', he', hwrites⟩, -⟩ := lastWriter_eq_some_iff.mp hlast
  have hwritesAt : WritesAt ops m n := ⟨e', he', hwrites⟩
  obtain ⟨n', b, hsolved, hsource⟩ := hT.solved k op hop
  have hsame := hn.symm.trans hsolved.source
  cases hsame
  rcases hsource with hgiven | ⟨w, -, e'', he'', hstores⟩
  · rw [h.fresh m n hwritesAt] at hgiven
    cases hgiven
  · -- The name has one writer, so it is the producer that puts it out.
    have hw := h.once w m n (writesAt_of_stores he'' hstores) hwritesAt
    rw [hw, he] at he''
    cases he''
    exact hstores

end Interpreter.IsSafe

end Given

/-! ## A fusion -/

section Path

variable {α : Type} {I : Interpreter α} {feeds T : Scope α} {a : Arena}

/-- The operators of a path are of the types that are asked for. -/
theorem Arena.Path.map_opType {first : String} {rest : List String} {i : Nat} {ks : List Nat}
    (hp : a.Path (.text first) (rest.map Value.text) i ks) {op : Op} (hop : a.op? i = some op) :
    (op :: Walk.opsAt a ks).map Op.opType = (first :: rest).map Value.text := by
  induction rest generalizing first i ks op with
  | nil =>
    cases hp with
    | last hop' hType =>
      rw [hop] at hop'
      cases hop'
      rw [List.map_cons, Value.eq_text_of_same hType]
      rfl
  | cons second rest ih =>
    cases hp with
    | @step _ _ _ _ k ks _ hop' hType _ hrest =>
      rw [hop] at hop'
      cases hop'
      obtain ⟨next, hnext, -⟩ := hrest.head
      have hops : Walk.opsAt a (k :: ks) = next :: Walk.opsAt a ks :=
        List.filterMap_cons_some hnext
      rw [List.map_cons, hops, ih hrest hnext, Value.eq_text_of_same hType]
      rfl

/-- Along a path each operator goes on with what the one before it has computed. -/
theorem Arena.Path.compute {first : Value} {rest : List Value} {i : Nat} {ks : List Nat}
    (hp : a.Path first rest i ks)
    (hsolved : ∀ m ∈ i :: ks, ∀ op, a.op? m = some op → ∃ n b, op.Solved I feeds T n b)
    (hlink : ∀ m ∈ i :: ks, ∀ k ∈ a.outputs m, k ∈ ks → ∀ e op, a.op? m = some e →
      a.op? k = some op → ∀ n, op.source = .ok (.atom n) → e.Stores n)
    {op : Op} (hop : a.op? i = some op) {n : Atom} (hn : op.source = .ok (.atom n)) :
    ∃ x y b last, Table.get? T n = some x ∧
      (op :: Walk.opsAt a ks).foldlM (fun x op => I.compute op feeds x) x = .ok y ∧
      a.op? (leafOf i ks) = some last ∧ last.target = .ok (.atom b) ∧ Table.get? T b = some y := by
  induction hp generalizing op n with
  | last hop' =>
    obtain ⟨n', b, hn', hb, x, y, hx, hy, hby⟩ := hsolved _ (by simp) op hop
    rw [hn] at hn'
    cases hn'
    refine ⟨x, y, b, op, hx, ?_, hop, hb, hby⟩
    simp [Walk.opsAt, hy]
  | @step _ _ _ i k ks _ hop' _ hout hrest ih =>
    obtain ⟨n₁, b₁, hn₁, hb₁, x, z, hx, hz, hbz⟩ := hsolved i (by simp) op hop
    rw [hn] at hn₁
    cases hn₁
    obtain ⟨next, hnext, -⟩ := hrest.head
    obtain ⟨n₂, _, hsolved₂⟩ := hsolved k (by simp) next hnext
    obtain ⟨z', y, b, last, hz', hy, hlast, hb, hby⟩ :=
      ih (fun m hm => hsolved m (List.mem_cons_of_mem _ hm))
        (fun m hm k' hk' hmem => hlink m (List.mem_cons_of_mem _ hm) k' hk'
          (List.mem_cons_of_mem _ hmem)) hnext hsolved₂.source
    obtain ⟨b', hb', hsame⟩ :=
      hlink i (by simp) k (by simp [hout]) (by simp) op next hop hnext n₂ hsolved₂.source
    rw [hb₁] at hb'
    cases hb'
    rw [← Table.get?_congr T hsame, hbz] at hz'
    cases hz'
    have hops : Walk.opsAt a (k :: ks) = next :: Walk.opsAt a ks := List.filterMap_cons_some hnext
    refine ⟨x, y, b, last, hx, ?_, by rw [leafOf_cons, hlast], hb, hby⟩
    rw [hops, List.foldlM_cons, hz, ok_bind, hy]

end Path

/-! ## The optimized program -/

namespace StandardRun

variable {α : Type} {I : Interpreter α} {feeds T : Scope α} {ops : List Op} {fs : List Fusion}
  {g : Graph} {a : Arena} {removed : List Nat} {f : Fusion} {root last op' : Op} {i : Nat}
  {name : Value}

/-- A fused operator takes its input from where the convolution took it. -/
theorem source_opIn (h : StandardRun ops fs g a removed) (hf : f ∈ fs)
    (hroot : ops[f.root]? = some root) (hn : root.source = .ok name) :
    (f.opIn g.arena root).source = .ok name := by
  have hstands := h.shot.stands f hf
  obtain ⟨_, _, _, hchain, -⟩ := hstands.exists_path
  obtain ⟨_, hfused⟩ := (hchain.composes hstands.template_mem).operator
  obtain ⟨o, ho⟩ := Op.exists_operator hn
  have hinput : o.input = "Input" := by
    obtain ⟨root', hroot', hType, -⟩ := h.op?_root hf
    rw [hroot] at hroot'
    cases hroot'
    have hslots := (Op.slotsOf_eq ho).symm.trans (Registry.slotsOf_root hType)
    simpa using congrArg SlotKeys.inputs hslots
  obtain ⟨names, hslot⟩ := (Op.source_eq_ok ho).mp hn
  have hfused : Operator.ofType (f.opIn g.arena root).opType = .ok _ := hfused
  rw [Op.source_eq_ok hfused, ← hinput]
  exact ⟨names, hslot⟩

/-- A fused operator puts its result where the last operator put it. -/
theorem target_opIn (h : StandardRun ops fs g a removed) (hf : f ∈ fs)
    (hroot : ops[f.root]? = some root) (hlast : ops[f.leaf]? = some last)
    (hb : last.target = .ok name) : (f.opIn g.arena root).target = .ok name := by
  have hstands := h.shot.stands f hf
  obtain ⟨_, _, _, hchain, -⟩ := hstands.exists_path
  obtain ⟨_, hfused⟩ := (hchain.composes hstands.template_mem).operator
  obtain ⟨o, ho, -⟩ := bind_eq_ok.mp hb
  rw [← h.graph.op?] at hroot hlast
  have houtput : o.output = "Out" := by
    obtain ⟨last', hlast', hType⟩ := hstands.leaf_op
    rw [hlast] at hlast'
    cases hlast'
    have hslots := (Op.slotsOf_eq ho).symm.trans (Registry.slotsOf_leaf hType)
    simpa using congrArg SlotKeys.outputs hslots
  obtain ⟨names, hslot⟩ := (Op.target_eq_ok ho).mp hb
  have hfused : Operator.ofType (f.opIn g.arena root).opType = .ok _ := hfused
  rw [Op.target_eq_ok hfused, hstands.outputs_opIn hroot hlast, Slots.get?_join_empty, ← houtput,
    hslot]
  obtain ⟨added, hadded⟩ := exists_appendNew_eq [name] names
  exact ⟨added, congrArg some hadded⟩

/-- The equation of a fused operator holds where those of its chain hold. -/
theorem solved_opIn (h : StandardRun ops fs g a removed) (hsafe : I.IsSafe feeds ops)
    (hT : Solution I feeds ops T) (hf : f ∈ fs) (hroot : ops[f.root]? = some root) {n : Atom}
    (hn : root.source = .ok (.atom n)) : ∃ last b, ops[f.leaf]? = some last ∧
      last.target = .ok (.atom b) ∧ (f.opIn g.arena root).Solved I feeds T n b := by
  have hstands := h.shot.stands f hf
  obtain ⟨first, second, rest, hchain, hp⟩ := hstands.exists_path
  have hop : ∀ m ∈ f.members, f.before.op? m = ops[m]? := fun m hm => by
    rw [hstands.op? m hm, h.graph.op?]
  have hrootBefore : f.before.op? f.root = some root :=
    (hop f.root (by simp [Fusion.members])).trans hroot
  have hsolved : ∀ m ∈ f.members, ∀ op, f.before.op? m = some op →
      ∃ n b, op.Solved I feeds T n b := fun m hm op hm' => by
    rw [hop m hm] at hm'
    obtain ⟨n, b, hsolved, -⟩ := hT.solved m op hm'
    exact ⟨n, b, hsolved⟩
  have hlink : ∀ m ∈ f.members, ∀ k ∈ f.before.outputs m, k ∈ f.made.absorbed → ∀ e op,
      f.before.op? m = some e → f.before.op? k = some op →
      ∀ n, op.source = .ok (.atom n) → e.Stores n := fun m hm k hk hmem e op he hk' n hn => by
    rw [hop m hm] at he
    rw [hop k (List.mem_cons_of_mem _ hmem)] at hk'
    obtain ⟨op', hop', hType⟩ := hstands.absorbed_op hmem
    rw [h.graph.op?, hk'] at hop'
    cases hop'
    -- The edges of the path are edges of the program, so each operator feeds the one behind it.
    have hproducer := h.graph.mem_outputs.mp (hstands.edge m hm k hk)
    exact hsafe.stores_of_producer hT hk' he hType hproducer hn
  obtain ⟨x, y, b, last, hx, hrun, hlast, hb, hby⟩ := hp.compute hsolved hlink hrootBefore hn
  have hlast' : ops[f.leaf]? = some last := (hop f.leaf (leafOf_mem _ _)).symm.trans hlast
  refine ⟨last, b, hlast', hb, h.source_opIn hf hroot hn, h.target_opIn hf hroot hlast' hb,
    x, y, hx, ?_, hby⟩
  have htypes := hp.map_opType hrootBefore
  rw [hstands.opsAt_eq] at hrun htypes
  refine hsafe.fuses (hchain.composes hstands.template_mem) (fun op hmem => ?_) htypes hrun
  rcases List.mem_cons.mp hmem with rfl | hmem
  · exact List.mem_of_getElem? hroot
  · obtain ⟨m, -, hm⟩ := List.mem_filterMap.mp hmem
    rw [h.graph.op?] at hm
    exact List.mem_of_getElem? hm

/-- The equation of every operator of the result holds between the input at its place and the result
at the tail of its place. -/
theorem exists_solved (h : StandardRun ops fs g a removed) (hsafe : I.IsSafe feeds ops)
    (hT : Solution I feeds ops T) (hop' : a.op? i = some op') : ∃ op last n b,
      ops[i]? = some op ∧ op.source = .ok (.atom n) ∧ ops[tailOf fs i]? = some last ∧
      last.target = .ok (.atom b) ∧ op'.Solved I feeds T n b := by
  rcases h.op_cases hop' with ⟨hi, hop⟩ | ⟨f, hf, rfl, root, hroot, -, rfl⟩
  · obtain ⟨n, b, hsolved, -⟩ := hT.solved i op' hop
    exact ⟨op', op', n, b, hop, hsolved.source, by rw [h.shot.tail_ne i hi, hop],
      hsolved.target, hsolved⟩
  · obtain ⟨n, _, hsolved, -⟩ := hT.solved f.root root hroot
    obtain ⟨last, b, hlast, hb, hsolved'⟩ := h.solved_opIn hsafe hT hf hroot hsolved.source
    exact ⟨root, last, n, b, hroot, hsolved.source, by rw [h.shot.tail_root f hf, hlast], hb,
      hsolved'⟩

/-- An operator of the result puts its result where the tail of its place put it. -/
theorem stores_iff (h : StandardRun ops fs g a removed) (hsafe : I.IsSafe feeds ops)
    (hT : Solution I feeds ops T) (hop' : a.op? i = some op')
    (hlast : ops[tailOf fs i]? = some last) (b : Atom) : op'.Stores b ↔ last.Stores b := by
  obtain ⟨_, last', _, b', -, -, hlast', hb', hsolved⟩ := h.exists_solved hsafe hT hop'
  rw [hlast] at hlast'
  cases hlast'
  rw [Op.Stores, Op.Stores, hsolved.target, hb']

/-- What is put out and not used up is put out in the result, at the same place or before. -/
theorem exists_stores (h : StandardRun ops fs g a removed) (hsafe : I.IsSafe feeds ops)
    (hT : Solution I feeds ops T) {w : Nat} {e : Op} {b : Atom} (he : ops[w]? = some e)
    (hstores : e.Stores b) (hw : ¬ IsUsedUp fs w) :
    ∃ j e', j ≤ w ∧ j ∈ survivorsOf removed a.size ∧ a.op? j = some e' ∧ e'.Stores b := by
  obtain ⟨j, e', hjw, hj, htail, he'⟩ := h.exists_op_of_tail he hw
  exact ⟨j, e', hjw, mem_survivorsOf.mpr ⟨Arena.lt_size_of_op? he', hj⟩, he',
    (h.stores_iff hsafe hT he' (by rw [htail, he]) b).mpr hstores⟩

/-- The solution of a safe program solves the optimized program. -/
theorem solves_result (h : StandardRun ops fs g a removed) (hsafe : I.IsSafe feeds ops)
    (hT : Solution I feeds ops T) :
    Solution I feeds ((survivorsOf removed a.size).filterMap a.op?) T := by
  refine ⟨hT.within, fun x op' hop' => ?_⟩
  rw [Arena.getElem?_survivors, Option.bind_eq_some_iff] at hop'
  obtain ⟨i, hi, hop'⟩ := hop'
  have hlive := (mem_survivorsOf.mp (List.mem_of_getElem? hi)).2
  obtain ⟨op, last, n, b, hop, hn, -, -, hsolved⟩ := h.exists_solved hsafe hT hop'
  refine ⟨n, b, hsolved, ?_⟩
  obtain ⟨n', _, hsolved', hsource⟩ := hT.solved i op hop
  have hsame := hn.symm.trans hsolved'.source
  cases hsame
  refine hsource.imp_right ?_
  intro hwriter
  obtain ⟨w, hw, e, he, hstores⟩ := hwriter
  -- The writer of the input is a producer, so it is not used up before the operator reads it.
  have hproducer : w ∈ producersOf .standard ops i := by
    obtain ⟨v, hv, -⟩ := exists_lastWriter hw he hstores.writesName
    obtain ⟨-, hwritesAt, -⟩ := lastWriter_eq_some_iff.mp hv
    rw [producersOf_eq hop, hsafe.once w v n (writesAt_of_stores he hstores) hwritesAt]
    exact List.mem_filterMap.mpr ⟨_, Op.mem_reads_of_source hn, hv⟩
  obtain ⟨j, e', hjw, hj, he', hstores'⟩ :=
    h.exists_stores hsafe hT he hstores (h.not_isUsedUp_of_producer hlive hproducer)
  obtain ⟨y, hy⟩ := List.mem_iff_getElem?.mp hj
  refine ⟨y, lt_of_getElem?_lt (survivorsOf_pairwise _ _) hy hi (by omega), e', ?_, hstores'⟩
  rw [Arena.getElem?_survivors, hy]
  exact he'

/-- A scope within the solution that holds what the result puts out is the solution but for the
names that are used up inside fusions. -/
theorem get?_of_within (h : StandardRun ops fs g a removed) (hsafe : I.IsSafe feeds ops)
    (hT : Solution I feeds ops T) (hfills : Scope.Fills feeds ops T) {S : Scope α}
    (hS : S.Within T)
    (hfillsS : Scope.Fills feeds ((survivorsOf removed a.size).filterMap a.op?) S) (b : Atom) :
    Table.get? S b = if IsWrittenInside fs ops b then none else Table.get? T b := by
  split
  next hinside =>
    obtain ⟨w, -, hused, hwrites⟩ := hinside
    rw [← Option.not_isSome_iff_eq_none, hfillsS b, hsafe.fresh w b hwrites]
    intro hfilled
    rcases hfilled with hgiven | ⟨op', hop', hstores⟩
    · cases hgiven
    · obtain ⟨i, hi, hop'⟩ := List.mem_filterMap.mp hop'
      obtain ⟨_, last, _, _, -, -, hlast, -, -⟩ := h.exists_solved hsafe hT hop'
      rw [h.stores_iff hsafe hT hop' hlast] at hstores
      have htail := hsafe.once _ w b (writesAt_of_stores hlast hstores) hwrites
      exact h.not_isUsedUp_tail (mem_survivorsOf.mp hi).2 (htail ▸ hused)
  next hinside =>
    cases hb : Table.get? T b with
    | none =>
      cases hSb : Table.get? S b with
      | none => rfl
      | some x => rw [hS b x hSb] at hb; cases hb
    | some x =>
      suffices hsome : (Table.get? S b).isSome by
        obtain ⟨x', hx'⟩ := Option.isSome_iff_exists.mp hsome
        rw [hx', ← hb, hS b x' hx']
      refine (hfillsS b).mpr (((hfills b).mp (by rw [hb]; rfl)).imp_right ?_)
      intro hwriter
      obtain ⟨e, he, hstores⟩ := hwriter
      obtain ⟨w, hw⟩ := List.mem_iff_getElem?.mp he
      have hlength : w < ops.length := (List.getElem?_eq_some_iff.mp hw).1
      obtain ⟨j, e', -, hj, he', hstores'⟩ := h.exists_stores hsafe hT hw hstores fun hused =>
        hinside ⟨w, hlength, hused, writesAt_of_stores hw hstores⟩
      exact ⟨e', List.mem_filterMap.mpr ⟨j, hj, he'⟩, hstores'⟩

end StandardRun

/-- An optimization of operators of the reference types comes to a result. -/
theorem Optimizer.IsStandard.exists_out {o : Optimizer} (ho : o.IsStandard) {names : List Value}
    (hdisabled : o.config.disabled = .series names) {p : Program} {block : Block}
    (hblock : p.blocks = [block]) (hops : ∀ op ∈ block.ops,
      (∃ o ∈ Operator.standard, op.opType = .text o.opType) ∧ op.IsNamed .standard) :
    ∃ out, (o.optimize p).result = .ok out := by
  refine Optimizer.optimize_total (ho.templates ▸ Template.standard_canRun) (fun _ t _ => ?_)
    hblock (fun op hop => ⟨?_, ho.registry ▸ (hops op hop).2⟩) fun op hop => ?_
  · exact ⟨_, by rw [Config.disables, hdisabled]; rfl⟩
  · obtain ⟨o', ho', hType⟩ := (hops op hop).1
    rw [hType, ho.registry]
    exact Operator.exists_slotKeys ho'
  · obtain ⟨o', -, hType⟩ := (hops op hop).1
    rw [hType]
    rfl

/-- Fusion keeps what an interpreter makes of a safe program. Where it comes to an end with the
program, it does so with the optimized program, and with the same but for the names that are used up
inside fusions. -/
theorem Optimizer.IsStandard.interpret_optimize {o : Optimizer} (ho : o.IsStandard)
    {names : List Value} (hdisabled : o.config.disabled = .series names) {p : Program}
    {block : Block} (hblock : p.blocks = [block]) {α : Type} {I : Interpreter α} {feeds T : Scope α}
    (hsafe : I.IsSafe feeds block.ops) (hrun : block.ops.foldlM I.step feeds = .ok T) :
    ∃ out result, (o.optimize p).result = .ok out ∧ out.program.blocks = [result] ∧
      ∃ S, result.ops.foldlM I.step feeds = .ok S ∧ ∀ b, Table.get? S b
        = if IsWrittenInside (o.fusions p) block.ops b then none else Table.get? T b := by
  obtain ⟨hsolution, hfills⟩ := hsafe.solution hrun
  have hoperator : ∀ op ∈ block.ops, ∃ o ∈ Operator.standard, op.opType = .text o.opType := by
    intro op hop
    obtain ⟨i, hi⟩ := List.mem_iff_getElem?.mp hop
    obtain ⟨_, _, hsolved, -⟩ := hsolution.solved i op hi
    obtain ⟨o, ho⟩ := Op.exists_operator hsolved.source
    obtain ⟨hType, hmem⟩ := Operator.ofType_eq_ok ho
    exact ⟨o, hmem, hType⟩
  obtain ⟨out, hout⟩ := ho.exists_out hdisabled hblock fun op hop =>
    ⟨hoperator op hop, hsafe.named op hop⟩
  obtain ⟨block', g, a, removed, hblock', hstandard, rfl⟩ := ho.exists_run hout
  rw [hblock] at hblock'
  cases hblock'
  obtain ⟨S, hS, hwithin, hfillsS⟩ := (hstandard.solves_result hsafe hsolution).run_total
  exact ⟨_, _, hout, rfl, S, hS, hstandard.get?_of_within hsafe hsolution hfills hwithin hfillsS⟩

/-! ## Tensors -/

/-- What is asked for the sake of tensors is enough, whatever the library is that they are from. -/
theorem FusionSafe.isSafe {τ : Type} (lib : TensorLibrary τ) {feeds : Scope τ} {ops : List Op}
    (h : FusionSafe feeds ops) : (Interpreter.tensors lib).IsSafe feeds ops where
  named := h.named
  once := h.once
  fresh := h.fresh
  fed := h.fed
  single := fun op hop hType _ hn => by
    obtain ⟨_, hinputs⟩ := (h.plain op hop).input hType
    exact Op.reads_eq_of_source hinputs hn
  fuses := fun hc hmem htypes hrun =>
    hc.compute_fusedOp ⟨htypes, fun op hop => h.plain op (hmem op hop)⟩ hrun

/-- Fusion keeps what a program computes, with any library of tensors. Where a safe program runs to
an end, so does the optimized program, and it ends in the same scope but for the names that are used
up inside fusions. -/
theorem Optimizer.IsStandard.run_optimize_eq {o : Optimizer} (ho : o.IsStandard)
    {names : List Value} (hdisabled : o.config.disabled = .series names) {p : Program}
    {block : Block} (hblock : p.blocks = [block]) {τ : Type} {lib : TensorLibrary τ}
    {feeds scope : Scope τ} (hsafe : FusionSafe feeds block.ops)
    (hrun : ({} : Executor).run lib p feeds = .ok scope) :
    ∃ out, (o.optimize p).result = .ok out ∧
      ∃ scope', ({} : Executor).run lib out.program feeds = .ok scope' ∧
        ∀ b, Table.get? scope' b
          = if IsWrittenInside (o.fusions p) block.ops b then none else Table.get? scope b := by
  rw [Executor.run_eq lib hblock] at hrun
  obtain ⟨out, result, hout, hresult, scope', hrun', hget⟩ :=
    ho.interpret_optimize hdisabled hblock (hsafe.isSafe lib) hrun
  exact ⟨out, hout, scope', (Executor.run_eq lib hresult feeds).trans hrun', hget⟩

/-- A convolution, an addition and an activation, with an operator between the first two that has
nothing to do with either. -/
def convAddFeedRelu : List Op :=
  [.ofTexts "conv2d" [("Input", ["x"])] [("Output", ["c"])] [("Filter", ["w"])],
    .ofTexts "feed" [("X", ["z"])] [("Out", ["s"])],
    .ofTexts "elementwise_add" [("X", ["c"])] [("Out", ["t"])] [("Y", ["b"])],
    .ofTexts "relu" [("X", ["t"])] [("Out", ["u"])]]

/-- Tensors of one element for all names that the program does not write. -/
def singleFeeds : Scope (Tensor Float) := .ofList [
  (.text "x", ⟨[1, 1, 1, 1], #[3], rfl⟩),
  (.text "w", ⟨[1, 1, 1, 1], #[2], rfl⟩),
  (.text "z", ⟨[1], #[5], rfl⟩),
  (.text "b", ⟨[1], #[1], rfl⟩)]

/-- The convolution takes in the addition, and of the names that are written the one between them
goes missing. -/
theorem run_optimize_eq_convAddFeedRelu : FusionSafe singleFeeds convAddFeedRelu ∧
    (Optimizer.usual.fusions (.ofOps convAddFeedRelu)).map (fun f => (f.root, f.made.absorbed))
      = [(0, [2])] ∧
    (∀ name ∈ ["c", "s", "t", "u"], IsWrittenInside (Optimizer.usual.fusions
      (.ofOps convAddFeedRelu)) convAddFeedRelu (.text name) ↔ name = "c") ∧
    ∃ scope, ({} : Executor).run (Tensor.library .doubles) (.ofOps convAddFeedRelu) singleFeeds
        = .ok scope ∧ (scope.get? (.text "c")).isSome = true ∧
    ∃ out, (Optimizer.usual.optimize (.ofOps convAddFeedRelu)).result = .ok out ∧
      ∃ scope', ({} : Executor).run (Tensor.library .doubles) out.program singleFeeds
          = .ok scope' ∧ scope'.get? (.text "c") = none ∧
        ∀ b, scope'.get? b =
          if IsWrittenInside (Optimizer.usual.fusions (.ofOps convAddFeedRelu)) convAddFeedRelu b
          then none else scope.get? b := by
  have hsafe : FusionSafe singleFeeds convAddFeedRelu := by decide +kernel
  have hinside : ∀ name ∈ ["c", "s", "t", "u"], IsWrittenInside (Optimizer.usual.fusions
      (.ofOps convAddFeedRelu)) convAddFeedRelu (.text name) ↔ name = "c" := by decide +kernel
  have hknown : (({} : Executor).run (Tensor.library .doubles) (.ofOps convAddFeedRelu)
      singleFeeds).toOption.map (fun scope => (scope.get? (.text "c")).isSome) = some true := by
    decide +kernel
  obtain ⟨scope, hscope⟩ := exists_ok_of_isOk
    (x := ({} : Executor).run (Tensor.library .doubles) (.ofOps convAddFeedRelu) singleFeeds)
    (by decide +kernel)
  rw [hscope] at hknown
  obtain ⟨out, hout, scope', hscope', hget⟩ :=
    Optimizer.IsStandard.run_optimize_eq (o := .usual) ⟨rfl, rfl⟩ rfl rfl hsafe hscope
  have hmissing : scope'.get? (.text "c") = none :=
    (hget _).trans (if_pos ((hinside "c" (by simp)).mpr rfl))
  exact ⟨hsafe, by decide +kernel, hinside, scope, hscope, Option.some.inj hknown, out, hout,
    scope', hscope', hmissing, hget⟩

end TensorFusion
