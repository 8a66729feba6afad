import Mathlib.Tactic.TFAE
import TensorFusion.Proofs.Equality
import TensorFusion.Proofs.Standard.Rebuild

/-!
# Proofs — Standard — Idempotent

A second pass over a result. Each template is tried once at each node, so a path that opens up
after its first node was visited, because an edge that leads away from it is taken away, is left for
the next pass. Where every read sees the write that it saw before, that is all that the next pass
can find.
-/

namespace TensorFusion

/-- A template that is switched on finds a path in an arena, where fusion is switched on. -/
def Optimizer.FindsPath (o : Optimizer) (a : Arena) : Prop :=
  o.config.fuses = true ∧ ∃ t ∈ o.catalog.templates, o.config.disables t.name = .ok false ∧
    ∃ first types i ks, t.root = .chain first types ∧ a.Path first types i ks

/-- A pass leaves a path open: a template that is switched on finds a path of nodes that are left,
one of which, before the last, has lost a consumer. -/
def Optimizer.LeavesOpen (o : Optimizer) (g : Graph) (s : Pass) : Prop :=
  ∃ t ∈ o.catalog.templates, o.config.disables t.name = .ok false ∧
    ∃ first types i ks, t.root = .chain first types ∧ i ∉ s.removed ∧
      s.arena.Path first types i ks ∧
      ∃ m ∈ i :: ks, m ≠ leafOf i ks ∧ ∃ k ∈ g.arena.outputs m, k ∈ s.removed

/-! ## Paths that are left -/

/-- A path that is left, and whose nodes before the last have lost no consumer, was there at every
moment of the run. -/
theorem OneShot.path_of_moment {templates : List Template} {a₀ a b : Arena}
    {done rest : List Fusion} {removed gone : List Nat}
    (h : OneShot templates a₀ (done ++ rest) a removed) (hdone : OneShot templates a₀ done b gone)
    (hlinked : a₀.WellLinked) (hfinal : Template.AreFinal templates) {t : Template}
    (ht : t ∈ templates) {first : Value} {types : List Value} (hroot : t.root = .chain first types)
    {i : Nat} {ks : List Nat} (hp : a.Path first types i ks) (hlive : i ∉ removed)
    (hkept : ∀ m ∈ i :: ks, m ≠ leafOf i ks → ∀ k ∈ a₀.outputs m, k ∉ removed) :
    b.Path first types i ks := by
  have hgone : ∀ k, k ∉ removed → k ∉ gone := fun k hk hmem => by
    rw [h.removed_eq, List.flatMap_append, List.mem_append, not_or] at hk
    exact hk.1 (hdone.removed_eq ▸ hmem)
  -- No node of the path was made by a fusion, neither then nor later.
  have hnew : ∀ m ∈ i :: ks, ∀ f ∈ done ++ rest, m ≠ f.root :=
    fun m hm => h.not_root_of_mem_path hfinal ht hroot hp hm
  have hnew' : ∀ m ∈ i :: ks, ∀ f ∈ done, m ≠ f.root :=
    fun m hm f hf => hnew m hm f (List.mem_append_left _ hf)
  refine hp.congr (fun m hm => ?_) fun m hm k hk hout => ?_
  · rw [hdone.op?_ne m (hnew' m hm), h.op?_ne m (hnew m hm)]
  · have hne : m ≠ leafOf i ks := by
      rintro rfl
      exact h.live.not_mem_of_mem_outputs_leaf hlinked hp hlive (by simp [hout])
        (List.mem_cons_of_mem _ hk)
    have hmLive := h.live.live_of_mem_path hp hlive hm
    have hall := hkept m hm hne
    have hbefore : a.outputs m = a₀.outputs m := by
      rw [h.outputs_of_mem_path hfinal ht hroot hp hlive hm, List.filter_eq_self]
      simpa using hall
    have hthen : b.outputs m = a₀.outputs m := by
      rw [hdone.live.outputs m (hgone m hmLive), hdone.tail_ne m (hnew' m hm), List.filter_eq_self]
      simpa using fun k hk => hgone k (hall k hk)
    rw [hthen, ← hbefore, hout]

section Standard

variable {o o' : Optimizer} {ops : List Op} {g : Graph} {s : Pass} {t : Template} {i : Nat}
  {first : Value} {types : List Value} {ks : List Nat}

/-- A node at which a path begins that a standard template looks for is a candidate. -/
theorem Template.exists_candidates_of_path (ht : t ∈ standard) (hroot : t.root = .chain first types)
    (hgraph : g.IsOf .standard ops) {a : Arena} (hp : a.Path first types i ks)
    (hop : a.op? i = ops[i]?) :
    ∃ candidates, g.candidates t.trigger = .ok candidates ∧ i ∈ candidates := by
  obtain ⟨first', second, rest, hchain⟩ := exists_chain ht
  have hfirst := hroot.symm.trans hchain.root
  obtain ⟨rfl, -⟩ := Pattern.chain_inj hfirst
  obtain ⟨op, hop', hType⟩ := hp.head
  have htrigger : t.trigger = .text first' := by
    rw [trigger, hchain.root]
    rfl
  rw [htrigger]
  exact hgraph.exists_candidates (hop.symm.trans hop') hType

/-- What a template that is switched on still finds when a pass is at its end, it did not find when
it was its turn: a node of the path has lost a consumer since. -/
theorem Optimizer.IsStandard.leavesOpen_of_path (ho : o.IsStandard) (hs : o.fusePass g = .ok s)
    (hrun : StandardRun ops (o.fusionsIn g) g s.arena s.removed) (hfuses : o.config.fuses = true)
    (ht : t ∈ o.catalog.templates) (henabled : o.config.disables t.name = .ok false)
    (hroot : t.root = .chain first types) (hlive : i ∉ s.removed)
    (hp : s.arena.Path first types i ks) : o.LeavesOpen g s := by
  by_contra hopen
  have hkept : ∀ m ∈ i :: ks, m ≠ leafOf i ks → ∀ k ∈ g.arena.outputs m, k ∉ s.removed :=
    fun m hm hne k hk hmem => hopen
      ⟨t, ht, henabled, first, types, i, ks, hroot, hlive, hp, m, hm, hne, k, hk, hmem⟩
  have hfinal := Template.standard_areFinal
  have htStandard : t ∈ Template.standard := ho.templates ▸ ht
  have hnew := hrun.shot.not_root_of_mem_path hfinal htStandard hroot hp (List.mem_cons_self ..)
  obtain ⟨candidates, hcandidates, hindex⟩ := Template.exists_candidates_of_path htStandard hroot
    hrun.graph hp (by rw [hrun.shot.op?_ne i hnew, hrun.graph.op?])
  obtain ⟨done, rest, hfusions, hmoment⟩ :=
    o.exists_moment hs hfuses ht henabled hcandidates hindex
  -- At the moment of the visit the path was there, so it was fused.
  have hhistory := o.isHistory g
  rw [hfusions] at hhistory
  have hdone := hhistory.left.oneShot hrun.graph.wellLinked (hrun.graph.exists_opType hrun.named)
    (ho.templates ▸ hfinal)
  rw [ho.templates] at hdone
  have hshot := hrun.shot
  rw [hfusions] at hshot
  have hthere := hshot.path_of_moment hdone hrun.graph.wellLinked hfinal htStandard hroot hp hlive
    hkept
  have hliveThen : i ∉ removedAfter [] done := by
    have hall := hshot.removed_eq ▸ hlive
    rw [List.flatMap_append, List.mem_append, not_or] at hall
    rw [hdone.removed_eq]
    exact hall.1
  obtain ⟨f, hf, hfroot⟩ := hmoment hliveThen (Template.matchesAt_of_path hroot hthere)
  exact hnew f (hfusions ▸ List.mem_append_right _ hf) hfroot.symm

end Standard

/-! ## The second pass -/

/-- Whether a key is a text. -/
def Atom.isText : Atom → Bool
  | .text _ => true
  | _ => false

theorem Atom.exists_text_of_isText {a : Atom} (h : a.isText = true) : ∃ s, a = .text s := by
  cases a with
  | text s => exact ⟨s, rfl⟩
  | _ => cases h

/-- The types that the standard registry knows are texts. -/
theorem Op.IsRegistered.exists_text {op : Op} (h : op.IsRegistered .standard) :
    ∃ s, op.opType = .text s := by
  have htexts : ∀ e ∈ Registry.standard.signatures.entries, e.1.isText = true := by
    decide +kernel
  obtain ⟨signature, hlookup, -⟩ := h.slots
  obtain ⟨a, ha⟩ := h.named.opType
  rw [ha, Registry.lookup] at hlookup
  split at hlookup
  next hget =>
    obtain ⟨key, hmem, hsame⟩ := Table.mem_of_lookup hget
    obtain ⟨s, rfl⟩ := Atom.exists_text_of_isText (htexts _ hmem)
    have hsame' : (Value.atom a).same (.text s) = true := by
      rwa [Value.same_atom, Atom.same_comm]
    exact ⟨s, ha.trans (Value.eq_text_of_same hsame')⟩
  next => cases hlookup

/-- An optimization with the standard registry and templates comes to an end: the operators must be
registered, and it can be told of every template whether it is switched off. -/
theorem Optimizer.IsStandard.exists_result {o : Optimizer} (ho : o.IsStandard) (block : Block)
    (hdisables : o.config.fuses = true →
      ∀ t ∈ o.catalog.templates, ∃ b, o.config.disables t.name = .ok b)
    (hregistered : ∀ op ∈ block.ops, op.IsRegistered .standard) :
    ∃ out, (o.optimize { blocks := [block] }).result = .ok out := by
  refine optimize_total (ho.templates ▸ Template.standard_canRun) hdisables rfl (fun op hop => ?_)
    fun op hop => ?_
  · rw [ho.registry]
    exact hregistered op hop
  · obtain ⟨s, hs⟩ := (hregistered op hop).exists_text
    rw [hs]
    rfl

/-- A fusion leaves fewer operators, so what is equal to the program was made by none. -/
theorem Optimizer.IsStandard.fusions_eq_nil_of_same {o : Optimizer} (ho : o.IsStandard)
    {p : Program} {out : Outcome} (h : (o.optimize p).result = .ok out)
    (hsame : out.program.same p = true) : o.fusions p = [] := by
  obtain ⟨block, g, s, hblock, -, -, hrun, rfl⟩ := ho.exists_pass h
  have hp : p = { blocks := [block] } := by rw [← hblock]
  by_contra hne
  obtain ⟨f, hf⟩ := List.exists_mem_of_ne_nil _ hne
  have hstands := hrun.shot.stands f hf
  have habsorbed := hstands.absorbed_removed _ hstands.leaf_mem
  obtain ⟨last, hlast, -⟩ := hstands.leaf_op
  have hlt : f.leaf < s.arena.size := by
    rw [hrun.shot.live.size]
    exact Arena.lt_size_of_op? hlast
  have hlength : (survivorsOf s.removed s.arena.size).length = s.arena.size := by
    rw [hp] at hsame
    rw [← s.arena.length_survivors]
    exact (Program.length_eq_of_same hsame).trans hrun.size.symm
  have hall := List.length_filter_eq_length_iff.mp (hlength.trans List.length_range.symm) f.leaf
    (List.mem_range.mpr hlt)
  exact of_decide_eq_true hall habsorbed

theorem Optimizer.fuses_of_mem_fusionsIn {o : Optimizer} {g : Graph} {f : Fusion}
    (hf : f ∈ o.fusionsIn g) : o.config.fuses = true := by
  by_contra hoff
  rw [fusionsIn, if_neg hoff] at hf
  cases hf

/-- A pass fuses nothing just where no template that is switched on finds a path. -/
theorem Optimizer.IsStandard.fusionsIn_eq_nil_iff {o : Optimizer} (ho : o.IsStandard)
    {ops : List Op} {g : Graph} (hgraph : g.IsOf .standard ops) {s : Pass}
    (hs : o.fusePass g = .ok s) : o.fusionsIn g = [] ↔ ¬ o.FindsPath g.arena := by
  constructor
  · rintro hnone ⟨hfuses, t, ht, henabled, first, types, i, ks, hroot, hp⟩
    obtain ⟨candidates, hcandidates, hindex⟩ :=
      Template.exists_candidates_of_path (ho.templates ▸ ht) hroot hgraph hp (hgraph.op? i)
    obtain ⟨done, rest, hfusions, hmoment⟩ :=
      o.exists_moment hs hfuses ht henabled hcandidates hindex
    rw [hnone] at hfusions
    obtain ⟨rfl, rfl⟩ := List.append_eq_nil_iff.mp hfusions.symm
    obtain ⟨f, hf, -⟩ := hmoment (by simp [removedAfter]) (Template.matchesAt_of_path hroot hp)
    cases hf
  · intro hpaths
    cases hfusions : o.fusionsIn g with
    | nil => rfl
    | cons f rest =>
      have hfuses := o.fuses_of_mem_fusionsIn (hfusions ▸ List.mem_cons_self ..)
      -- The first fusion is of a path that was there when the graph was built.
      have hhistory := o.isHistory g
      rw [hfusions] at hhistory
      cases hhistory with
      | cons hbefore hvalid _ =>
        obtain ⟨v, hv, hmatch⟩ := hvalid.matched
        have hfinal : Template.AreFinal o.catalog.templates :=
          ho.templates ▸ Template.standard_areFinal
        obtain ⟨first, second, types, hroot⟩ := hfinal.chain f.template hvalid.template_mem
        obtain ⟨ks, hp⟩ := Template.path_of_examine hroot hv hmatch
        rw [hbefore] at hp
        exact absurd ⟨hfuses, f.template, hvalid.template_mem, hvalid.enabled, _, _, _, _, hroot,
          hp⟩ hpaths

/-- A pass leaves a path open just where a path is found in what is left, numbered anew. -/
theorem Optimizer.IsStandard.leavesOpen_iff {o : Optimizer} (ho : o.IsStandard) {ops : List Op}
    {g : Graph} {s : Pass} (hs : o.fusePass g = .ok s)
    (hrun : StandardRun ops (o.fusionsIn g) g s.arena s.removed) : o.LeavesOpen g s ↔
      o.FindsPath (s.arena.renumber (positionsLeft (o.fusionsIn g) s.arena.size)) := by
  have hclosed : ∀ i ∈ positionsLeft (o.fusionsIn g) s.arena.size, ∀ k ∈ s.arena.outputs i,
      k ∈ positionsLeft (o.fusionsIn g) s.arena.size :=
    fun i hi => hrun.outputs_mem_positionsLeft hi
  constructor
  · rintro ⟨t, ht, henabled, first, types, i, ks, hroot, hlive, hp, m, -, -, k, -, hk⟩
    rw [hrun.shot.removed_eq] at hk
    obtain ⟨f, hf, -⟩ := List.mem_flatMap.mp hk
    have hfuses := fuses_of_mem_fusionsIn hf
    obtain ⟨op, hop, -⟩ := hp.head
    have hlt := hrun.size ▸ Arena.lt_size_of_op? hop
    exact ⟨hfuses, t, ht, henabled, first, types, _, _, hroot,
      hp.renumber StandardRun.positionsLeft_lt hclosed (hrun.mem_positionsLeft.mpr ⟨hlt, hlive⟩)⟩
  · rintro ⟨hfuses, t, ht, henabled, first, types, x, ks, hroot, hp⟩
    obtain ⟨op, hop, -⟩ := hp.head
    rw [Arena.op?_renumber StandardRun.positionsLeft_lt, Option.bind_eq_some_iff] at hop
    obtain ⟨i, hi, -⟩ := hop
    obtain ⟨ks', hp'⟩ := hp.of_renumber StandardRun.positionsLeft_lt hclosed hi
    have hlive := (hrun.mem_positionsLeft.mp (List.mem_of_getElem? hi)).2
    exact ho.leavesOpen_of_path hs hrun hfuses ht henabled hroot hlive hp'

/-- A second pass with the same settings comes to an end where every read that is left sees the
write that it saw before. It fuses nothing just where the first pass leaves no path open. -/
theorem Optimizer.IsStandard.exists_again {o o' : Optimizer} (ho : o.IsStandard)
    (ho' : o'.IsStandard) (hconfig : o'.config = o.config) {p : Program} {block : Block}
    (hblock : p.blocks = [block]) {g : Graph} {s : Pass}
    (hg : Graph.build o.registry block.ops = .ok g) (hs : o.fusePass g = .ok s)
    (hrun : StandardRun block.ops (o.fusions p) g s.arena s.removed)
    (hkeeps : KeepsWriters block.ops (StandardRun.left s.arena (o.fusions p)) (o.fusions p)) :
    ∃ again, (o'.optimize (programOf block s.arena s.removed)).result = .ok again ∧
      (o'.fusions (programOf block s.arena s.removed) = [] ↔ ¬ o.LeavesOpen g s) := by
  have hleft : programOf block s.arena s.removed = { blocks :=
      [{ vars := block.vars, ops := StandardRun.left s.arena (o.fusions p) }] } := by
    rw [programOf, StandardRun.left, positionsLeft, ← hrun.shot.removed_eq]
  rw [hleft]
  rw [fusions_eq hblock hg] at hrun hkeeps ⊢
  have hregistered := Graph.isRegistered_of_build hg
  rw [ho.registry] at hregistered
  have hdisables : o'.config.fuses = true →
      ∀ t ∈ o'.catalog.templates, ∃ b, o'.config.disables t.name = .ok b := by
    rw [hconfig, ho'.templates, ← ho.templates]
    exact exists_disables_of_fusePass hs
  obtain ⟨again, hagain⟩ := ho'.exists_result
    { vars := block.vars, ops := StandardRun.left s.arena (o.fusionsIn g) } hdisables
    (hrun.isRegistered_left hregistered)
  refine ⟨again, hagain, ?_⟩
  -- The second pass starts at the graph of what the first one has left.
  obtain ⟨g', hg', harena⟩ := hrun.build_left hregistered hkeeps
  obtain ⟨_, _, s', hblock', hg'', hs', -⟩ := ho'.exists_pass hagain
  cases hblock'
  have hsame := hg''
  rw [ho'.registry, hg'] at hsame
  cases hsame
  rw [fusions_eq rfl hg'', ho'.fusionsIn_eq_nil_iff (Graph.isOf_of_build hg').1 hs',
    ho.leavesOpen_iff hs hrun, harena, FindsPath, FindsPath, hconfig, ho'.templates, ho.templates]

/-- Where every read that is left sees the write that it saw before, a second pass with the same
settings gives the result of the first pass back, or one that is equal to it, or fuses nothing, just
where the first pass leaves no path open. -/
theorem Optimizer.IsStandard.optimize_optimize {o o' : Optimizer} (ho : o.IsStandard)
    (ho' : o'.IsStandard) (hconfig : o'.config = o.config) {p : Program} {block : Block}
    (hblock : p.blocks = [block]) {out : Outcome} (h : (o.optimize p).result = .ok out)
    (hkeeps : ∀ result ∈ out.program.blocks, KeepsWriters block.ops result.ops (o.fusions p)) :
    ∃ g s again, Graph.build o.registry block.ops = .ok g ∧ o.fusePass g = .ok s ∧
      (o'.optimize out.program).result = .ok again ∧
      List.TFAE [again.program = out.program, again.program.same out.program = true,
        o'.fusions out.program = [], ¬ o.LeavesOpen g s] := by
  obtain ⟨block', g, s, hblock', hg, hs, hrun, rfl⟩ := ho.exists_pass h
  rw [hblock] at hblock'
  cases hblock'
  have hkept := hkeeps _ (List.mem_singleton_self _)
  rw [hrun.shot.removed_eq] at hkept
  obtain ⟨again, hagain, hnothing⟩ := ho.exists_again ho' hconfig hblock hg hs hrun hkept
  refine ⟨g, s, again, hg, hs, hagain, ?_⟩
  tfae_have 1 → 2 := fun hsame => hsame ▸ Program.same_refl _
  tfae_have 2 → 3 := ho'.fusions_eq_nil_of_same hagain
  tfae_have 3 → 1 := program_eq_of_fusions_eq_nil hagain
  tfae_have 3 ↔ 4 := hnothing
  tfae_finish

/-- Two convolutions, an addition of their results and an addition to the first of them. Only the
second convolution can be fused, with the first addition; the other two operators are then alone
with each other. -/
def openedPath : List Op :=
  [.ofTexts "conv2d" [("Input", ["x"])] [("Output", ["a"])] [("Filter", ["v"])],
    .ofTexts "conv2d" [("Input", ["y"])] [("Output", ["b"])] [("Filter", ["w"])],
    .ofTexts "elementwise_add" [("X", ["a", "b"])] [("Out", ["s"])],
    .ofTexts "elementwise_add" [("X", ["a"])] [("Out", ["t"])] [("Y", ["z"])]]

theorem optimize_optimize_openedPath : ∃ out,
    (Optimizer.usual.optimize (.ofOps openedPath)).result = .ok out ∧
    (∀ result ∈ out.program.blocks,
      KeepsWriters openedPath result.ops (Optimizer.usual.fusions (.ofOps openedPath))) ∧
    ∃ g s again, Graph.build Optimizer.usual.registry openedPath = .ok g ∧
      Optimizer.usual.fusePass g = .ok s ∧
      (Optimizer.usual.optimize out.program).result = .ok again ∧
      List.TFAE [again.program = out.program, again.program.same out.program = true,
        Optimizer.usual.fusions out.program = [], ¬ Optimizer.usual.LeavesOpen g s] := by
  have hresult : ((Optimizer.usual.optimize (.ofOps openedPath)).result.toOption.map fun out =>
      decide (∀ result ∈ out.program.blocks, KeepsWriters openedPath result.ops
        (Optimizer.usual.fusions (.ofOps openedPath)))) = some true := by
    decide +kernel
  obtain ⟨out, hout⟩ := exists_ok_of_isOk
    (x := (Optimizer.usual.optimize (.ofOps openedPath)).result) (by decide +kernel)
  rw [hout] at hresult
  have hkeeps := of_decide_eq_true (Option.some.inj hresult)
  exact ⟨out, hout, hkeeps,
    Optimizer.IsStandard.optimize_optimize ⟨rfl, rfl⟩ ⟨rfl, rfl⟩ rfl rfl hout hkeeps⟩

/-- A second pass that fuses operators gives another program. -/
theorem Optimizer.exists_again_ne {p : Program}
    (h : (usual.optimize p).result.toOption.any (fun out =>
      (usual.optimize out.program).result.isOk && (usual.fusions out.program).length != 0) = true) :
    ∃ out again, (usual.optimize p).result = .ok out ∧
      (usual.optimize out.program).result = .ok again ∧
      again.program.same out.program = false := by
  cases hout : (usual.optimize p).result with
  | error e => simp [hout, Except.toOption] at h
  | ok out =>
    simp only [hout, Except.toOption, Option.any_some, Bool.and_eq_true, bne_iff_ne] at h
    obtain ⟨hok, hfusions⟩ := h
    obtain ⟨again, hagain⟩ := exists_ok_of_isOk hok
    refine ⟨out, again, rfl, hagain, Bool.eq_false_iff.mpr fun hsame => hfusions ?_⟩
    have ho : usual.IsStandard := ⟨rfl, rfl⟩
    rw [ho.fusions_eq_nil_of_same hagain hsame, List.length_nil]

/-- Two convolutions with an addition to each. A reader of the first result stands before the second
addition, which puts out the same name, and behind the fused operator. -/
def redirectedRead : List Op :=
  [.ofTexts "conv2d" [("Input", ["x"])] [("Output", ["c"])] [("Filter", ["v"])],
    .ofTexts "elementwise_add" [("X", ["c"])] [("Out", ["t"])] [("Y", ["z"])],
    .ofTexts "conv2d" [("Input", ["y"])] [("Output", ["d"])] [("Filter", ["w"])],
    .ofTexts "sigmoid" [("X", ["c"])] [("Out", ["u"])],
    .ofTexts "elementwise_add" [("X", ["d"])] [("Out", ["c"])] [("Y", ["z"])]]

/-- A second pass goes on where a path has been left open, or where a read that sees another write
now has left a path open. -/
theorem optimize_optimize_ne :
    (∃ out again, (Optimizer.usual.optimize (.ofOps openedPath)).result = .ok out ∧
      (Optimizer.usual.optimize out.program).result = .ok again ∧
      again.program.same out.program = false) ∧
    ∃ out again, (Optimizer.usual.optimize (.ofOps redirectedRead)).result = .ok out ∧
      (Optimizer.usual.optimize out.program).result = .ok again ∧
      again.program.same out.program = false :=
  ⟨Optimizer.exists_again_ne (by decide +kernel), Optimizer.exists_again_ne (by decide +kernel)⟩

end TensorFusion
