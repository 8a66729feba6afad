import TensorFusion.Proofs.Sample
import TensorFusion.Proofs.Standard.Rewrite

/-!
# Proofs — Standard — Writers

Which write a read sees. A fused operator writes at the place of its root what was written at the
place of its last operator. Only edges from writers to readers are looked at when operators are
fused, so a name that is used again may be in the way; where none is, every read still sees the
write that it saw before.
-/

namespace TensorFusion

/-- The last writer of a name that is read is a producer. -/
theorem mem_producersOf {ops : List Op} {b : Atom} {s w : Nat} (hread : ReadsAt ops s b)
    (hw : lastWriter .standard ops (.atom b) s = some w) : w ∈ producersOf .standard ops s := by
  obtain ⟨op, hop, hreads⟩ := hread
  obtain ⟨n, hn, hsame⟩ := Registry.readsName_iff.mp hreads
  obtain ⟨c, rfl, hcb⟩ := Value.atom_of_same_atom hsame
  rw [producersOf_eq hop]
  exact List.mem_filterMap.mpr ⟨_, hn, by rw [lastWriter_congr hcb, hw]⟩

/-- A name is written at one position at most, and is not read there or before. -/
structure IsWrittenOnce (ops : List Op) (b : Atom) : Prop where
  once : ∀ i j, WritesAt ops i b → WritesAt ops j b → i = j
  unread : ∀ i j, WritesAt ops i b → j ≤ i → ¬ ReadsAt ops j b

/-- To tell whether names are read too early, those that stand in the program can be gone
through. -/
theorem forall_isWrittenOnce_iff {ops : List Op} : (∀ b, IsWrittenOnce ops b) ↔
    (∀ i < ops.length, ∀ op ∈ ops[i]?, ∀ c ∈ Value.atoms (Registry.standard.writes op),
      ∀ j < ops.length, WritesAt ops j c → i = j) ∧
    ∀ i < ops.length, ∀ op ∈ ops[i]?, ∀ c ∈ Value.atoms (Registry.standard.writes op),
      ∀ j ≤ i, ¬ ReadsAt ops j c := by
  rw [← once_iff]
  constructor
  · intro h
    refine ⟨fun i j b => (h b).once i j, fun i _ op hop c hc j hj => ?_⟩
    refine (h c).unread i j ⟨op, hop, ?_⟩ hj
    exact Registry.writesName_iff.mpr ⟨.atom c, Value.mem_atoms.mp hc, by simp⟩
  · intro h b
    refine ⟨fun i j => h.1 i j b, fun i j hi hj hread => ?_⟩
    obtain ⟨op, hop, c, hc, hsame⟩ := exists_of_writesAt hi
    refine h.2 i (List.getElem?_eq_some_iff.mp hop).1 op hop c hc j hj (hread.congr ?_)
    rw [Atom.same_comm]
    exact hsame

instance (ops : List Op) : Decidable (∀ b, IsWrittenOnce ops b) :=
  decidable_of_iff _ forall_isWrittenOnce_iff.symm

/-- The positions that some fusions leave of a program, in order. -/
def positionsLeft (fs : List Fusion) (bound : Nat) : List Nat :=
  survivorsOf (fs.flatMap (·.made.absorbed)) bound

/-- No operator that is left between the root and the last operator of a fusion reads or writes a
name that the last one writes, in the program or in its result. -/
def Fusion.IsClearOf (ops result : List Op) (kept : List Nat) (b : Atom) (f : Fusion) : Prop :=
  WritesAt ops f.leaf b → ∀ x s, kept[x]? = some s → f.root < s → s < f.leaf →
    ¬ ReadsAt ops s b ∧ ¬ WritesAt ops s b ∧ ¬ ReadsAt result x b ∧ ¬ WritesAt result x b

/-- The position that a write to a name is seen from at a position of the result, as the program
counts positions: a fused operator writes what the last of its operators wrote. -/
def lastWriterLeft (fs : List Fusion) (result : List Op) (kept : List Nat) (b : Atom) (x : Nat) :
    Option Nat :=
  (lastWriter .standard result (.atom b) x).bind fun y => kept[y]?.map (tailOf fs)

namespace StandardRun

variable {ops : List Op} {fs : List Fusion} {g : Graph} {a : Arena} {removed : List Nat}
  {b : Atom} {x s i j : Nat}

/-- The result of a standard run. -/
abbrev left (a : Arena) (fs : List Fusion) : List Op :=
  (positionsLeft fs a.size).filterMap a.op?

theorem getElem?_left (x : Nat) : (left a fs)[x]? = (positionsLeft fs a.size)[x]?.bind a.op? :=
  a.getElem?_survivors _ x

theorem mem_positionsLeft (h : StandardRun ops fs g a removed) :
    i ∈ positionsLeft fs a.size ↔ i < ops.length ∧ i ∉ removed := by
  rw [positionsLeft, mem_survivorsOf, ← h.shot.removed_eq, h.size]

theorem exists_op_left (hx : (positionsLeft fs a.size)[x]? = some s) :
    ∃ op', a.op? s = some op' ∧ (left a fs)[x]? = some op' := by
  obtain ⟨op', hop'⟩ := Arena.op?_of_lt (mem_survivorsOf.mp (List.mem_of_getElem? hx)).1
  refine ⟨op', hop', ?_⟩
  rw [getElem?_left, hx]
  exact hop'

/-- What is read in the result was read at the same place in the program. -/
theorem readsAt_left (h : StandardRun ops fs g a removed)
    (hx : (positionsLeft fs a.size)[x]? = some s) :
    ReadsAt (left a fs) x b ↔ ReadsAt ops s b := by
  obtain ⟨op', hop', hleft⟩ := exists_op_left hx
  obtain ⟨op, hop, hreads⟩ := h.reads_eq hop'
  simp [ReadsAt, hleft, hop, Registry.readsName, hreads]

/-- What is written in the result was written at the tail of the place. -/
theorem writesAt_left (h : StandardRun ops fs g a removed)
    (hx : (positionsLeft fs a.size)[x]? = some s) :
    WritesAt (left a fs) x b ↔ WritesAt ops (tailOf fs s) b := by
  obtain ⟨op', hop', hleft⟩ := exists_op_left hx
  obtain ⟨op, hop, hwrites⟩ := h.writesName_eq hop'
  simp [WritesAt, hleft, hop, hwrites]

/-- A tail that is not the place itself belongs to a fusion. -/
theorem exists_fusion_of_tail_ne (h : StandardRun ops fs g a removed) (hne : tailOf fs i ≠ i) :
    ∃ f ∈ fs, f.root = i ∧ f.leaf = tailOf fs i := by
  rcases Fusion.root_cases fs i with hi | ⟨f, hf, rfl⟩
  · exact absurd (h.shot.tail_ne i hi) hne
  · exact ⟨f, hf, rfl, (h.shot.tail_root f hf).symm⟩

theorem leaf_ne_of_live (h : StandardRun ops fs g a removed) {f : Fusion} (hf : f ∈ fs)
    (hs : s ∉ removed) : s ≠ f.leaf := by
  rintro rfl
  have hstands := h.shot.stands f hf
  exact hs (hstands.absorbed_removed _ hstands.leaf_mem)

/-- What writes a name in the result stands at a position that is left. -/
theorem exists_position_of_writesAt {y : Nat} (hy : WritesAt (left a fs) y b) :
    ∃ j, (positionsLeft fs a.size)[y]? = some j := by
  obtain ⟨op, hop, -⟩ := hy
  rw [Option.mem_def, getElem?_left, Option.bind_eq_some_iff] at hop
  obtain ⟨j, hj, -⟩ := hop
  exact ⟨j, hj⟩

/-- Before a read of a name that is not in the way, nothing writes it in the result that is not
behind the last writer that the program had. -/
theorem not_writesAt_of_tail_ge (h : StandardRun ops fs g a removed)
    (hclear : ∀ f ∈ fs, f.IsClearOf ops (left a fs) (positionsLeft fs a.size) b)
    (hx : (positionsLeft fs a.size)[x]? = some s) (hread : ReadsAt ops s b) (hj : j < s)
    (htail : s ≤ tailOf fs j) : ¬ WritesAt ops (tailOf fs j) b := by
  intro hwrites
  obtain ⟨f, hf, rfl, hleaf⟩ := h.exists_fusion_of_tail_ne (i := j) (by omega)
  have hs := (h.mem_positionsLeft.mp (List.mem_of_getElem? hx)).2
  have hne := h.leaf_ne_of_live hf hs
  rw [← hleaf] at hwrites htail
  exact (hclear f hf hwrites x s hx hj (by omega)).1 hread

/-- Where no name is in the way, a read that saw no write sees none in the result. -/
theorem lastWriter_left_eq_none (h : StandardRun ops fs g a removed)
    (hclear : ∀ f ∈ fs, f.IsClearOf ops (left a fs) (positionsLeft fs a.size) b)
    (hx : (positionsLeft fs a.size)[x]? = some s) (hread : ReadsAt ops s b)
    (hnone : lastWriter .standard ops (.atom b) s = none) :
    lastWriter .standard (left a fs) (.atom b) x = none := by
  rw [lastWriter_eq_none_iff] at hnone ⊢
  intro y op hy hop
  rw [← Bool.not_eq_true]
  intro hwrites
  have hwritesAt : WritesAt (left a fs) y b := ⟨op, hop, hwrites⟩
  obtain ⟨j, hj⟩ := exists_position_of_writesAt hwritesAt
  have hjs : j < s := lt_of_lt_getElem? (survivorsOf_pairwise _ _) hj hx hy
  obtain ⟨op', hop', hwrites'⟩ := (h.writesAt_left hj).mp hwritesAt
  by_cases htail : tailOf fs j < s
  · rw [hnone _ op' htail hop'] at hwrites'
    cases hwrites'
  · exact h.not_writesAt_of_tail_ge hclear hx hread hjs (by omega) ⟨op', hop', hwrites'⟩

/-- Between the last write that a read saw and the read, nothing in the result writes the name. -/
theorem not_writesAt_between (h : StandardRun ops fs g a removed)
    (hclear : ∀ f ∈ fs, f.IsClearOf ops (left a fs) (positionsLeft fs a.size) b)
    (hx : (positionsLeft fs a.size)[x]? = some s) (hread : ReadsAt ops s b)
    (hw : lastWriter .standard ops (.atom b) s = some (tailOf fs j)) (hj : j ∉ removed) {v k : Nat}
    (hk : (positionsLeft fs a.size)[v]? = some k) (hjk : j < k) (hks : k < s) :
    ¬ WritesAt (left a fs) v b := by
  intro hv
  obtain ⟨-, ⟨e, he, hwrites⟩, hlast⟩ := lastWriter_eq_some_iff.mp hw
  have hkLive := (h.mem_positionsLeft.mp (List.mem_of_getElem? hk)).2
  obtain ⟨op', hop', hwrites'⟩ := (h.writesAt_left hk).mp hv
  by_cases htail : tailOf fs k < s
  · -- The write came before the last one, so the last one has moved up across it.
    have hkj : tailOf fs k < tailOf fs j := by
      rcases Nat.lt_trichotomy (tailOf fs k) (tailOf fs j) with hlt | heq | hgt
      · exact hlt
      · have := h.shot.live.tail_inj k j hkLive hj heq
        omega
      · rw [hlast _ op' hgt htail hop'] at hwrites'
        cases hwrites'
    have hle := h.shot.live.le_tail k hkLive
    obtain ⟨f, hf, rfl, hleaf⟩ := h.exists_fusion_of_tail_ne (i := j) (by omega)
    exact (hclear f hf (hleaf ▸ ⟨e, he, hwrites⟩) v k hk hjk (by omega)).2.2.2 hv
  · exact h.not_writesAt_of_tail_ge hclear hx hread hks (by omega) ⟨op', hop', hwrites'⟩

/-- Where no name is in the way, every read sees in the result the write that it saw before. -/
theorem lastWriterLeft_eq (h : StandardRun ops fs g a removed)
    (hclear : ∀ f ∈ fs, f.IsClearOf ops (left a fs) (positionsLeft fs a.size) b)
    (hx : (positionsLeft fs a.size)[x]? = some s) (hread : ReadsAt ops s b) :
    lastWriterLeft fs (left a fs) (positionsLeft fs a.size) b x
      = lastWriter .standard ops (.atom b) s := by
  have hpairwise : (positionsLeft fs a.size).Pairwise (· < ·) := survivorsOf_pairwise _ _
  have hlive := (h.mem_positionsLeft.mp (List.mem_of_getElem? hx)).2
  unfold lastWriterLeft
  cases hw : lastWriter .standard ops (.atom b) s with
  | none => rw [h.lastWriter_left_eq_none hclear hx hread hw, Option.bind_none]
  | some w =>
    obtain ⟨hws, ⟨e, he, hwrites⟩, -⟩ := lastWriter_eq_some_iff.mp hw
    obtain ⟨j, e', hjw, hj, rfl, he'⟩ :=
      h.exists_op_of_tail he (h.not_isUsedUp_of_producer hlive (mem_producersOf hread hw))
    obtain ⟨y, hy⟩ := List.mem_iff_getElem?.mp
      (h.mem_positionsLeft.mpr ⟨h.size ▸ Arena.lt_size_of_op? he', hj⟩)
    suffices hlast : lastWriter .standard (left a fs) (.atom b) x = some y by
      rw [hlast, Option.bind_some, hy, Option.map_some]
    refine lastWriter_eq_some_iff.mpr ⟨lt_of_getElem?_lt hpairwise hy hx (by omega),
      (h.writesAt_left hy).mpr ⟨e, he, hwrites⟩, fun v op hyv hvx hop => ?_⟩
    rw [← Bool.not_eq_true]
    intro hvWrites
    have hv : WritesAt (left a fs) v b := ⟨op, hop, hvWrites⟩
    obtain ⟨k, hk⟩ := exists_position_of_writesAt hv
    exact h.not_writesAt_between hclear hx hread hw hj hk
      (lt_of_lt_getElem? hpairwise hy hk hyv) (lt_of_lt_getElem? hpairwise hk hx hvx) hv

/-- A name that is written once is not in the way. -/
theorem isClearOf_of_isWrittenOnce (h : StandardRun ops fs g a removed) (hb : IsWrittenOnce ops b)
    {f : Fusion} (hf : f ∈ fs) : f.IsClearOf ops (left a fs) (positionsLeft fs a.size) b := by
  intro hwrites x s hx hroot hleaf
  have hunread : ¬ ReadsAt ops s b := hb.unread f.leaf s hwrites (Nat.le_of_lt hleaf)
  refine ⟨hunread, fun hs => ?_, fun hs => hunread ((h.readsAt_left hx).mp hs), fun hs => ?_⟩
  · have := hb.once s f.leaf hs hwrites
    omega
  · -- The results of the last operator stand at the root alone.
    have htail := hb.once (tailOf fs s) f.leaf ((h.writesAt_left hx).mp hs) hwrites
    rw [← h.shot.tail_root f hf] at htail
    have hlive := (h.mem_positionsLeft.mp (List.mem_of_getElem? hx)).2
    have := h.shot.live.tail_inj s f.root hlive (h.shot.stands f hf).root_live htail
    omega

end StandardRun

/-- A name that is written once is not in the way of any fusion, and where a name is not in the way
every read of it that is left sees in the result the write that it saw before. -/
theorem Optimizer.IsStandard.lastWriter_eq {o : Optimizer} (ho : o.IsStandard) {p : Program}
    {block : Block} (hblock : p.blocks = [block]) {out : Outcome}
    (h : (o.optimize p).result = .ok out) :
    ∃ result kept, out.program.blocks = [result] ∧
      kept = positionsLeft (o.fusions p) block.ops.length ∧ result.ops.length = kept.length ∧
      (∀ b, IsWrittenOnce block.ops b →
        ∀ f ∈ o.fusions p, f.IsClearOf block.ops result.ops kept b) ∧
      ∀ b, (∀ f ∈ o.fusions p, f.IsClearOf block.ops result.ops kept b) →
        ∀ x s, kept[x]? = some s → ReadsAt result.ops x b →
          lastWriterLeft (o.fusions p) result.ops kept b x
            = lastWriter .standard block.ops (.atom b) s := by
  obtain ⟨block', g, a, removed, hblock', hrun, rfl⟩ := ho.exists_run h
  rw [hblock] at hblock'
  cases hblock'
  have hkept : positionsLeft (o.fusions p) block.ops.length
      = positionsLeft (o.fusions p) a.size := by rw [hrun.size]
  have hops : (survivorsOf removed a.size).filterMap a.op? = StandardRun.left a (o.fusions p) := by
    rw [StandardRun.left, positionsLeft, ← hrun.shot.removed_eq]
  refine ⟨_, _, rfl, rfl, ?_, fun b hb f hf => ?_, fun b hclear x s hx hread => ?_⟩
  · rw [hops, hkept]
    exact a.length_survivors _
  · rw [hops, hkept]
    exact hrun.isClearOf_of_isWrittenOnce hb hf
  · simp only [hops, hkept] at hclear hx hread ⊢
    exact hrun.lastWriterLeft_eq hclear hx ((hrun.readsAt_left hx).mp hread)

/-- A convolution and an addition, with an operator between them that has nothing to do with
either. -/
def freshName : List Op :=
  [.ofTexts "conv2d" [("Input", ["x"])] [("Output", ["c"])] [("Filter", ["w"])],
    .ofTexts "sigmoid" [("X", ["z"])] [("Out", ["s"])],
    .ofTexts "elementwise_add" [("X", ["c"])] [("Out", ["t"])] [("Y", ["b"])],
    .ofTexts "softmax" [("X", ["t"])] [("Out", ["u"])]]

theorem lastWriter_eq_freshName : ∃ out,
    (Optimizer.usual.optimize (.ofOps freshName)).result = .ok out ∧
    ∃ result kept, out.program.blocks = [result] ∧
      kept = positionsLeft (Optimizer.usual.fusions (.ofOps freshName)) freshName.length ∧
      result.ops.length = kept.length ∧
      (∀ b, IsWrittenOnce freshName b → ∀ f ∈ Optimizer.usual.fusions (.ofOps freshName),
        f.IsClearOf freshName result.ops kept b) ∧
      ∀ b, (∀ f ∈ Optimizer.usual.fusions (.ofOps freshName),
          f.IsClearOf freshName result.ops kept b) →
        ∀ x s, kept[x]? = some s → ReadsAt result.ops x b →
          lastWriterLeft (Optimizer.usual.fusions (.ofOps freshName)) result.ops kept b x
            = lastWriter .standard freshName (.atom b) s := by
  obtain ⟨out, hout⟩ := exists_ok_of_isOk
    (x := (Optimizer.usual.optimize (.ofOps freshName)).result) (by decide +kernel)
  exact ⟨out, hout, Optimizer.IsStandard.lastWriter_eq ⟨rfl, rfl⟩ rfl hout⟩

/-- A convolution and an addition, with a reader of an older tensor between them that has the name
of what the addition puts out. -/
def reusedName : List Op :=
  [.ofTexts "feed" [("X", ["f"])] [("Out", ["t"])],
    .ofTexts "conv2d" [("Input", ["x"])] [("Output", ["c"])] [("Filter", ["w"])],
    .ofTexts "sigmoid" [("X", ["t"])] [("Out", ["s"])],
    .ofTexts "elementwise_add" [("X", ["c"])] [("Out", ["t"])] [("Y", ["b"])]]

/-- A fusion moves a write up across a read of the same name, which then sees the newer tensor. -/
theorem exists_readsAt_reusedName : ∃ f ∈ Optimizer.usual.fusions (.ofOps reusedName), ∃ s,
    f.root < s ∧ s < f.leaf ∧
    s ∈ positionsLeft (Optimizer.usual.fusions (.ofOps reusedName)) reusedName.length ∧
    WritesAt reusedName f.leaf (.text "t") ∧ ReadsAt reusedName s (.text "t") ∧
    lastWriter .standard reusedName "t" s = some 0 ∧
    ∃ out, (Optimizer.usual.optimize (.ofOps reusedName)).result = .ok out ∧
      ∀ result ∈ out.program.blocks, ReadsAt result.ops 2 (.text "t") ∧
        lastWriter .standard result.ops "t" 2 = some 1 := by
  have hview : (Optimizer.usual.fusions (.ofOps reusedName)).any (fun f => decide
      (f.root < 2 ∧ 2 < f.leaf ∧
        2 ∈ positionsLeft (Optimizer.usual.fusions (.ofOps reusedName)) reusedName.length ∧
        WritesAt reusedName f.leaf (.text "t") ∧ ReadsAt reusedName 2 (.text "t") ∧
        lastWriter .standard reusedName "t" 2 = some 0)) = true := by
    decide +kernel
  have hresult : ((Optimizer.usual.optimize (.ofOps reusedName)).result.toOption.map fun out =>
      decide (∀ result ∈ out.program.blocks, ReadsAt result.ops 2 (.text "t") ∧
        lastWriter .standard result.ops "t" 2 = some 1)) = some true := by
    decide +kernel
  obtain ⟨out, hout⟩ := exists_ok_of_isOk
    (x := (Optimizer.usual.optimize (.ofOps reusedName)).result) (by decide +kernel)
  rw [hout] at hresult
  obtain ⟨f, hf, hview⟩ := List.any_eq_true.mp hview
  obtain ⟨hroot, hleaf, hleft, hwrites, hreads, hlast⟩ := of_decide_eq_true hview
  exact ⟨f, hf, 2, hroot, hleaf, hleft, hwrites, hreads, hlast, out, hout,
    of_decide_eq_true (Option.some.inj hresult)⟩

end TensorFusion
