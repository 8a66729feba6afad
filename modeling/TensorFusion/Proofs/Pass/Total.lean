import TensorFusion.Proofs.Graph.Sound
import TensorFusion.Proofs.Pass.Optimize

/-!
# Proofs — Pass — Total

When an optimization comes to an end. Over a sound arena every look at a node comes to a verdict that
can be told, and every match can be fused, whatever the templates look like and whatever was fused
before. So a pass comes to an end, and a program whose types are registered comes out.
-/

namespace TensorFusion

/-! ## Trees of types -/

theorem Pattern.allLeavesNamed_of {ps : List Pattern} (h : ∀ p ∈ ps, p.leavesNamed = true) :
    Pattern.allLeavesNamed ps = true := by
  induction ps with
  | nil => rfl
  | cons p ps ih =>
    rw [Pattern.allLeavesNamed, h p (by simp), ih fun q hq => h q (by simp [hq])]
    rfl

/-- From every node trees of types can be grown, and their leaves are named. -/
theorem Arena.exists_typesBelow {a : Arena} (ha : a.IsSound) (levels : Nat) {i : Nat}
    (hi : i < a.size) : ∃ shadow, a.typesBelow levels i = .ok shadow ∧
      shadow.leavesNamed = true := by
  induction levels generalizing i with
  | zero =>
    obtain ⟨op, hop⟩ := op?_of_lt hi
    refine ⟨.leaf op.opType, ?_, Pattern.leavesNamed_leaf (ha.typed i op hop)⟩
    simp only [typesBelow, node_eq_ok.mpr (node?_of_op? hop), ok_bind]
    rfl
  | succ levels ih =>
    obtain ⟨op, hop⟩ := op?_of_lt hi
    have hbelow := fun k hk => ih (ha.forward.range i k hk)
    obtain ⟨shadows, hshadows⟩ := mapM_total fun k hk => (hbelow k hk).imp fun _ h => h.1
    have hall : ∀ p ∈ shadows, p.leavesNamed = true := by
      intro p hp
      obtain ⟨k, hk, hp⟩ := exists_of_mem_mapM hshadows hp
      obtain ⟨shadow, hshadow, hnamed⟩ := hbelow k hk
      rw [hp] at hshadow
      cases hshadow
      exact hnamed
    refine ⟨.node op.opType shadows, ?_, ?_⟩
    · simp only [typesBelow, node_eq_ok.mpr (node?_of_op? hop), ok_bind, hshadows]
      rfl
    · cases shadows with
      | nil => exact Pattern.leavesNamed_leaf (ha.typed i op hop)
      | cons p ps =>
        rw [Pattern.leavesNamed, hall p (by simp),
          Pattern.allLeavesNamed_of fun q hq => hall q (by simp [hq])]
        rfl

/-- A verdict can be told, since the tree that it is about has a text. -/
def Verdict.IsNamed : Verdict → Prop
  | .otherType => True
  | .compared shadow _ => shadow.leavesNamed = true

/-- A look at a node comes to a verdict. -/
theorem Template.exists_examine (t : Template) {a : Arena} (ha : a.IsSound) {i : Nat}
    (hi : i < a.size) : ∃ v, t.examine a i = .ok v ∧ v.IsNamed := by
  obtain ⟨op, hop⟩ := Arena.op?_of_lt hi
  simp only [Template.examine, Arena.node_eq_ok.mpr (Arena.node?_of_op? hop), ok_bind]
  split
  next =>
    obtain ⟨shadow, hshadow, hnamed⟩ := Arena.exists_typesBelow ha (t.depth - 1) hi
    exact ⟨.compared shadow (shadow.same t.root), by rw [Arena.typeTree, hshadow]; rfl, hnamed⟩
  next => exact ⟨.otherType, rfl, trivial⟩

/-! ## Visits -/

/-- What a template needs so that it can be tried and counted: its name and the type it starts at
are keys, and the type it makes is a text. -/
structure Template.CanRun (t : Template) : Prop where
  name : ∃ a, t.name = .atom a
  trigger : ∃ a, t.trigger = .atom a
  fusedType : t.fusedType.isString = true

/-- A report is made. -/
theorem Verdict.exists_report {v : Verdict} (hv : v.IsNamed) (wanted heard : Bool) (i : Nat)
    (t : Template) : ∃ events, v.report wanted heard i t = .ok events := by
  cases v with
  | otherType => exact ⟨[], rfl⟩
  | compared shadow agrees =>
    have hnamed : shadow.leavesNamed = true := hv
    unfold Verdict.report
    cases wanted with
    | false => exact ⟨[], rfl⟩
    | true =>
      cases heard with
      | false => exact ⟨_, rfl⟩
      | true =>
        simp only [Pattern.describe?, if_pos hnamed]
        exact ⟨_, rfl⟩

namespace Pass

variable {c : Config} {heard : Bool} {g : Graph} {t : Template} {s : Pass} {index : Nat}

/-- The arena of a pass over a graph is sound at any time. -/
structure IsSound (g : Graph) (s : Pass) : Prop where
  arena : s.arena.IsSound
  size : s.arena.size = g.arena.size

theorem IsSound.fuse (hs : s.IsSound g) (ht : t.CanRun) (hindex : index < s.arena.size)
    (c : Config) : ∃ s', s.fuse c t index = .ok s' ∧ s'.IsSound g := by
  obtain ⟨made, hmade, hcollapsed⟩ := t.exists_fuse hs.arena hindex
  obtain ⟨name, hname⟩ := ht.name
  simp only [Pass.fuse, hmade, hname, count, ok_mapError, before_ok, ok_bind]
  exact ⟨_, rfl, hcollapsed.isSound hs.arena ht.fusedType, hcollapsed.size.trans hs.size⟩

/-- A visit comes to an end. -/
theorem IsSound.exists_visit (hs : s.IsSound g) (ht : t.CanRun) (hindex : index < s.arena.size)
    (c : Config) (heard : Bool) : ∃ s', visit c heard t s index = .ok s' ∧ s'.IsSound g := by
  unfold visit
  split
  next => exact ⟨s, rfl, hs⟩
  next =>
    obtain ⟨v, hv, hnamed⟩ := t.exists_examine hs.arena hindex
    obtain ⟨events, hevents⟩ := v.exists_report hnamed c.debugs heard index t
    have hreport : (s.report events).IsSound g := ⟨hs.arena, hs.size⟩
    rw [hv, before_ok, ok_bind, hevents, before_ok, ok_bind]
    split
    next => exact hreport.fuse ht hindex c
    next => exact ⟨_, rfl, hreport⟩

/-- A turn of a template comes to an end. -/
theorem IsSound.exists_runTemplate (hs : s.IsSound g) (hg : g.IsSound) (ht : t.CanRun)
    (hdisables : ∃ b, c.disables t.name = .ok b) (heard : Bool) :
    ∃ s', runTemplate c heard g s t = .ok s' ∧ s'.IsSound g := by
  obtain ⟨disabled, hdisabled⟩ := hdisables
  obtain ⟨trigger, htrigger⟩ := ht.trigger
  rw [runTemplate, hdisabled, before_ok, ok_bind]
  cases disabled with
  | true =>
    refine ⟨_, rfl, ?_⟩
    unfold note
    split <;> exact ⟨hs.arena, hs.size⟩
  | false =>
    have hcandidates : g.candidates t.trigger = .ok ((g.groups.get? trigger).getD []) := by
      rw [htrigger]
      rfl
    rw [if_neg (by simp), hcandidates, before_ok, ok_bind]
    refine foldlM_total (motive := fun _ => IsSound g) hs fun done index rest s hsplit hs => ?_
    have hindex := hg.candidates _ _ hcandidates index (by simp [hsplit])
    exact hs.exists_visit ht (hs.size ▸ hindex) c heard

/-- A run of templates comes to an end. -/
theorem IsSound.exists_runTemplates {templates : List Template} (hs : s.IsSound g) (hg : g.IsSound)
    (hrun : ∀ t ∈ templates, t.CanRun)
    (hdisables : ∀ t ∈ templates, ∃ b, c.disables t.name = .ok b) (heard : Bool) :
    ∃ s', s.runTemplates c heard g templates = .ok s' ∧ s'.IsSound g := by
  refine foldlM_total (motive := fun _ => IsSound g) hs fun done t rest s hsplit hs => ?_
  have ht : t ∈ templates := by simp [hsplit]
  exact hs.exists_runTemplate hg (hrun t ht) (hdisables t ht) heard

end Pass

/-! ## Passes -/

namespace Optimizer

variable {o : Optimizer} {g : Graph}

/-- A pass comes to an end. -/
theorem exists_fusePass (hg : g.IsSound) (hrun : ∀ t ∈ o.catalog.templates, t.CanRun)
    (hdisables : o.config.fuses = true →
      ∀ t ∈ o.catalog.templates, ∃ b, o.config.disables t.name = .ok b) :
    ∃ s, o.fusePass g = .ok s := by
  unfold fusePass
  have hstart : (o.firstPass g).IsSound g := ⟨hg.arena, rfl⟩
  split
  next hfuses =>
    obtain ⟨s, hs, -⟩ := hstart.exists_runTemplates hg hrun (hdisables hfuses) o.heard
    exact ⟨s, hs⟩
  next => exact ⟨_, rfl⟩

/-- A pass that comes to an end could tell of every template whether it is switched off. -/
theorem exists_disables_of_fusePass {s : Pass} (h : o.fusePass g = .ok s)
    (hfuses : o.config.fuses = true) :
    ∀ t ∈ o.catalog.templates, ∃ b, o.config.disables t.name = .ok b := by
  intro t ht
  unfold fusePass at h
  rw [if_pos hfuses] at h
  obtain ⟨s₁, s₂, hturn⟩ := exists_of_foldlM h ht
  rcases Pass.runTemplate_eq_ok hturn with ⟨hdisabled, -⟩ | ⟨hdisabled, -⟩
  · exact ⟨true, hdisabled⟩
  · exact ⟨false, hdisabled⟩

/-- An optimization comes to an end where the types are registered texts and the names in declared
slots are keys. -/
theorem optimize_total {p : Program} {block : Block}
    (hrun : ∀ t ∈ o.catalog.templates, t.CanRun)
    (hdisables : o.config.fuses = true →
      ∀ t ∈ o.catalog.templates, ∃ b, o.config.disables t.name = .ok b)
    (hblock : p.blocks = [block])
    (hregistered : ∀ op ∈ block.ops, op.IsRegistered o.registry)
    (hTypes : ∀ op ∈ block.ops, op.opType.isString = true) :
    ∃ out, (o.optimize p).result = .ok out := by
  obtain ⟨g, hg⟩ := Graph.exists_build hregistered
  have hsound := (Graph.isOf_of_build hg).1.isSound hTypes
  obtain ⟨s, hs⟩ := exists_fusePass hsound hrun hdisables
  exact ⟨_, optimize_of_fusePass hblock hg hs⟩

end Optimizer

end TensorFusion
