import TensorFusion.Proofs.Pass.Optimize

/-!
# Proofs — Pass — History

What has become of the graph after some of the fusions of a pass. A pass that is stopped on the way
has made its fusions by the rules as well, so what every fusion by the rules keeps holds after each
of them, whether the pass comes to an end or not.
-/

namespace TensorFusion

/-- The arena that some fusions leave, made one after the other. -/
def arenaAfter (a : Arena) (fs : List Fusion) : Arena := fs.foldl (fun _ f => f.made.arena) a

/-- What is absorbed after some fusions, made one after the other. -/
def removedAfter (removed : List Nat) (fs : List Fusion) : List Nat :=
  fs.foldl Pass.absorbedWith removed

/-- Fusions that are made by the rules, one after the other, the first in a given arena. -/
inductive IsHistory (c : Config) (g : Graph) (templates : List Template) :
    Arena → List Nat → List Fusion → Prop where
  | nil {a : Arena} {removed : List Nat} : IsHistory c g templates a removed []
  | cons {a : Arena} {removed : List Nat} {f : Fusion} {fs : List Fusion} (hbefore : f.before = a)
      (hvalid : f.IsValid c g templates removed)
      (hrest : IsHistory c g templates f.made.arena (Pass.absorbedWith removed f) fs) :
      IsHistory c g templates a removed (f :: fs)

namespace IsHistory

variable {c : Config} {g : Graph} {templates : List Template} {a : Arena} {removed : List Nat}
  {done rest fs : List Fusion}

theorem append (h : IsHistory c g templates a removed done)
    (hrest : IsHistory c g templates (arenaAfter a done) (removedAfter removed done) rest) :
    IsHistory c g templates a removed (done ++ rest) := by
  induction h with
  | nil => exact hrest
  | cons hbefore hvalid _ ih => exact .cons hbefore hvalid (ih hrest)

theorem left (h : IsHistory c g templates a removed (done ++ rest)) :
    IsHistory c g templates a removed done := by
  induction done generalizing a removed with
  | nil => exact .nil
  | cons f done ih =>
    cases h with
    | cons hbefore hvalid hrest => exact .cons hbefore hvalid (ih hrest)

theorem right (h : IsHistory c g templates a removed (done ++ rest)) :
    IsHistory c g templates (arenaAfter a done) (removedAfter removed done) rest := by
  induction done generalizing a removed with
  | nil => exact h
  | cons f done ih =>
    cases h with
    | cons _ _ hrest => exact ih hrest

/-- The next fusion is made by the rules in what those before it have left. -/
theorem next {f : Fusion} (h : IsHistory c g templates a removed (done ++ f :: rest)) :
    f.before = arenaAfter a done ∧ f.IsValid c g templates (removedAfter removed done) := by
  cases h.right with
  | cons hbefore hvalid _ => exact ⟨hbefore, hvalid⟩

/-- What every fusion by the rules keeps holds after all of them. -/
theorem induction {motive : List Fusion → Arena → List Nat → Prop}
    (step : ∀ fs a removed f, motive fs a removed → f.before = a →
      f.IsValid c g templates removed →
      motive (fs ++ [f]) f.made.arena (Pass.absorbedWith removed f))
    (start : motive [] a removed) (h : IsHistory c g templates a removed fs) :
    motive fs (arenaAfter a fs) (removedAfter removed fs) := by
  suffices ∀ done, motive done a removed →
      motive (done ++ fs) (arenaAfter a fs) (removedAfter removed fs) from this [] start
  clear start
  intro done start
  induction h generalizing done with
  | nil => simpa [arenaAfter, removedAfter] using start
  | @cons a removed f fs hbefore hvalid _ ih =>
    have hmotive := ih (done ++ [f]) (step done a removed f start hbefore hvalid)
    rw [List.append_assoc] at hmotive
    exact hmotive

/-- Fusions with templates none of which looks for what another makes are made in one go. -/
theorem oneShot (h : IsHistory c g templates a [] fs) (hlinked : a.WellLinked)
    (hTypes : ∀ i op, a.op? i = some op → ∃ opType, op.opType = .atom opType)
    (hfinal : Template.AreFinal templates) :
    OneShot templates a fs (arenaAfter a fs) (removedAfter [] fs) :=
  h.induction (fun _ _ _ _ hshot hbefore hvalid =>
    hshot.step hlinked hTypes hfinal hbefore hvalid) (OneShot.start templates a)

end IsHistory

/-! ## Passes -/

/-- An arena and what is absorbed are what some fusions have left. -/
def IsLeft (a₀ : Arena) (removed₀ : List Nat) (fs : List Fusion) (a : Arena) (removed : List Nat) :
    Prop :=
  a = arenaAfter a₀ fs ∧ removed = removedAfter removed₀ fs

theorem IsLeft.step {a₀ a : Arena} {removed₀ removed : List Nat} {fs : List Fusion}
    (h : IsLeft a₀ removed₀ fs a removed) (f : Fusion) :
    IsLeft a₀ removed₀ (fs ++ [f]) f.made.arena (Pass.absorbedWith removed f) := by
  obtain ⟨rfl, rfl⟩ := h
  simp [IsLeft, arenaAfter, removedAfter]

theorem IsLeft.trans {a₀ a b : Arena} {removed₀ removed more : List Nat} {fs fs' : List Fusion}
    (h : IsLeft a₀ removed₀ fs a removed) (h' : IsLeft a removed fs' b more) :
    IsLeft a₀ removed₀ (fs ++ fs') b more := by
  obtain ⟨rfl, rfl⟩ := h
  obtain ⟨rfl, rfl⟩ := h'
  simp [IsLeft, arenaAfter, removedAfter]

namespace Pass

variable {c : Config} {heard : Bool} {g : Graph} {templates : List Template} {t : Template}
  {s s' : Pass} {index : Nat} {indices candidates : List Nat}

/-- A visit leaves what the fusion leaves that it makes, if it makes one. -/
theorem isLeft_of_visit (h : visit c heard t s index = .ok s') :
    IsLeft s.arena s.removed (s.fusionAt t index).toList s'.arena s'.removed := by
  rcases visit_eq_ok h with ⟨hnone, harena, hremoved⟩ | ⟨f, hsome, harena, hremoved⟩
  · rw [hnone]
    exact ⟨harena, hremoved⟩
  · rw [hsome]
    exact ⟨harena, hremoved⟩

/-- A turn of a template leaves what its fusions leave. -/
theorem isLeft_of_runTemplate (h : runTemplate c heard g s t = .ok s') :
    IsLeft s.arena s.removed (fusionsBy c heard g t s) s'.arena s'.removed :=
  runTemplate_induction (motive := IsLeft s.arena s.removed) (fun _ _ _ f h _ _ => h.step f)
    (List.mem_singleton_self t) [] ⟨rfl, rfl⟩ h

theorem isHistory_fusionAt (ht : t ∈ templates) (henabled : c.disables t.name = .ok false)
    (hcandidates : g.candidates t.trigger = .ok candidates) (hindex : index ∈ candidates) :
    IsHistory c g templates s.arena s.removed (s.fusionAt t index).toList := by
  cases hf : s.fusionAt t index with
  | none => exact .nil
  | some f =>
    obtain ⟨hbefore, hvalid⟩ := isValid_of_fusionAt ht henabled hcandidates hindex hf
    exact .cons hbefore hvalid .nil

theorem isHistory_fusionsOver (ht : t ∈ templates) (henabled : c.disables t.name = .ok false)
    (hcandidates : g.candidates t.trigger = .ok candidates)
    (hindices : ∀ i ∈ indices, i ∈ candidates) :
    IsHistory c g templates s.arena s.removed (fusionsOver c heard t indices s) := by
  induction indices generalizing s with
  | nil => exact .nil
  | cons index indices ih =>
    have hfirst : IsHistory c g templates s.arena s.removed (s.fusionAt t index).toList :=
      isHistory_fusionAt ht henabled hcandidates (hindices index (by simp))
    refine hfirst.append ?_
    split
    next s' hvisit =>
      obtain ⟨harena, hremoved⟩ := isLeft_of_visit hvisit
      rw [← harena, ← hremoved]
      exact ih fun i hi => hindices i (by simp [hi])
    next => exact .nil

theorem isHistory_fusionsBy (ht : t ∈ templates) :
    IsHistory c g templates s.arena s.removed (fusionsBy c heard g t s) := by
  unfold fusionsBy
  split
  next henabled hcandidates => exact isHistory_fusionsOver ht henabled hcandidates fun _ hi => hi
  next => exact .nil

theorem isHistory_fusionsOf {todo : List Template} (h : ∀ t ∈ todo, t ∈ templates) :
    IsHistory c g templates s.arena s.removed (fusionsOf c heard g todo s) := by
  induction todo generalizing s with
  | nil => exact .nil
  | cons t todo ih =>
    refine (isHistory_fusionsBy (h t (by simp))).append ?_
    split
    next s' hturn =>
      obtain ⟨harena, hremoved⟩ := isLeft_of_runTemplate hturn
      rw [← harena, ← hremoved]
      exact ih fun t' ht' => h t' (by simp [ht'])
    next => exact .nil

/-! ## Visits -/

/-- A visit that comes to an end has fused what matches. -/
theorem exists_fusionAt_of_visit (h : visit c heard t s index = .ok s') (hlive : index ∉ s.removed)
    (hmatch : t.matchesAt s.arena index = .ok true) : ∃ f, s.fusionAt t index = some f := by
  obtain ⟨v, hv, hisMatch⟩ := matchesAt_eq_ok.mp hmatch
  unfold visit at h
  rw [if_neg (by simpa using hlive)] at h
  simp only [hv, bind_eq_ok, before_eq_ok] at h
  obtain ⟨v', hv', events, -, h⟩ := h
  cases hv'
  rw [if_pos hisMatch] at h
  simp only [fuse, bind_eq_ok, mapError_eq_ok] at h
  obtain ⟨made, hmade, -⟩ := h
  have hmade' : t.fuse s.arena index = .ok made := hmade
  exact ⟨_, by rw [fusionAt, if_neg (by simpa using hlive), hmatch, hmade']⟩

/-- At some moment of a run over several nodes each of them is visited. -/
theorem exists_visit_of_mem (h : indices.foldlM (visit c heard t) s = .ok s')
    (hindex : index ∈ indices) : ∃ done rest s₁ s₂,
      fusionsOver c heard t indices s = done ++ (s₁.fusionAt t index).toList ++ rest ∧
      IsLeft s.arena s.removed done s₁.arena s₁.removed ∧ visit c heard t s₁ index = .ok s₂ := by
  induction indices generalizing s with
  | nil => simp at hindex
  | cons i indices ih =>
    rw [List.foldlM_cons, bind_eq_ok] at h
    obtain ⟨s₁, hvisit, h⟩ := h
    rw [fusionsOver, hvisit]
    rcases List.mem_cons.mp hindex with rfl | hindex
    · exact ⟨[], _, s, s₁, rfl, ⟨rfl, rfl⟩, hvisit⟩
    · obtain ⟨done, rest, s₂, s₃, hfusions, hleft, hvisit'⟩ := ih h hindex
      refine ⟨_ ++ done, rest, s₂, s₃, ?_, (isLeft_of_visit hvisit).trans hleft, hvisit'⟩
      show _ ++ fusionsOver c heard t indices s₁ = _
      rw [hfusions, List.append_assoc, List.append_assoc, List.append_assoc]

/-- At some moment of a run each candidate of each template that is switched on is visited. -/
theorem exists_visit {todo : List Template} (h : s.runTemplates c heard g todo = .ok s')
    (ht : t ∈ todo) (henabled : c.disables t.name = .ok false)
    (hcandidates : g.candidates t.trigger = .ok candidates) (hindex : index ∈ candidates) :
    ∃ done rest s₁ s₂,
      fusionsOf c heard g todo s = done ++ (s₁.fusionAt t index).toList ++ rest ∧
      IsLeft s.arena s.removed done s₁.arena s₁.removed ∧ visit c heard t s₁ index = .ok s₂ := by
  induction todo generalizing s with
  | nil => simp at ht
  | cons t' todo ih =>
    rw [runTemplates, List.foldlM_cons, bind_eq_ok] at h
    obtain ⟨s₁, hturn, h⟩ := h
    rw [fusionsOf, hturn]
    rcases List.mem_cons.mp ht with rfl | ht
    · have hover : fusionsBy c heard g t s = fusionsOver c heard t candidates s := by
        rw [fusionsBy, henabled, hcandidates]
      rcases runTemplate_eq_ok hturn with ⟨hdisabled, -⟩ | ⟨-, indices, hindices, hturn⟩
      · rw [henabled] at hdisabled
        cases hdisabled
      rw [hcandidates] at hindices
      cases hindices
      obtain ⟨done, rest, s₂, s₃, hfusions, hleft, hvisit⟩ := exists_visit_of_mem hturn hindex
      refine ⟨done, rest ++ fusionsOf c heard g todo s₁, s₂, s₃, ?_, hleft, hvisit⟩
      rw [hover, hfusions, List.append_assoc]
    · obtain ⟨done, rest, s₂, s₃, hfusions, hleft, hvisit⟩ := ih h ht
      refine ⟨_ ++ done, rest, s₂, s₃, ?_, (isLeft_of_runTemplate hturn).trans hleft, hvisit⟩
      show _ ++ fusionsOf c heard g todo s₁ = _
      rw [hfusions, List.append_assoc, List.append_assoc, List.append_assoc]

end Pass

namespace Optimizer

variable {o : Optimizer} {g : Graph}

/-- The fusions of a pass are made by the rules, also where it is stopped on the way. -/
theorem isHistory (o : Optimizer) (g : Graph) :
    IsHistory o.config g o.catalog.templates g.arena [] (o.fusionsIn g) := by
  unfold fusionsIn
  split
  · exact Pass.isHistory_fusionsOf (s := o.firstPass g) fun _ ht => ht
  · exact .nil

/-- A pass that comes to an end leaves what its fusions leave. -/
theorem isLeft_of_fusePass {s : Pass} (h : o.fusePass g = .ok s) :
    IsLeft g.arena [] (o.fusionsIn g) s.arena s.removed :=
  fusePass_induction (motive := IsLeft g.arena []) (fun _ _ _ f h _ _ => h.step f) ⟨rfl, rfl⟩ h

/-- At some moment of a pass that comes to an end, each candidate of each template that is switched
on is fused if it is live and matches. -/
theorem exists_moment {s : Pass} (h : o.fusePass g = .ok s) (hfuses : o.config.fuses = true)
    {t : Template} (ht : t ∈ o.catalog.templates) (henabled : o.config.disables t.name = .ok false)
    {candidates : List Nat} (hcandidates : g.candidates t.trigger = .ok candidates) {index : Nat}
    (hindex : index ∈ candidates) : ∃ done rest, o.fusionsIn g = done ++ rest ∧
      (index ∉ removedAfter [] done → t.matchesAt (arenaAfter g.arena done) index = .ok true →
        ∃ f ∈ rest, f.root = index) := by
  unfold fusePass at h
  rw [if_pos hfuses] at h
  obtain ⟨done, rest, s₁, s₂, hfusions, hleft, hvisit⟩ :=
    Pass.exists_visit h ht henabled hcandidates hindex
  refine ⟨done, (s₁.fusionAt t index).toList ++ rest, ?_, fun hlive hmatch => ?_⟩
  · rw [fusionsIn, if_pos hfuses, ← List.append_assoc]
    exact hfusions
  · obtain ⟨harena, hremoved⟩ := hleft
    obtain ⟨f, hf⟩ :=
      Pass.exists_fusionAt_of_visit hvisit (hremoved ▸ hlive) (harena ▸ hmatch)
    obtain ⟨-, -, hroot, -⟩ := Pass.fusionAt_eq_some hf
    exact ⟨f, by simp [hf], hroot⟩

/-- The operators of a graph that nothing was fused in are those that it belongs to. -/
theorem programOf_arena {r : Registry} {block : Block} {g : Graph}
    (h : g.IsOf r block.ops) : programOf block g.arena [] = { blocks := [block] } := by
  have hops : (survivorsOf [] g.arena.size).filterMap g.arena.op? = block.ops := by
    refine List.ext_getElem? fun x => ?_
    rw [Arena.getElem?_survivors, ← h.op?]
    rcases Nat.lt_or_ge x g.arena.size with hx | hx
    · simp [survivorsOf, hx]
    · simp [survivorsOf, Nat.not_lt.mpr hx, Arena.op?_eq_none hx]
  rw [programOf, hops]

/-- A pass in which nothing is fused gives the program back. -/
theorem program_eq_of_fusions_eq_nil {o : Optimizer} {p : Program} {out : Outcome}
    (h : (o.optimize p).result = .ok out) (hnone : o.fusions p = []) : out.program = p := by
  obtain ⟨block, g, s, hblock, hg, hs, rfl⟩ := optimize_eq_ok h
  rw [fusions_eq hblock hg] at hnone
  obtain ⟨harena, hremoved⟩ := o.isLeft_of_fusePass hs
  rw [hnone] at harena hremoved
  show programOf block s.arena s.removed = p
  rw [harena, hremoved]
  show programOf block g.arena [] = p
  rw [programOf_arena (Graph.isOf_of_build hg).1, ← hblock]

end Optimizer

end TensorFusion
