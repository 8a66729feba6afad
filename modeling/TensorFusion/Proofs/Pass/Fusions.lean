import TensorFusion.Optimizer
import TensorFusion.Proofs.Graph.Path

/-!
# Proofs — Pass — Fusions

The fusions that a pass makes, in order. What the fusions of a run keep, the run keeps: a node that
is visited without a fusion changes neither the arena nor the set of absorbed nodes.
-/

namespace TensorFusion

/-- A fusion: the arena it was made in, the template, the node it was made at and what came of
it. -/
structure Fusion where
  before : Arena
  template : Template
  root : Nat
  made : Fused

namespace Fusion

/-- The nodes that were fused, from the root down. -/
def members (f : Fusion) : List Nat := f.root :: f.made.absorbed

/-- The last of the nodes that were fused, whose results the fused operator has. -/
def leaf (f : Fusion) : Nat := leafOf f.root f.made.absorbed

theorem root_cases (fs : List Fusion) (i : Nat) :
    (∀ f ∈ fs, i ≠ f.root) ∨ ∃ f ∈ fs, f.root = i := by
  by_cases h : ∃ f ∈ fs, f.root = i
  · exact .inr h
  · exact .inl fun f hf hi => h ⟨f, hf, hi.symm⟩

/-- A fusion is one that a pass makes by its rules: the template is switched on and matches at one
of its candidates, which is not yet absorbed. -/
structure IsValid (c : Config) (g : Graph) (templates : List Template) (removed : List Nat)
    (f : Fusion) : Prop where
  template_mem : f.template ∈ templates
  enabled : c.disables f.template.name = .ok false
  candidate : ∃ indices, g.candidates f.template.trigger = .ok indices ∧ f.root ∈ indices
  live : f.root ∉ removed
  matched : ∃ v, f.template.examine f.before f.root = .ok v ∧ v.isMatch = true
  fused : f.template.fuse f.before f.root = .ok f.made

end Fusion

namespace Pass

variable {c : Config} {heard : Bool} {g : Graph} {t : Template} {s s' : Pass} {index : Nat}

/-- The fusion that a visit makes, if it makes one. -/
def fusionAt (t : Template) (s : Pass) (index : Nat) : Option Fusion :=
  if s.removed.contains index then none
  else match t.matchesAt s.arena index with
    | .ok true => match t.fuse s.arena index with
        | .ok made => some { before := s.arena, template := t, root := index, made }
        | .error _ => none
    | _ => none

/-- The fusions that a template makes at some nodes that are visited in order. -/
def fusionsOver (c : Config) (heard : Bool) (t : Template) : List Nat → Pass → List Fusion
  | [], _ => []
  | index :: rest, s => (s.fusionAt t index).toList ++
      match visit c heard t s index with
      | .ok s => fusionsOver c heard t rest s
      | .error _ => []

/-- The fusions that a template makes. -/
def fusionsBy (c : Config) (heard : Bool) (g : Graph) (t : Template) (s : Pass) : List Fusion :=
  match c.disables t.name, g.candidates t.trigger with
  | .ok false, .ok indices => fusionsOver c heard t indices s
  | _, _ => []

/-- The fusions that templates make that are taken in order. -/
def fusionsOf (c : Config) (heard : Bool) (g : Graph) : List Template → Pass → List Fusion
  | [], _ => []
  | t :: rest, s => fusionsBy c heard g t s ++
      match runTemplate c heard g s t with
      | .ok s => fusionsOf c heard g rest s
      | .error _ => []

theorem matchesAt_eq_ok {a : Arena} {b : Bool} :
    t.matchesAt a index = .ok b ↔ ∃ v, t.examine a index = .ok v ∧ v.isMatch = b := by
  simp only [Template.matchesAt, bind_eq_ok, pure_eq_ok]

theorem fusionAt_eq_some {f : Fusion} (h : s.fusionAt t index = some f) :
    f.before = s.arena ∧ f.template = t ∧ f.root = index ∧ index ∉ s.removed ∧
      (∃ v, t.examine s.arena index = .ok v ∧ v.isMatch = true) ∧
      t.fuse s.arena index = .ok f.made := by
  unfold fusionAt at h
  split at h
  · cases h
  next hlive =>
    split at h
    next hmatch =>
      split at h
      next made hmade =>
        cases h
        exact ⟨rfl, rfl, rfl, by simpa using hlive, matchesAt_eq_ok.mp hmatch, hmade⟩
      · cases h
    · cases h

/-- A fusion at a candidate of a template that is switched on is by the rules. -/
theorem isValid_of_fusionAt {templates : List Template} {f : Fusion} (ht : t ∈ templates)
    (henabled : c.disables t.name = .ok false) {candidates : List Nat}
    (hcandidates : g.candidates t.trigger = .ok candidates) (hindex : index ∈ candidates)
    (h : s.fusionAt t index = some f) :
    f.before = s.arena ∧ f.IsValid c g templates s.removed := by
  obtain ⟨hbefore, rfl, rfl, hlive, hmatch, hfuse⟩ := fusionAt_eq_some h
  rw [← hbefore] at hmatch hfuse
  exact ⟨hbefore, ht, henabled, ⟨candidates, hcandidates, hindex⟩, hlive, hmatch, hfuse⟩

/-- All that a visit does which comes to an end: it makes the fusion that there is to make and
counts it, or makes none, and reports. -/
theorem visit_cases (h : visit c heard t s index = .ok s') :
    (s.fusionAt t index = none ∧ ∃ events, s' = s.report events) ∨
    ∃ f fused events, s.fusionAt t index = some f ∧ count s.fused t.name = .ok fused ∧
      s' = { (s.enter f.made).report events with fused } := by
  unfold visit at h
  split at h
  next hgone =>
    cases h
    exact .inl ⟨by rw [fusionAt, if_pos hgone], [], by simp [report]⟩
  next hlive =>
    simp only [bind_eq_ok, before_eq_ok] at h
    obtain ⟨v, hv, events, -, h⟩ := h
    split at h
    next hmatch =>
      refine .inr ?_
      simp only [fuse, bind_eq_ok, mapError_eq_ok, before_eq_ok, pure_eq_ok] at h
      obtain ⟨made, hmade, counted, hcounted, rfl⟩ := h
      have hmatches : t.matchesAt s.arena index = .ok true := matchesAt_eq_ok.mpr ⟨v, hv, hmatch⟩
      have hmade' : t.fuse s.arena index = .ok made := hmade
      refine ⟨⟨s.arena, t, index, made⟩, counted, events ++ made.report c.debugs index t, ?_,
        hcounted, by simp [report, enter]⟩
      rw [fusionAt, if_neg hlive, hmatches, hmade']
    next hno =>
      rw [pure_eq_ok] at h
      subst h
      have hmatches : t.matchesAt s.arena index = .ok false :=
        matchesAt_eq_ok.mpr ⟨v, hv, by simpa using hno⟩
      refine .inl ⟨?_, events, rfl⟩
      rw [fusionAt, if_neg hlive, hmatches]

/-- A visit that comes to an end has made the fusion that there is to make, or none. -/
theorem visit_eq_ok (h : visit c heard t s index = .ok s') :
    (s.fusionAt t index = none ∧ s'.arena = s.arena ∧ s'.removed = s.removed) ∨
    ∃ f, s.fusionAt t index = some f ∧ s'.arena = f.made.arena ∧
      s'.removed = s.removed ++ f.made.absorbed.filter fun i => !s.removed.contains i := by
  rcases visit_cases h with ⟨hnone, events, rfl⟩ | ⟨f, fused, events, hsome, -, rfl⟩
  · exact .inl ⟨hnone, rfl, rfl⟩
  · exact .inr ⟨f, hsome, rfl, rfl⟩

@[simp] theorem note_arena (s : Pass) (wanted : Bool) (event : Event) :
    (s.note wanted event).arena = s.arena := by
  cases wanted <;> rfl

@[simp] theorem note_removed (s : Pass) (wanted : Bool) (event : Event) :
    (s.note wanted event).removed = s.removed := by
  cases wanted <;> rfl

/-- A turn of a template that comes to an end has reported that the template is switched off, or
visited its candidates. -/
theorem runTemplate_eq_ok (h : runTemplate c heard g s t = .ok s') :
    (c.disables t.name = .ok true ∧ s' = s.note c.debugs (.skipped t.name)) ∨
    c.disables t.name = .ok false ∧ ∃ candidates, g.candidates t.trigger = .ok candidates ∧
      candidates.foldlM (visit c heard t) s = .ok s' := by
  simp only [runTemplate, bind_eq_ok, before_eq_ok] at h
  obtain ⟨disabled, hdisabled, h⟩ := h
  cases disabled with
  | true =>
    rw [if_pos rfl, pure_eq_ok] at h
    exact .inl ⟨hdisabled, h.symm⟩
  | false =>
    rw [if_neg (by simp)] at h
    simp only [bind_eq_ok, before_eq_ok] at h
    exact .inr ⟨hdisabled, h⟩

/-! ## Runs -/

section Induction

variable {templates : List Template} {motive : List Fusion → Arena → List Nat → Prop}

/-- What is absorbed after a fusion. -/
def absorbedWith (removed : List Nat) (f : Fusion) : List Nat :=
  removed ++ f.made.absorbed.filter fun i => !removed.contains i

/-- A visit goes on with the fusion that it makes, if it makes one. -/
theorem visit_induction
    (step : ∀ fs a removed f, motive fs a removed → f.before = a →
      f.IsValid c g templates removed → motive (fs ++ [f]) f.made.arena (absorbedWith removed f))
    (ht : t ∈ templates) (henabled : c.disables t.name = .ok false) {candidates : List Nat}
    (hcandidates : g.candidates t.trigger = .ok candidates) (hindex : index ∈ candidates)
    (fs : List Fusion) (start : motive fs s.arena s.removed)
    (h : visit c heard t s index = .ok s') :
    motive (fs ++ (s.fusionAt t index).toList) s'.arena s'.removed := by
  rcases visit_eq_ok h with ⟨hnone, harena, hremoved⟩ | ⟨f, hsome, harena, hremoved⟩
  · rw [hnone, harena, hremoved]
    simpa using start
  · obtain ⟨hbefore, hvalid⟩ := isValid_of_fusionAt ht henabled hcandidates hindex hsome
    rw [hsome, Option.toList_some, harena, hremoved]
    exact step fs s.arena s.removed f start hbefore hvalid

theorem foldlM_visit_induction
    (step : ∀ fs a removed f, motive fs a removed → f.before = a →
      f.IsValid c g templates removed → motive (fs ++ [f]) f.made.arena (absorbedWith removed f))
    (ht : t ∈ templates) (henabled : c.disables t.name = .ok false) {candidates : List Nat}
    (hcandidates : g.candidates t.trigger = .ok candidates) {indices : List Nat}
    (hindices : ∀ i ∈ indices, i ∈ candidates) {fs : List Fusion}
    (start : motive fs s.arena s.removed) (h : indices.foldlM (visit c heard t) s = .ok s') :
    motive (fs ++ fusionsOver c heard t indices s) s'.arena s'.removed := by
  induction indices generalizing s fs with
  | nil =>
    rw [List.foldlM_nil, pure_eq_ok] at h
    subst h
    simpa [fusionsOver] using start
  | cons index indices ih =>
    rw [List.foldlM_cons, bind_eq_ok] at h
    obtain ⟨s₁, hvisit, h⟩ := h
    have hmotive :=
      visit_induction step ht henabled hcandidates (hindices index (by simp)) fs start hvisit
    rw [fusionsOver, hvisit, ← List.append_assoc]
    exact ih (fun i hi => hindices i (by simp [hi])) hmotive h

theorem runTemplate_induction
    (step : ∀ fs a removed f, motive fs a removed → f.before = a →
      f.IsValid c g templates removed → motive (fs ++ [f]) f.made.arena (absorbedWith removed f))
    (ht : t ∈ templates) (fs : List Fusion) (start : motive fs s.arena s.removed)
    (h : runTemplate c heard g s t = .ok s') :
    motive (fs ++ fusionsBy c heard g t s) s'.arena s'.removed := by
  rcases runTemplate_eq_ok h with ⟨hdisabled, rfl⟩ | ⟨hdisabled, candidates, hcandidates, h⟩
  · simpa [fusionsBy, hdisabled] using start
  · have hvisits := foldlM_visit_induction step ht hdisabled hcandidates (fun i hi => hi) start h
    simpa [fusionsBy, hdisabled, hcandidates] using hvisits

/-- What every fusion by the rules keeps holds at the end of a run. -/
theorem runTemplates_induction
    (step : ∀ fs a removed f, motive fs a removed → f.before = a →
      f.IsValid c g templates removed → motive (fs ++ [f]) f.made.arena (absorbedWith removed f))
    (start : motive [] s.arena s.removed) (h : s.runTemplates c heard g templates = .ok s') :
    motive (fusionsOf c heard g templates s) s'.arena s'.removed := by
  -- The rules speak of all templates, so the induction is on those that are still to be taken.
  suffices ∀ (rest : List Template) (fs : List Fusion) (s : Pass), (∀ t ∈ rest, t ∈ templates) →
      motive fs s.arena s.removed → s.runTemplates c heard g rest = .ok s' →
      motive (fs ++ fusionsOf c heard g rest s) s'.arena s'.removed by
    simpa using this templates [] s (fun _ ht => ht) start h
  intro rest
  induction rest with
  | nil =>
    intro fs s _ start h
    rw [runTemplates, List.foldlM_nil, pure_eq_ok] at h
    subst h
    simpa [fusionsOf] using start
  | cons t rest ih =>
    intro fs s hrest start h
    rw [runTemplates, List.foldlM_cons, bind_eq_ok] at h
    obtain ⟨s₁, hturn, h⟩ := h
    have hmotive := runTemplate_induction step (hrest t (by simp)) fs start hturn
    rw [fusionsOf, hturn, ← List.append_assoc]
    exact ih _ s₁ (fun t' ht' => hrest t' (by simp [ht'])) hmotive h

end Induction

end Pass

end TensorFusion
