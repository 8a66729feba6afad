import TensorFusion.Proofs.Graph.Apart
import TensorFusion.Proofs.Pass.Total

/-!
# Proofs — Pass — Composed

A pass over a graph of two parts that no edge connects, beside the passes over the parts. A visit of
the one is a visit of one of the others and leaves the third where it is, so the three go together
all the way: the state of the pass is at any time composed of those of the others.
-/

namespace TensorFusion

/-- How often a name was counted. -/
def Table.countOf (t : Table Nat) (a : Atom) : Nat := (t.get? a).getD 0

/-- A further count is one of its own name. -/
theorem Table.countOf_insert (t : Table Nat) (name a : Atom) :
    (t.insert name ((t.get? name).getD 0 + 1)).countOf a
      = t.countOf a + if name.same a then 1 else 0 := by
  rw [countOf, get?_insert]
  split
  next hsame => rw [Option.getD_some, countOf, get?_congr t hsame]
  next => rfl

theorem Table.contains_insert {α : Type} (t : Table α) (name a : Atom) (v : α) :
    (t.insert name v).contains a = (name.same a || t.contains a) := by
  rw [contains, get?_insert, contains]
  cases name.same a <;> rfl

/-- Fusions as they are counted in two passes that begin with the same counts, and in one that makes
them all. -/
structure Table.IsSum (base t t₁ t₂ : Table Nat) : Prop where
  countOf : ∀ a, t.countOf a + base.countOf a = t₁.countOf a + t₂.countOf a
  contains : ∀ a, t.contains a = (t₁.contains a || t₂.contains a)

namespace Table.IsSum

variable {base t t₁ t₂ : Table Nat}

theorem refl (base : Table Nat) : base.IsSum base base base where
  countOf := fun _ => rfl
  contains := fun _ => (Bool.or_self _).symm

theorem swap (h : base.IsSum t t₁ t₂) : base.IsSum t t₂ t₁ where
  countOf := fun a => by rw [h.countOf, Nat.add_comm]
  contains := fun a => by rw [h.contains, Bool.or_comm]

theorem insert (h : base.IsSum t t₁ t₂) (name : Atom) :
    base.IsSum (t.insert name ((t.get? name).getD 0 + 1))
      (t₁.insert name ((t₁.get? name).getD 0 + 1)) t₂ where
  countOf := fun a => by
    have hsum := h.countOf a
    rw [countOf_insert, countOf_insert]
    omega
  contains := fun a => by rw [contains_insert, contains_insert, h.contains, Bool.or_assoc]

end Table.IsSum

/-- The state of a pass over one side: its arena is the part, and what it has absorbed is what is
absorbed there. -/
structure Pass.IsPart (side : Nat → Bool) (s s' : Pass) : Prop where
  arena : s.arena.IsPart side s'.arena
  removed : s'.removed = (s.removed.filter side).map (placeOf side)

/-- The state of a pass is composed of those of two others, each over one side. -/
structure Pass.IsComposed (side : Nat → Bool) (g : Graph) (base : Table Nat) (s s₁ s₂ : Pass) :
    Prop where
  sound : s.IsSound g
  splits : s.arena.Splits side
  left : s.IsPart side s₁
  right : s.IsPart (fun i => !side i) s₂
  fused : base.IsSum s.fused s₁.fused s₂.fused

/-- The reports on a verdict can be made or not, wherever the node stands. -/
theorem Verdict.report_joint {σ : Type} (v : Verdict) (wanted heard : Bool) (i j : Nat)
    (t : Template) (c : σ) : Joint (fun _ _ d => d = c) (v.report wanted heard i t)
      (v.report wanted heard j t) (.ok c) := by
  cases v with
  | otherType => exact .ok rfl
  | compared shadow agrees =>
    cases wanted with
    | false => exact .ok rfl
    | true =>
      cases heard with
      | false => exact .ok rfl
      | true =>
        simp only [report]
        cases shadow.describe? with
        | ok text => exact .ok rfl
        | error e => exact .left

namespace Pass

variable {side : Nat → Bool} {c : Config} {heard : Bool} {g : Graph} {base : Table Nat}
  {t : Template} {s s₁ s₂ : Pass} {index : Nat}

namespace IsPart

/-- A node of the part is absorbed in the part if it is absorbed. -/
theorem mem_removed (h : s.IsPart side s₁) (hi : side index = true) :
    placeOf side index ∈ s₁.removed ↔ index ∈ s.removed := by
  rw [h.removed, mem_map_placeOf hi fun k hk => (List.mem_filter.mp hk).2, List.mem_filter]
  exact and_iff_left hi

theorem contains_removed (h : s.IsPart side s₁) (hi : side index = true) :
    s₁.removed.contains (placeOf side index) = s.removed.contains index := by
  rw [Bool.eq_iff_iff, List.contains_iff_mem, List.contains_iff_mem]
  exact h.mem_removed hi

variable {f f₁ : Fused} (h : s.IsPart side s₁) (hs : s.arena.Splits side)
  (hf : Collapsed t s.arena index f)
include h hs hf

/-- A fusion on the side is a fusion in the part. -/
theorem enter (hi : side index = true) (hlt : index < s.arena.size)
    (hf₁ : Collapsed t s₁.arena (placeOf side index) f₁) :
    (s.enter f).IsPart side (s₁.enter f₁) where
  arena := h.arena.collapsed hs hi hf hf₁ hlt
  removed := by
    have hside : ∀ m ∈ f.absorbed, side m = true := fun m hm =>
      (hs.side_of_mem_visits m (hf.mem_absorbed.mp hm)).trans hi
    have hnew : ∀ m ∈ f.absorbed.filter (fun m => !s.removed.contains m), side m = true :=
      fun m hm => hside m (List.mem_filter.mp hm).1
    have hplace : f₁.absorbed.filter (fun m => !s₁.removed.contains m)
        = (f.absorbed.filter fun m => !s.removed.contains m).map (placeOf side) := by
      rw [h.arena.absorbed_eq hs hi hf hf₁, List.filter_map]
      refine congrArg _ (List.filter_congr fun m hm => ?_)
      rw [Function.comp_apply, h.contains_removed (hside m hm)]
    simp only [Pass.enter]
    rw [hplace, h.removed, List.filter_append, List.filter_eq_self.mpr hnew, List.map_append]

/-- A fusion on the other side leaves the part where it is. -/
theorem other (hi : side index = false) : (s.enter f).IsPart side s₁ where
  arena := h.arena.other hs hi hf
  removed := by
    have hnew : ∀ m ∈ f.absorbed.filter (fun m => !s.removed.contains m), ¬ side m = true := by
      intro m hm
      rw [hs.side_of_mem_visits m (hf.mem_absorbed.mp (List.mem_filter.mp hm).1), hi]
      exact Bool.false_ne_true
    simp only [Pass.enter]
    rw [h.removed, List.filter_append, List.filter_eq_nil_iff.mpr hnew, List.append_nil]

end IsPart

namespace IsComposed

theorem swap (h : IsComposed side g base s s₁ s₂) :
    IsComposed (fun i => !side i) g base s s₂ s₁ where
  sound := h.sound
  splits := h.splits.not
  left := h.right
  right := by simpa using h.left
  fused := h.fused.swap

/-- A pass that is begun over a graph is composed of those that are begun over the parts. -/
theorem start {g₁ g₂ : Graph} (hg : g.IsSound) (hsplits : g.arena.Splits side)
    (h₁ : g.arena.IsPart side g₁.arena) (h₂ : g.arena.IsPart (fun i => !side i) g₂.arena)
    (fused : Table Nat) (events events₁ events₂ : List Event) :
    IsComposed side g fused { arena := g.arena, fused, events }
      { arena := g₁.arena, fused, events := events₁ }
      { arena := g₂.arena, fused, events := events₂ } where
  sound := ⟨hg.arena, rfl⟩
  splits := hsplits
  left := ⟨h₁, rfl⟩
  right := ⟨h₂, rfl⟩
  fused := .refl fused

variable (h : IsComposed side g base s s₁ s₂)
include h

/-- Whatever is reported, the states are composed as before. -/
theorem withEvents (events events₁ events₂ : List Event) :
    IsComposed side g base { s with events } { s₁ with events := events₁ }
      { s₂ with events := events₂ } :=
  ⟨⟨h.sound.arena, h.sound.size⟩, h.splits, ⟨h.left.arena, h.left.removed⟩,
    ⟨h.right.arena, h.right.removed⟩, h.fused⟩

theorem note (wanted : Bool) (event : Event) :
    IsComposed side g base (s.note wanted event) (s₁.note wanted event) (s₂.note wanted event) := by
  cases wanted with
  | true => exact h.withEvents _ _ _
  | false => exact h

/-- What is fused on the one side is fused in its part, and the other part stays where it is. -/
theorem fuse (ht : t.fusedType.isString = true) (hi : side index = true)
    (hlt : index < s.arena.size) :
    Joint (IsComposed side g base) (s.fuse c t index) (s₁.fuse c t (placeOf side index))
      (.ok s₂) := by
  have hlt₁ : placeOf side index < s₁.arena.size := by
    rw [h.left.arena.size]
    exact placeOf_lt hi hlt
  obtain ⟨f, hmade, hf⟩ := t.exists_fuse h.sound.arena hlt
  obtain ⟨f₁, hmade₁, hf₁⟩ := t.exists_fuse (h.left.arena.isSound h.splits h.sound.arena) hlt₁
  simp only [Pass.fuse, hmade, hmade₁, ok_mapError, ok_bind]
  cases hname : t.name with
  | list items => exact .left
  | map entries => exact .left
  | atom name =>
    refine .ok ?_
    have hleft := h.left.enter h.splits hf hi hlt hf₁
    have hright := h.right.other h.splits.not hf (by simp [hi])
    exact ⟨⟨hf.isSound h.sound.arena ht, hf.size.trans h.sound.size⟩, hf.splits h.splits,
      ⟨hleft.arena, hleft.removed⟩, ⟨hright.arena, hright.removed⟩, h.fused.insert name⟩

/-- A visit on the one side is a visit in its part. -/
theorem visit (ht : t.fusedType.isString = true) (hi : side index = true)
    (hlt : index < s.arena.size) :
    Joint (IsComposed side g base) (Pass.visit c heard t s index)
      (Pass.visit c heard t s₁ (placeOf side index)) (.ok s₂) := by
  unfold Pass.visit
  rw [h.left.contains_removed hi]
  split
  next => exact .ok h
  next =>
    obtain ⟨v, hv, -⟩ := t.exists_examine h.sound.arena hlt
    have hv₁ : t.examine s₁.arena (placeOf side index) = .ok v :=
      (h.left.arena.examine_eq h.splits t hi).trans hv
    rw [hv, hv₁, before_ok, before_ok, ok_bind, ok_bind]
    have hreport :=
      (v.report_joint c.debugs heard index (placeOf side index) t s₂).before s s₁ s₂
    refine hreport.bind fun events events₁ s₂' heq => ?_
    have hs : IsComposed side g base (s.report events) (s₁.report events₁) s₂' :=
      heq ▸ h.withEvents _ _ s₂.events
    split
    next => exact hs.fuse ht hi hlt
    next => exact .ok hs

end IsComposed

/-! ## Runs -/

variable {r : Registry} {ops : List Op} {g₁ g₂ : Graph}

/-- A turn of a template over the whole goes together with its turns over the parts. -/
theorem IsComposed.runTemplate (h : IsComposed side g base s s₁ s₂)
    (ht : t.fusedType.isString = true) (hg : g.IsOf r ops) (hsound : g.IsSound)
    (hg₁ : g₁.IsOf r (opsOn side ops)) (hg₂ : g₂.IsOf r (opsOn (fun i => !side i) ops)) :
    Joint (IsComposed side g base) (Pass.runTemplate c heard g s t)
      (Pass.runTemplate c heard g₁ s₁ t) (Pass.runTemplate c heard g₂ s₂ t) := by
  unfold Pass.runTemplate
  refine ((Joint.same (c.disables t.name)).before s s₁ s₂).bind ?_
  rintro disabled _ _ ⟨rfl, rfl⟩
  split
  next => exact .ok (h.note _ _)
  next =>
    cases hcandidates : g.candidates t.trigger with
    | error e =>
      -- A type that is no key can be asked for in none of the graphs.
      cases htrigger : t.trigger with
      | atom a =>
        rw [htrigger] at hcandidates
        cases hcandidates
      | list items => exact .left
      | map entries => exact .left
    | ok candidates =>
      rw [hg.candidates_opsOn hg₁ hcandidates, hg.candidates_opsOn hg₂ hcandidates, before_ok,
        before_ok, before_ok, ok_bind, ok_bind, ok_bind]
      have hlt : ∀ i ∈ candidates, ∀ s : Pass, s.IsSound g → i < s.arena.size :=
        fun i hi s hs => hs.size ▸ hsound.candidates _ _ hcandidates i hi
      refine Joint.foldlM_filter h (fun i hi hside s s₁ s₂ h => ?_) fun i hi hside s s₁ s₂ h => ?_
      · exact h.visit ht hside (hlt i hi s h.sound)
      · exact ((h.swap.visit ht (by simp [hside]) (hlt i hi s h.sound)).swap).mono
          fun s s₁ s₂ h => by simpa using h.swap

/-- A run of templates over the whole goes together with their runs over the parts. -/
theorem IsComposed.runTemplates {templates : List Template} (h : IsComposed side g base s s₁ s₂)
    (hfused : ∀ t ∈ templates, t.fusedType.isString = true) (hg : g.IsOf r ops)
    (hsound : g.IsSound) (hg₁ : g₁.IsOf r (opsOn side ops))
    (hg₂ : g₂.IsOf r (opsOn (fun i => !side i) ops)) :
    Joint (IsComposed side g base) (s.runTemplates c heard g templates)
      (s₁.runTemplates c heard g₁ templates) (s₂.runTemplates c heard g₂ templates) :=
  Joint.foldlM h fun t ht _ _ _ h => h.runTemplate (hfused t ht) hg hsound hg₁ hg₂

end Pass

/-- A pass over a graph of two parts goes together with the passes over the parts. -/
theorem Optimizer.fusePass_joint {o : Optimizer} {r : Registry} {side : Nat → Bool} {ops : List Op}
    {g g₁ g₂ : Graph} (hfused : ∀ t ∈ o.catalog.templates, t.fusedType.isString = true)
    (hapart : IsApart r side ops) (hg : g.IsOf r ops) (hsound : g.IsSound)
    (hg₁ : g₁.IsOf r (opsOn side ops)) (hg₂ : g₂.IsOf r (opsOn (fun i => !side i) ops)) :
    Joint (Pass.IsComposed side g o.stats.fused) (o.fusePass g) (o.fusePass g₁)
      (o.fusePass g₂) := by
  have hstart : Pass.IsComposed side g o.stats.fused (o.firstPass g) (o.firstPass g₁)
      (o.firstPass g₂) :=
    .start hsound (hapart.splits hg) (hapart.isPart hg hg₁) (hapart.not.isPart hg hg₂) _ _ _ _
  unfold fusePass
  split
  next => exact hstart.runTemplates hfused hg hsound hg₁ hg₂
  next => exact .ok (hstart.note _ _)

end TensorFusion
