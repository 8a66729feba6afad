import TensorFusion.Proofs.Pass.OneShot
import TensorFusion.Proofs.Pass.Survivors

/-!
# Proofs — Pass — Optimize

An optimization that comes to a result has built the graph of its block, run the templates over it
and kept the operators that were not absorbed.
-/

namespace TensorFusion

namespace Optimizer

/-- The state that a run of the templates begins with. -/
def firstPass (o : Optimizer) (g : Graph) : Pass where
  arena := g.arena
  fused := o.stats.fused
  events := [.built g.arena.size g.groups.size]

/-- The fusions over a graph, in order. -/
def fusionsIn (o : Optimizer) (g : Graph) : List Fusion :=
  if o.config.fuses then
    Pass.fusionsOf o.config o.heard g o.catalog.templates (o.firstPass g)
  else []

/-- The fusions that an optimizer makes in a program, in order. -/
def fusions (o : Optimizer) (p : Program) : List Fusion :=
  match p.blocks with
  | [block] => match Graph.build o.registry block.ops with
    | .ok g => o.fusionsIn g
    | .error _ => []
  | _ => []

theorem fusions_eq {o : Optimizer} {p : Program} {block : Block} {g : Graph}
    (hblock : p.blocks = [block]) (hg : Graph.build o.registry block.ops = .ok g) :
    o.fusions p = o.fusionsIn g := by
  simp only [fusions, hblock, hg]

/-- The program that is left of a block. -/
def programOf (block : Block) (a : Arena) (removed : List Nat) : Program where
  blocks := [{ vars := block.vars, ops := (survivorsOf removed a.size).filterMap a.op? }]

/-- An optimization with a result is of one block, whose graph it builds. -/
theorem optimize_eq_ok {o : Optimizer} {p : Program} {out : Outcome}
    (h : (o.optimize p).result = .ok out) :
    ∃ block g s, p.blocks = [block] ∧ Graph.build o.registry block.ops = .ok g ∧
      o.fusePass g = .ok s ∧ out = { program := programOf block s.arena s.removed } := by
  unfold optimize at h
  split at h
  next block hblock =>
    split at h
    next g hg =>
      unfold runOn at h
      split at h
      · cases h
      next s hs =>
        cases h
        exact ⟨block, g, s, hblock, hg, hs, by rw [programOf, ← Pass.survivors_eq]⟩
    · cases h
  · cases h

/-- An optimization of a block goes on with its graph. -/
theorem optimize_of_build {o : Optimizer} {p : Program} {block : Block} {g : Graph}
    (hblock : p.blocks = [block]) (hg : Graph.build o.registry block.ops = .ok g) :
    o.optimize p = o.runOn block g := by
  simp only [optimize, hblock, hg]

theorem optimize_of_fusePass {o : Optimizer} {p : Program} {block : Block} {g : Graph} {s : Pass}
    (hblock : p.blocks = [block]) (hg : Graph.build o.registry block.ops = .ok g)
    (hs : o.fusePass g = .ok s) :
    (o.optimize p).result = .ok { program := programOf block s.arena s.removed } := by
  rw [optimize_of_build hblock hg]
  simp only [runOn, hs, programOf, ← Pass.survivors_eq]

/-- A pass that comes to an end has run the templates, or left the graph as it was. -/
theorem fusePass_eq_ok {o : Optimizer} {g : Graph} {s : Pass} (h : o.fusePass g = .ok s) :
    (o.config.fuses = true ∧
      (o.firstPass g).runTemplates o.config o.heard g o.catalog.templates = .ok s) ∨
    o.config.fuses = false ∧ s.arena = g.arena ∧ s.removed = [] := by
  unfold fusePass at h
  split at h
  next hfuses => exact .inl ⟨hfuses, h⟩
  next hoff =>
    cases h
    exact .inr ⟨by simpa using hoff, Pass.note_arena _ _ _, Pass.note_removed _ _ _⟩

/-- What every fusion by the rules keeps holds when all of them are made. -/
theorem fusePass_induction {o : Optimizer} {g : Graph} {s : Pass}
    {motive : List Fusion → Arena → List Nat → Prop}
    (step : ∀ fs a removed f, motive fs a removed → f.before = a →
      f.IsValid o.config g o.catalog.templates removed →
      motive (fs ++ [f]) f.made.arena (Pass.absorbedWith removed f))
    (start : motive [] g.arena []) (h : o.fusePass g = .ok s) :
    motive (o.fusionsIn g) s.arena s.removed := by
  unfold fusionsIn
  rcases fusePass_eq_ok h with ⟨hfuses, h⟩ | ⟨hoff, harena, hremoved⟩
  · rw [if_pos hfuses]
    exact Pass.runTemplates_induction step start h
  · rw [hoff, harena, hremoved]
    exact start

end Optimizer

end TensorFusion
