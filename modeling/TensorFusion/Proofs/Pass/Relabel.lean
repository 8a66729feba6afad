import Mathlib.Logic.Equiv.Basic
import TensorFusion.Proofs.Graph.Relabel
import TensorFusion.Proofs.Pass.Disabled
import TensorFusion.Proofs.Sample
import TensorFusion.Proofs.Standard.Templates

/-!
# Proofs — Pass — Relabel

A program and the same program under other tensor names. The two runs go step by step alike: they
report the same, count the same and stop at the same places with the same errors, and what they
make is the same under the other names.
-/

namespace TensorFusion

/-! ## Texts under other names -/

namespace Value

variable {g : String → String} {v : Value}

theorem onTexts_of_ne (h : ∀ s, v ≠ .text s) : onTexts g v = v := by
  cases v with
  | list items => rfl
  | map entries => rfl
  | atom a =>
    cases a with
    | text s => exact absurd rfl (h s)
    | null => rfl
    | bool b => rfl
    | int n => rfl
    | real x => rfl
    | brokenText points => rfl

theorem same_text_of_ne (h : ∀ s, v ≠ .text s) (s : String) : v.same (.text s) = false := by
  rw [← Bool.not_eq_true]
  intro hsame
  exact h s (eq_text_of_same hsame)

theorem text_same_of_ne (h : ∀ s, v ≠ .text s) (s : String) : (text s).same v = false := by
  cases v with
  | atom a => rw [same_atom, Atom.same_comm, ← same_atom, same_text_of_ne h]
  | list items => simp [same]
  | map entries => simp [same]

/-- Texts that are mapped one to one stay apart, and apart from all that are no texts. -/
theorem isRelabeling_onTexts (hg : Function.Injective g) : IsRelabeling (onTexts g) where
  same := by
    intro v w
    by_cases hv : ∃ s, v = .text s
    · obtain ⟨s, rfl⟩ := hv
      by_cases hw : ∃ t, w = .text t
      · obtain ⟨t, rfl⟩ := hw
        show (text (g s)).same (.text (g t)) = _
        simp only [same_text, hg.eq_iff]
      · rw [not_exists] at hw
        show (text (g s)).same _ = _
        rw [onTexts_of_ne hw, text_same_of_ne hw, text_same_of_ne hw]
    · rw [not_exists] at hv
      rw [onTexts_of_ne hv]
      by_cases hw : ∃ t, w = .text t
      · obtain ⟨t, rfl⟩ := hw
        show v.same (.text (g t)) = _
        rw [same_text_of_ne hv, same_text_of_ne hv]
      · rw [not_exists] at hw
        rw [onTexts_of_ne hw]
  isKey := by
    intro v
    by_cases hv : ∃ s, v = .text s
    · obtain ⟨s, rfl⟩ := hv
      rfl
    · rw [not_exists] at hv
      rw [onTexts_of_ne hv]

end Value

/-! ## Passes under other names -/

/-- A pass over a graph under other names. -/
def Pass.relabel (f : Value → Value) (s : Pass) : Pass := { s with arena := s.arena.relabel f }

/-- A run whose program has other names; the counts and the reports stay. -/
def Run.relabel (f : Value → Value) (run : Run) : Run :=
  { run with result := run.result.map fun outcome =>
      { outcome with program := outcome.program.relabel f } }

section Relabel

variable {f : Value → Value}

namespace Pass

/-- What comes of a pass under other names. -/
abbrev Stops (f : Value → Value) : Interrupted Pass → Interrupted Pass → Prop :=
  Interrupted.Alike fun s s' => s' = s.relabel f

/-- Passes that go alike, the second under other names. -/
abbrev Follows (f : Value → Value) :
    Except (Interrupted Pass) Pass → Except (Interrupted Pass) Pass → Prop :=
  Alike (Stops f) fun s s' => s' = s.relabel f

variable (s : Pass) (c : Config) (heard : Bool) (g : Graph) (t : Template)

/-- A part that is run before a step, from the same data, goes as it does under the old names. -/
theorem before_relabel {α : Type} (x : Except Error α) :
    Alike (Stops f) Eq (Interrupted.before s x) (Interrupted.before (s.relabel f) x) :=
  (Alike.refl x).before rfl

theorem note_relabel (wanted : Bool) (event : Event) :
    (s.relabel f).note wanted event = (s.note wanted event).relabel f := by
  cases wanted <;> rfl

theorem fuse_relabel (hf : Value.IsRelabeling f) (index : Nat) :
    Follows f (s.fuse c t index) ((s.relabel f).fuse c t index) := by
  have hfuse : Alike (Stops f) (fun made made' => made' = made.relabel f)
      ((t.fuse s.arena index).mapError fun stop => ⟨stop.error, { s with arena := stop.state }⟩)
      ((t.fuse (s.relabel f).arena index).mapError fun stop =>
        ⟨stop.error, { s.relabel f with arena := stop.state }⟩) := by
    apply (Template.fuse_relabel hf t s.arena index).mapError
    rintro stop stop' ⟨herror, hstate⟩
    refine ⟨herror, ?_⟩
    show Pass.mk _ _ _ _ = Pass.mk _ _ _ _
    rw [hstate]
    rfl
  unfold fuse
  apply hfuse.bind
  rintro made _ rfl
  have hcount : Alike (Stops f) Eq
      (Interrupted.before ((s.enter made).report (made.report c.debugs index t))
        (count s.fused t.name))
      (Interrupted.before (((s.relabel f).enter (made.relabel f)).report
        ((made.relabel f).report c.debugs index t)) (count s.fused t.name)) :=
    before_relabel _ _
  apply hcount.bind
  rintro fused _ rfl
  exact .ok rfl

/-- A template is tried at a node under other names as it is under the old ones. -/
theorem visit_relabel (hf : Value.IsRelabeling f) (index : Nat) :
    Follows f (s.visit c heard t index) ((s.relabel f).visit c heard t index) := by
  have hexamine : t.examine (s.relabel f).arena index = t.examine s.arena index :=
    t.examine_relabel s.arena index
  have hremoved : (s.relabel f).removed = s.removed := rfl
  unfold visit
  rw [hremoved]
  by_cases hgone : s.removed.contains index = true
  · rw [if_pos hgone, if_pos hgone]
    exact .ok rfl
  · rw [if_neg hgone, if_neg hgone, hexamine]
    apply (before_relabel s _).bind
    rintro verdict _ rfl
    apply (before_relabel s _).bind
    rintro events _ rfl
    by_cases hmatch : verdict.isMatch = true
    · rw [if_pos hmatch, if_pos hmatch]
      exact fuse_relabel (s.report events) c t hf index
    · rw [if_neg hmatch, if_neg hmatch]
      exact .ok rfl

theorem runTemplate_relabel (hf : Value.IsRelabeling f) :
    Follows f (s.runTemplate c heard g t) ((s.relabel f).runTemplate c heard (g.relabel f) t) := by
  unfold runTemplate
  apply (before_relabel s _).bind
  rintro disabled _ rfl
  cases disabled with
  | true => exact .ok (s.note_relabel c.debugs _)
  | false =>
    rw [Graph.candidates_relabel]
    apply (before_relabel s _).bind
    rintro candidates _ rfl
    apply Alike.foldlM_same
    · rfl
    · rintro index - s _ rfl
      exact s.visit_relabel c heard t hf index

theorem runTemplates_relabel (hf : Value.IsRelabeling f) (templates : List Template) :
    Follows f (s.runTemplates c heard g templates)
      ((s.relabel f).runTemplates c heard (g.relabel f) templates) := by
  apply Alike.foldlM_same
  · rfl
  · rintro t - s _ rfl
    exact s.runTemplate_relabel c heard g t hf

theorem survivors_relabel : (s.relabel f).survivors = s.survivors.map (Op.relabel f) := by
  simp only [survivors, relabel, Arena.relabel, List.zipIdx_map, List.filter_map, List.map_map]
  rfl

end Pass

namespace Optimizer

variable (o : Optimizer)

theorem firstPass_relabel (g : Graph) : o.firstPass (g.relabel f) = (o.firstPass g).relabel f := by
  have hsize : (g.relabel f).arena.size = g.arena.size := Arena.size_relabel _
  rw [firstPass, hsize]
  rfl

theorem fusePass_relabel (hf : Value.IsRelabeling f) (g : Graph) :
    Pass.Follows f (o.fusePass g) (o.fusePass (g.relabel f)) := by
  show Pass.Follows f _ (if o.config.fuses then
      (o.firstPass (g.relabel f)).runTemplates o.config o.heard (g.relabel f) o.catalog.templates
    else .ok ((o.firstPass (g.relabel f)).note o.config.debugs .fusionOff))
  unfold fusePass
  rw [firstPass_relabel]
  by_cases hfuses : o.config.fuses = true
  · rw [if_pos hfuses, if_pos hfuses]
    exact (o.firstPass g).runTemplates_relabel o.config o.heard g hf o.catalog.templates
  · rw [if_neg hfuses, if_neg hfuses]
    exact .ok ((o.firstPass g).note_relabel o.config.debugs .fusionOff)

theorem runOn_relabel (hf : Value.IsRelabeling f) (block : Block) (g : Graph) :
    o.runOn (block.relabel f) (g.relabel f) = (o.runOn block g).relabel f := by
  unfold runOn
  obtain ⟨s, _, hs, hs', rfl⟩ | ⟨stop, stop', hstop, hstop', herror, hstate⟩ :=
    (o.fusePass_relabel hf g).ok_or_error
  · rw [hs, hs']
    simp only [Pass.survivors_relabel, Block.relabel, List.length_map]
    rfl
  · rw [hstop, hstop']
    simp only [herror, hstate]
    rfl

/-- Tensor names do not matter as long as they are told apart. A program under other names becomes
what the program becomes, under these names, and if it comes to an error, it does so as well. What is
counted and what is reported is the same. -/
theorem optimize_relabel (hf : Value.IsRelabeling f) (p : Program) :
    o.optimize (p.relabel f) = (o.optimize p).relabel f := by
  obtain ⟨blocks⟩ := p
  match blocks with
  | [] => rfl
  | [block] =>
    have hops : (block.relabel f).ops = block.ops.map (Op.relabel f) := rfl
    simp only [optimize, Program.relabel, List.map_singleton, hops]
    obtain ⟨g, _, hg, hg', rfl⟩ | ⟨e, _, he, he', rfl⟩ :=
      (Graph.build_relabel hf o.registry block.ops).ok_or_error
    · rw [hg, hg']
      exact o.runOn_relabel hf block g
    · rw [he, he']
      rfl
  | block :: block' :: blocks =>
    simp only [optimize, Program.relabel, List.map_cons, List.length_cons, List.length_map]
    rfl

end Optimizer

end Relabel

/-- The first input and the last result of a program exchange their names. -/
theorem optimize_relabel_convAndAdd :
    Value.IsRelabeling (.onTexts (Equiv.swap "x" "t")) ∧
    (Optimizer.usual.optimize (.ofOps convAndAdd)).result.toOption.map (·.program.opTotal)
      = some 1 ∧
    Optimizer.usual.optimize ((Program.ofOps convAndAdd).relabel (.onTexts (Equiv.swap "x" "t")))
      = (Optimizer.usual.optimize (.ofOps convAndAdd)).relabel
        (.onTexts (Equiv.swap "x" "t")) := by
  have hswap := Value.isRelabeling_onTexts (Equiv.swap "x" "t").injective
  exact ⟨hswap, by decide +kernel, Optimizer.usual.optimize_relabel hswap _⟩

end TensorFusion
