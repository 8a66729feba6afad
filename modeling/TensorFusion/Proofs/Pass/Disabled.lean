import TensorFusion.Proofs.Pass.Ledger

/-!
# Proofs — Pass — Disabled

Templates that are switched off against templates that are not there. A pass that goes over a
template does nothing but report it, so what it makes of a program is made by the templates that are
left. An optimizer can be made of these alone as long as there are any: where none is given, the
standard ones are taken.
-/

namespace TensorFusion

/-- Whether an event reports that a template is switched off. -/
def Event.isSkip : Event → Bool
  | .skipped _ => true
  | _ => false

/-- Those of some templates that are not named. -/
def Template.unnamedBy (names : List Value) (templates : List Template) : List Template :=
  templates.filter fun t => !names.any (·.same t.name)

/-! ## Passes -/

namespace Pass

/-- A pass without its reports on templates that are switched off. -/
def unskipped (s : Pass) : Pass := { s with events := s.events.filter fun e => !e.isSkip }

/-- What a pass comes to, without its reports on templates that are switched off. -/
def unskippedEnd : Except (Interrupted Pass) Pass → Except (Interrupted Pass) Pass
  | .ok s => .ok s.unskipped
  | .error stop => .error { stop with state := stop.state.unskipped }

variable {s : Pass}

theorem bind_unskippedEnd {x : Except (Interrupted Pass) Pass}
    {f f' : Pass → Except (Interrupted Pass) Pass}
    (h : ∀ s, f' s.unskipped = unskippedEnd (f s)) :
    unskippedEnd x >>= f' = unskippedEnd (x >>= f) := by
  cases x with
  | ok s => exact h s
  | error stop => rfl

theorem before_unskipped {α : Type} (x : Except Error α)
    {f f' : α → Except (Interrupted Pass) Pass} (h : ∀ a, f' a = unskippedEnd (f a)) :
    Interrupted.before s.unskipped x >>= f' = unskippedEnd (Interrupted.before s x >>= f) := by
  cases x with
  | ok a => exact h a
  | error e => rfl

theorem foldlM_unskipped {α : Type} {f f' : Pass → α → Except (Interrupted Pass) Pass}
    (h : ∀ s a, f' s.unskipped a = unskippedEnd (f s a)) (as : List α) (s : Pass) :
    as.foldlM f' s.unskipped = unskippedEnd (as.foldlM f s) := by
  induction as generalizing s with
  | nil => rfl
  | cons a as ih =>
    rw [List.foldlM_cons, List.foldlM_cons, h]
    exact bind_unskippedEnd ih

theorem report_unskipped {events : List Event} (h : ∀ e ∈ events, e.isSkip = false) :
    s.unskipped.report events = (s.report events).unskipped := by
  have hall : events.filter (fun e => !e.isSkip) = events :=
    List.filter_eq_self.mpr fun e he => by rw [h e he]; rfl
  simp only [report, unskipped, List.filter_append, hall]

variable {c : Config} {heard : Bool} {g : Graph} {t : Template} {names : List Value}

/-- A look at a node reports no template that is switched off. -/
theorem isSkip_of_report {wanted : Bool} {v : Verdict} {index : Nat} {events : List Event}
    (h : v.report wanted heard index t = .ok events) : ∀ e ∈ events, e.isSkip = false := by
  cases v with
  | otherType =>
    cases h
    exact nofun
  | compared shadow agrees =>
    cases wanted with
    | false =>
      cases h
      exact nofun
    | true =>
      have hevents : events = [.compared agrees index t.name shadow] := by
        cases heard with
        | false => exact (Except.ok.inj h).symm
        | true =>
          obtain ⟨text, -, h⟩ := bind_eq_ok.mp h
          exact (Except.ok.inj h).symm
      rw [hevents]
      intro e he
      rw [List.mem_singleton.mp he]
      rfl

/-- A fusion does not depend on what was reported before. -/
theorem fuse_unskipped (s : Pass) (index : Nat) :
    fuse c t s.unskipped index = unskippedEnd (fuse c t s index) := by
  have hfuse : t.fuse s.unskipped.arena index = t.fuse s.arena index := rfl
  unfold fuse
  rw [hfuse]
  cases t.fuse s.arena index with
  | error stop => rfl
  | ok f =>
    have hreport : ∀ e ∈ f.report c.debugs index t, e.isSkip = false := by
      unfold Fused.report
      split <;> simp [Event.isSkip]
    have hnext : (s.unskipped.enter f).report (f.report c.debugs index t)
        = ((s.enter f).report (f.report c.debugs index t)).unskipped :=
      report_unskipped (s := s.enter f) hreport
    rw [ok_mapError, ok_mapError, ok_bind, ok_bind, hnext]
    exact before_unskipped _ fun _ => rfl

theorem visit_unskipped (s : Pass) (index : Nat) :
    visit c heard t s.unskipped index = unskippedEnd (visit c heard t s index) := by
  have hremoved : s.unskipped.removed = s.removed := rfl
  have harena : s.unskipped.arena = s.arena := rfl
  unfold visit
  rw [hremoved, harena]
  by_cases hgone : s.removed.contains index = true
  · rw [if_pos hgone, if_pos hgone]
    rfl
  · rw [if_neg hgone, if_neg hgone]
    refine before_unskipped _ fun v => ?_
    cases hevents : v.report c.debugs heard index t with
    | error e => rfl
    | ok events =>
      simp only [before_ok, ok_bind, report_unskipped (isSkip_of_report hevents)]
      split
      next => exact fuse_unskipped _ index
      next => rfl

/-- A template that is not named is tried as if none was named. -/
theorem runTemplate_unskipped (h : names.any (·.same t.name) = false) (s : Pass) :
    runTemplate { c with disabled := .series [] } heard g s.unskipped t
      = unskippedEnd (runTemplate { c with disabled := .series names } heard g s t) := by
  have hnone : Config.disables { c with disabled := .series [] } t.name = .ok false := rfl
  have hnames : Config.disables { c with disabled := .series names } t.name = .ok false :=
    congrArg Except.ok h
  simp only [runTemplate, hnone, hnames, before_ok, ok_bind, Bool.false_eq_true, if_false]
  exact before_unskipped _ fun candidates => foldlM_unskipped visit_unskipped candidates s

/-- A template that is named is reported and nothing else. -/
theorem exists_runTemplate_of_named (c : Config) (heard : Bool) (g : Graph)
    (h : names.any (·.same t.name) = true) (s : Pass) :
    ∃ s', runTemplate { c with disabled := .series names } heard g s t = .ok s' ∧
      s'.unskipped = s.unskipped := by
  have hdisables : Config.disables { c with disabled := .series names } t.name = .ok true :=
    congrArg Except.ok h
  refine ⟨s.note c.debugs (.skipped t.name), ?_, ?_⟩
  · unfold runTemplate
    rw [hdisables]
    rfl
  · unfold note
    split
    next => simp [unskipped, report, Event.isSkip]
    next => rfl

/-- Where some templates are named, the others are run as they are by themselves. -/
theorem runTemplates_unskipped (templates : List Template) (s : Pass) :
    s.unskipped.runTemplates { c with disabled := .series [] } heard g
        (Template.unnamedBy names templates)
      = unskippedEnd (s.runTemplates { c with disabled := .series names } heard g templates) := by
  induction templates generalizing s with
  | nil => rfl
  | cons t templates ih =>
    cases h : names.any (·.same t.name) with
    | true =>
      obtain ⟨s', hturn, hs'⟩ := exists_runTemplate_of_named c heard g h s
      have hfirst : s.runTemplates { c with disabled := .series names } heard g (t :: templates)
          = s'.runTemplates { c with disabled := .series names } heard g templates := by
        rw [runTemplates, List.foldlM_cons, hturn]
        rfl
      rw [Template.unnamedBy, List.filter_cons_of_neg (by simp [h]), hfirst, ← hs']
      exact ih s'
    | false =>
      rw [Template.unnamedBy, List.filter_cons_of_pos (by simp [h])]
      simp only [runTemplates, List.foldlM_cons, runTemplate_unskipped h]
      exact bind_unskippedEnd ih

/-! ### Fusions -/

theorem fusionsOver_disabled (d : Setting) (indices : List Nat) (s : Pass) :
    fusionsOver { c with disabled := d } heard t indices s = fusionsOver c heard t indices s := by
  have hvisit : visit { c with disabled := d } heard t = visit c heard t := rfl
  induction indices generalizing s with
  | nil => rfl
  | cons index indices ih =>
    rw [fusionsOver, fusionsOver, hvisit]
    cases visit c heard t s index with
    | ok s' => exact congrArg (_ ++ ·) (ih s')
    | error stop => rfl

theorem fusionsOver_unskipped (indices : List Nat) (s : Pass) :
    fusionsOver c heard t indices s.unskipped = fusionsOver c heard t indices s := by
  induction indices generalizing s with
  | nil => rfl
  | cons index indices ih =>
    have hfusion : s.unskipped.fusionAt t index = s.fusionAt t index := rfl
    rw [fusionsOver, fusionsOver, visit_unskipped, hfusion]
    cases visit c heard t s index with
    | ok s' => exact congrArg (_ ++ ·) (ih s')
    | error stop => rfl

/-- The fusions are those that the templates which are not named make by themselves. -/
theorem fusionsOf_unskipped (templates : List Template) (s : Pass) :
    fusionsOf { c with disabled := .series [] } heard g (Template.unnamedBy names templates)
        s.unskipped
      = fusionsOf { c with disabled := .series names } heard g templates s := by
  induction templates generalizing s with
  | nil => rfl
  | cons t templates ih =>
    have hnames : Config.disables { c with disabled := .series names } t.name
        = .ok (names.any (·.same t.name)) := rfl
    cases h : names.any (·.same t.name) with
    | true =>
      obtain ⟨s', hturn, hs'⟩ := exists_runTemplate_of_named c heard g h s
      rw [h] at hnames
      have hnone : fusionsBy { c with disabled := .series names } heard g t s = [] := by
        rw [fusionsBy, hnames]
      rw [Template.unnamedBy, List.filter_cons_of_neg (by simp [h]), fusionsOf, hnone, hturn,
        List.nil_append, ← hs']
      exact ih s'
    | false =>
      rw [h] at hnames
      have hsame : fusionsBy { c with disabled := .series [] } heard g t s.unskipped
          = fusionsBy { c with disabled := .series names } heard g t s := by
        have hnone : Config.disables { c with disabled := .series [] } t.name = .ok false := rfl
        rw [fusionsBy, fusionsBy, hnone, hnames]
        cases g.candidates t.trigger with
        | ok candidates =>
          show fusionsOver _ _ _ _ _ = fusionsOver _ _ _ _ _
          rw [fusionsOver_disabled (c := c) (.series []), fusionsOver_disabled (c := c) (.series names),
            fusionsOver_unskipped]
        | error e => rfl
      rw [Template.unnamedBy, List.filter_cons_of_pos (by simp [h]), fusionsOf, fusionsOf, hsame,
        runTemplate_unskipped h]
      cases runTemplate { c with disabled := .series names } heard g s t with
      | ok s' => exact congrArg (_ ++ ·) (ih s')
      | error stop => rfl

end Pass

/-! ## Optimizers -/

/-- The templates that are left of a catalog make a catalog. -/
theorem Catalog.ofList_unnamedBy {catalog : Catalog} {names : List Value}
    (hapart : Template.AreNamedApart catalog.templates) :
    Catalog.ofList (Template.unnamedBy names catalog.templates) .null
      = .ok { templates := Template.unnamedBy names catalog.templates } :=
  Catalog.ofList_of_areNamedApart (hapart.filter _) fun _ _ => rfl

namespace Optimizer

/-- An optimizer in which the named templates are switched off, and no others. -/
def disabling (o : Optimizer) (names : List Value) : Optimizer :=
  { o with config := { o.config with disabled := .series names } }

/-- An optimizer that has only the templates that are not named, none of them switched off. The
depth limit of its catalog is of no account for what it has. -/
def without (o : Optimizer) (names : List Value) (limit : Value) : Optimizer :=
  { o with
    catalog := { templates := Template.unnamedBy names o.catalog.templates, maxDepth := limit }
    config := { o.config with disabled := .series [] } }

variable (o : Optimizer) (names : List Value) (limit : Value)

@[simp] theorem registry_disabling : (o.disabling names).registry = o.registry := rfl

@[simp] theorem registry_without : (o.without names limit).registry = o.registry := rfl

theorem fuses_disabling : (o.disabling names).config.fuses = o.config.fuses := rfl

theorem fuses_without : (o.without names limit).config.fuses = o.config.fuses := rfl

theorem fusePass_without (g : Graph) : (o.without names limit).fusePass g
    = Pass.unskippedEnd ((o.disabling names).fusePass g) := by
  unfold fusePass
  rw [fuses_without, fuses_disabling]
  split
  next => exact Pass.runTemplates_unskipped o.catalog.templates (o.firstPass g)
  next =>
    show Except.ok ((o.firstPass g).note o.config.debugs .fusionOff)
      = .ok ((o.firstPass g).note o.config.debugs .fusionOff).unskipped
    cases o.config.debugs <;> rfl

/-- The run of an optimizer without some templates is the run of the one in which they are switched
off, but for the reports on these. -/
theorem optimize_without (p : Program) : (o.without names limit).optimize p =
    { result := ((o.disabling names).optimize p).result
      optimizer := { o.without names limit with
        stats := ((o.disabling names).optimize p).optimizer.stats }
      events := ((o.disabling names).optimize p).events.filter fun e => !e.isSkip } := by
  unfold optimize
  rw [registry_without, registry_disabling]
  match p.blocks with
  | [] => rfl
  | _ :: _ :: _ => rfl
  | [block] =>
    cases hbuild : Graph.build o.registry block.ops with
    | error e =>
      simp only [hbuild]
      rfl
    | ok g =>
      simp only [hbuild, runOn, fusePass_without]
      cases (o.disabling names).fusePass g with
      | error stop => rfl
      | ok s => simp [Pass.unskippedEnd, Pass.unskipped, Pass.survivors, Event.isSkip, finishedStats,
          startedStats, without, disabling]

theorem fusionsIn_without (g : Graph) :
    (o.without names limit).fusionsIn g = (o.disabling names).fusionsIn g := by
  unfold fusionsIn
  rw [fuses_without, fuses_disabling]
  split
  next => exact Pass.fusionsOf_unskipped o.catalog.templates (o.firstPass g)
  next => rfl

theorem fusions_without (p : Program) :
    (o.without names limit).fusions p = (o.disabling names).fusions p := by
  simp only [fusions, registry_without, registry_disabling, fusionsIn_without]

/-! ## Optimizers that are made -/

/-- An optimizer is made of a catalog that has templates. -/
theorem make_of_ne_nil {catalog : Catalog} (h : catalog.templates ≠ []) (registry : Option Registry)
    (c : Config) : make registry (some catalog) (some c)
      = .ok { registry := (registry.getD {}).orStandard, catalog, config := c } := by
  have hsize : catalog.size ≠ 0 := fun hzero => h (List.length_eq_zero_iff.mp hzero)
  simp only [make, Option.getD_some, if_neg hsize]
  rfl

/-- Two optimizers make the same of a program, with the same fusions and the same counts. The second
reports the same but for templates that are switched off in the first. -/
structure RunsAlike (o o' : Optimizer) (p : Program) : Prop where
  result : (o'.optimize p).result = (o.optimize p).result
  stats : (o'.optimize p).optimizer.stats = (o.optimize p).optimizer.stats
  events : (o'.optimize p).events = (o.optimize p).events.filter fun e => !e.isSkip
  fusions : o'.fusions p = o.fusions p

theorem runsAlike_without (p : Program) :
    (o.disabling names).RunsAlike (o.without names limit) p where
  result := by rw [optimize_without]
  stats := by rw [optimize_without]
  events := by rw [optimize_without]
  fusions := o.fusions_without names limit p

/-- An optimizer uses no template but those of its catalog. -/
theorem template_mem_of_mem_fusions {o : Optimizer} {p : Program} {f : Fusion}
    (h : f ∈ o.fusions p) : f.template ∈ o.catalog.templates := by
  unfold fusions at h
  split at h
  next =>
    split at h
    next => exact template_mem_of_mem_fusionsIn h
    next => cases h
  next => cases h

/-- Templates that are switched off might as well not be there, as long as others are. The optimizer
that is made of the others alone makes the same of every program, with templates that it was
given. -/
theorem optimize_disabled (registry : Option Registry) (catalog : Catalog) (c : Config)
    (names : List Value) (hapart : Template.AreNamedApart catalog.templates)
    (hsome : ∃ t ∈ catalog.templates, names.any (·.same t.name) = false) :
    ∃ rest first second,
      Catalog.ofList (catalog.templates.filter fun t => !names.any (·.same t.name)) .null
        = .ok rest ∧
      make registry (some catalog) (some { c with disabled := .series names }) = .ok first ∧
      make registry (some rest) (some { c with disabled := .series [] }) = .ok second ∧
      ∀ heard p, RunsAlike { first with heard } { second with heard } p ∧
        ∀ f ∈ fusions { second with heard } p, f.template ∈ rest.templates := by
  obtain ⟨t, ht, hunnamed⟩ := hsome
  have hkept : t ∈ Template.unnamedBy names catalog.templates :=
    List.mem_filter.mpr ⟨ht, by rw [hunnamed]; rfl⟩
  refine ⟨{ templates := Template.unnamedBy names catalog.templates }, _, _,
    Catalog.ofList_unnamedBy hapart, make_of_ne_nil (List.ne_nil_of_mem ht) registry _,
    make_of_ne_nil (List.ne_nil_of_mem hkept) registry _, fun heard p => ⟨?_, fun f hf => ?_⟩⟩
  · let o : Optimizer :=
      { registry := (registry.getD {}).orStandard, catalog, config := c, heard }
    exact o.runsAlike_without names .null p
  · exact template_mem_of_mem_fusions hf

end Optimizer

/-- A convolution and the addition of its bias. -/
def convAndAdd : List Op := [
  .ofTexts "conv2d" [("Input", ["x"])] [("Output", ["c"])] [("Filter", ["w"])],
  .ofTexts "elementwise_add" [("X", ["c"])] [("Out", ["t"])] [("Y", ["b"])]]

namespace Optimizer

/-- The usual optimizer, with the depth limit of its first settings in its catalog. -/
def limited : Optimizer :=
  { usual with catalog := { templates := Template.standard, maxDepth := .int 8 } }

theorem make_empty : make none (some {}) (some {}) = .ok limited := by
  have hmake : make none (some {}) (some {}) = Catalog.standard (.int 8) >>= fun catalog =>
      .ok { usual with catalog := catalog } := rfl
  rw [hmake, standardCatalog_eq]
  rfl

theorem opTotal_withTemplates_nil :
    ((withTemplates []).optimize (.ofOps convAndAdd)).result.toOption.map (·.program.opTotal)
      = some 2 := by
  decide +kernel

theorem opTotal_limited :
    (limited.optimize (.ofOps convAndAdd)).result.toOption.map (·.program.opTotal) = some 1 := by
  decide +kernel

/-- Where all templates of a catalog are switched off, the standard ones come in for them: what is
left alone with the first is fused with the others. -/
theorem exists_ne_of_all_named (catalog : Catalog) (names : List Value)
    (hne : catalog.templates ≠ [])
    (hall : ∀ t ∈ catalog.templates, names.any (·.same t.name) = true) :
    ∃ rest first second,
      Catalog.ofList (catalog.templates.filter fun t => !names.any (·.same t.name)) .null
        = .ok rest ∧
      make none (some catalog) (some { disabled := .series names }) = .ok first ∧
      make none (some rest) (some {}) = .ok second ∧
      (first.optimize (.ofOps convAndAdd)).result ≠ (second.optimize (.ofOps convAndAdd)).result := by
  have hnone : Template.unnamedBy names catalog.templates = [] :=
    List.filter_eq_nil_iff.mpr fun t ht => by simp [hall t ht]
  have hrest : Catalog.ofList (Template.unnamedBy names catalog.templates) .null = .ok {} := by
    rw [hnone]
    rfl
  have hlike := (runsAlike_without { usual with catalog } names .null (.ofOps convAndAdd)).result
  have hbare : without { usual with catalog } names .null = withTemplates [] := by
    rw [without, hnone]
    rfl
  refine ⟨{}, disabling { usual with catalog } names, limited, hrest,
    make_of_ne_nil hne none _, make_empty, fun hsame => ?_⟩
  have htotal := opTotal_withTemplates_nil
  rw [← hbare, hlike, hsame, opTotal_limited] at htotal
  cases htotal

end Optimizer

theorem optimize_disabled_convAndAdd : Template.AreNamedApart Template.standard ∧
    (∃ t ∈ Template.standard, ([.text "conv_add"] : List Value).any (·.same t.name) = false) ∧
    ∃ rest first second,
      Catalog.ofList (Template.standard.filter fun t =>
        !([.text "conv_add"] : List Value).any (·.same t.name)) .null = .ok rest ∧
      Optimizer.make none (some { templates := Template.standard })
        (some { disabled := .series [.text "conv_add"] }) = .ok first ∧
      Optimizer.make none (some rest) (some {}) = .ok second ∧
      ∀ heard p, Optimizer.RunsAlike { first with heard } { second with heard } p ∧
        ∀ f ∈ Optimizer.fusions { second with heard } p, f.template ∈ rest.templates := by
  have hsome : ∃ t ∈ Template.standard,
      ([.text "conv_add"] : List Value).any (·.same t.name) = false :=
    ⟨.convAddNormRelu, by simp [Template.standard], by decide +kernel⟩
  exact ⟨Template.standard_areNamedApart, hsome, Optimizer.optimize_disabled none
    { templates := Template.standard } {} _ Template.standard_areNamedApart hsome⟩

/-- With its only template switched off, an optimizer leaves a program alone that the optimizer made
of no templates fuses. -/
theorem optimize_ne_convAndAdd : Template.AreNamedApart [Template.convAdd] ∧
    ∃ rest first second,
      Catalog.ofList ([Template.convAdd].filter fun t =>
        !([.text "conv_add"] : List Value).any (·.same t.name)) .null = .ok rest ∧
      Optimizer.make none (some { templates := [Template.convAdd] })
        (some { disabled := .series [.text "conv_add"] }) = .ok first ∧
      Optimizer.make none (some rest) (some {}) = .ok second ∧
      (first.optimize (.ofOps convAndAdd)).result
        ≠ (second.optimize (.ofOps convAndAdd)).result := by
  exact ⟨by decide, Optimizer.exists_ne_of_all_named { templates := [.convAdd] } _ (by simp)
    (by decide +kernel)⟩

end TensorFusion
