import TensorFusion.Proofs.Pass.Answers
import TensorFusion.Proofs.Pass.Tally
import TensorFusion.Proofs.Standard.Templates

/-!
# Proofs — Pass — Ledger

An optimizer that is used for a while: programs are optimized, templates registered, settings
changed and counts cleared, in any order. The counts are bumped at different moments of a run, some
before the templates are tried and some after, so they are held against the answers that were given
since they were cleared.
-/

namespace TensorFusion

/-- The number of operators of a program. -/
def Program.opTotal (p : Program) : Nat := totalOf (fun block => block.ops.length) p.blocks

/-- What can be asked of an optimizer. -/
inductive Call where
  | optimize (p : Program)
  | optimizeOrFallback (p : Program)
  | register (t : Template)
  | configure (config : Config)
  | clearStats

/-- A program that an optimizer was given, and what it answered. -/
structure Answer where
  program : Program
  result : Except Error Outcome

namespace Answer

/-- The program was optimized. -/
def isOptimized (a : Answer) : Bool :=
  match a.result with
  | .ok out => !out.fellBack
  | .error _ => false

/-- The program was given back after an error. -/
def isFallback (a : Answer) : Bool :=
  match a.result with
  | .ok out => out.fellBack
  | .error _ => false

/-- The operators that an optimized program has lost. -/
def saved (a : Answer) : Nat :=
  match a.result with
  | .ok out => if out.fellBack then 0 else a.program.opTotal - out.program.opTotal
  | .error _ => 0

/-- There are three kinds of answers: a program that has not grown, the program that was given, and
an error of fusion. -/
inductive IsDue : Answer → Prop where
  | optimized {p program : Program} (hle : program.opTotal ≤ p.opTotal) :
      IsDue ⟨p, .ok { program }⟩
  | fellBack {p : Program} : IsDue ⟨p, .ok { program := p, fellBack := true }⟩
  | refused {p : Program} {cause : FusionError} : IsDue ⟨p, .error (.fusion cause)⟩

end Answer

/-- An optimizer in use, with its answers since its counts were last cleared. -/
structure Ledger where
  optimizer : Optimizer
  answers : List Answer := []

namespace Ledger

/-- Enters a run over a program. -/
def enter (l : Ledger) (p : Program) (run : Run) : Ledger where
  optimizer := run.optimizer
  answers := l.answers ++ [⟨p, run.result⟩]

/-- Carries out a call. A template that cannot be registered leaves the catalog as it is. -/
def call (l : Ledger) : Call → Ledger
  | .optimize p => l.enter p (l.optimizer.optimize p)
  | .optimizeOrFallback p => l.enter p (l.optimizer.optimizeOrFallback p)
  | .register t => match l.optimizer.catalog.register t with
    | .ok catalog => { l with optimizer := { l.optimizer with catalog := catalog } }
    | .error _ => l
  | .configure config => { l with optimizer := { l.optimizer with config := config } }
  | .clearStats => { optimizer := l.optimizer.clearStats }

/-- Carries out calls one after the other. -/
def callAll (l : Ledger) (calls : List Call) : Ledger := calls.foldl call l

/-- The counts of an optimizer add up with its answers. -/
structure AddsUp (l : Ledger) : Prop where
  answers : ∀ a ∈ l.answers, a.IsDue
  removedOps : l.optimizer.stats.removedOps = totalOf Answer.saved l.answers
  fallbacks : l.optimizer.stats.fallbacks = l.answers.countP Answer.isFallback
  runs : l.optimizer.stats.runs = l.answers.countP Answer.isOptimized
  fused : l.optimizer.stats.fused.savedBy l.optimizer.catalog.templates
    = l.optimizer.stats.removedOps
  /-- Only uses of templates of the catalog are counted. -/
  named : ∀ a, (∀ t ∈ l.optimizer.catalog.templates, t.name.same (.atom a) = false) →
    l.optimizer.stats.fused.countOf a = 0

end Ledger

/-! ## One run -/

/-- A well-typed optimizer whose templates have no branches and names of their own. -/
structure Optimizer.IsAccountable (o : Optimizer) : Prop where
  typed : o.IsTyped
  linear : ∀ t ∈ o.catalog.templates, t.root.isLinear = true
  apart : Template.AreNamedApart o.catalog.templates

/-- What a run over a program enters in the counts, by its answer. -/
inductive Optimizer.Books (o : Optimizer) (p : Program) : Run → Prop where
  | refused {cause : FusionError} {events : List Event} :
      Books o p ⟨.error (.fusion cause), o, events⟩
  | optimized {program : Program} {stats : Stats} {gone : Nat} {events : List Event}
      (hgone : program.opTotal + gone = p.opTotal) (hruns : stats.runs = o.stats.runs + 1)
      (hfallbacks : stats.fallbacks = o.stats.fallbacks)
      (hremoved : stats.removedOps = o.stats.removedOps + gone)
      (hfused : stats.fused.savedBy o.catalog.templates
        = o.stats.fused.savedBy o.catalog.templates + gone)
      (hother : ∀ a, (∀ t ∈ o.catalog.templates, t.name.same (.atom a) = false) →
        stats.fused.countOf a = o.stats.fused.countOf a) :
      Books o p ⟨.ok { program }, { o with stats := stats }, events⟩

namespace Optimizer.IsAccountable

variable {o : Optimizer} {p : Program}

theorem exists_name (ho : o.IsAccountable) : ∀ t ∈ o.catalog.templates, ∃ a, t.name = .atom a :=
  fun t ht => (ho.typed.canRun t ht).name

/-- A run over a well-typed program is booked. -/
theorem books (ho : o.IsAccountable) (hp : p.IsTyped) : o.Books p (o.optimize p) := by
  rcases ho.typed.optimize_cases hp with ⟨-, hrun⟩ | ⟨_, v, -, -, hrun⟩ | ⟨block, hblock, hknown, -⟩
  · rw [hrun]
    exact .refused
  · rw [hrun]
    exact .refused
  obtain ⟨g, s, hg, hs⟩ := ho.typed.exists_pass hp hblock hknown
  have hgraph := (Graph.isOf_of_build hg).1
  obtain ⟨habsorbed, hsize⟩ := isAbsorbedBy_of_fusePass ho.linear hgraph.wellLinked hs
  have hcounted := isCounted_of_fusePass hs
  have hmem : ∀ f ∈ o.fusionsIn g, f.template ∈ o.catalog.templates := fun f hf =>
    template_mem_of_mem_fusionsIn hf
  have hgone : s.survivors.length + s.removed.length = block.ops.length := by
    rw [Pass.survivors_eq, Arena.length_survivors, hsize, habsorbed.length_survivorsOf, hgraph.size]
  have htotal : s.survivors.length + 0 + s.removed.length = p.opTotal := by
    rw [Program.opTotal, hblock, totalOf, totalOf]
    omega
  have hsaved := hcounted.savedBy ho.apart ho.exists_name hmem
  rw [← habsorbed.length] at hsaved
  rw [optimize_of_build hblock hg, runOn, hs]
  exact .optimized htotal rfl rfl rfl hsaved fun a ha =>
    hcounted.countOf_eq fun f hf => ha _ (hmem f hf)

end Optimizer.IsAccountable

namespace Ledger.AddsUp

variable {l : Ledger} {p : Program}

private theorem forall_mem_append {answers : List Answer} {a : Answer}
    (h : ∀ b ∈ answers, b.IsDue) (ha : a.IsDue) : ∀ b ∈ answers ++ [a], b.IsDue := by
  intro b hb
  rcases List.mem_append.mp hb with hb | hb
  · exact h b hb
  · rw [List.mem_singleton.mp hb]
    exact ha

/-- A run that is booked keeps the ledger in balance. -/
theorem enter (h : l.AddsUp) {run : Run} (hrun : l.optimizer.Books p run) :
    (l.enter p run).AddsUp := by
  cases hrun with
  | @refused cause events =>
    constructor
    case answers => exact forall_mem_append h.answers .refused
    case removedOps => simp [Ledger.enter, totalOf_append, totalOf, Answer.saved, h.removedOps]
    case fallbacks => simp [Ledger.enter, Answer.isFallback, h.fallbacks]
    case runs => simp [Ledger.enter, Answer.isOptimized, h.runs]
    case fused => exact h.fused
    case named => exact h.named
  | @optimized program stats gone events hgone hruns hfallbacks hremoved hfused hother =>
    have hbefore := h.fused
    have hsaved : p.opTotal - program.opTotal = gone := by omega
    constructor
    case answers => exact forall_mem_append h.answers (.optimized (by omega))
    case removedOps =>
      simp [Ledger.enter, totalOf_append, totalOf, Answer.saved, hsaved, hremoved, h.removedOps]
    case fallbacks => simp [Ledger.enter, Answer.isFallback, hfallbacks, h.fallbacks]
    case runs => simp [Ledger.enter, Answer.isOptimized, hruns, h.runs]
    case fused =>
      show stats.fused.savedBy l.optimizer.catalog.templates = stats.removedOps
      omega
    case named => exact fun a ha => (hother a ha).trans (h.named a ha)

/-- A program that is given back is counted as such, and nothing else is. -/
theorem enter_fellBack (h : l.AddsUp) {run : Run}
    (hresult : run.result = .ok { program := p, fellBack := true })
    (hoptimizer : run.optimizer = l.optimizer.countFallback) : (l.enter p run).AddsUp := by
  obtain ⟨result, optimizer, events⟩ := run
  cases hresult
  cases hoptimizer
  constructor
  case answers => exact forall_mem_append h.answers .fellBack
  case removedOps =>
    simp [Ledger.enter, totalOf_append, totalOf, Answer.saved, h.removedOps]
  case fallbacks => simp [Ledger.enter, Answer.isFallback, h.fallbacks]
  case runs => simp [Ledger.enter, Answer.isOptimized, h.runs]
  case fused => exact h.fused
  case named => exact h.named

/-- A run that may fall back does so where the program is refused; else it is a run like others. -/
theorem enter_optimizeOrFallback (h : l.AddsUp)
    (hbooks : l.optimizer.Books p (l.optimizer.optimize p)) :
    (l.enter p (l.optimizer.optimizeOrFallback p)).AddsUp := by
  have hrun := h.enter hbooks
  generalize hoptimize : l.optimizer.optimize p = run at hbooks hrun
  unfold Optimizer.optimizeOrFallback
  rw [hoptimize]
  cases hbooks with
  | refused =>
    cases hback : l.optimizer.config.fallsBack with
    | true =>
      simp only [if_true]
      exact h.enter_fellBack rfl rfl
    | false =>
      simp only [Bool.false_eq_true, if_false]
      exact hrun
  | optimized => exact hrun

/-- A template of a new name has not been counted yet. -/
theorem register (h : l.AddsUp) {t : Template} {name : Atom} (hname : t.name = .atom name)
    (hnew : ∀ u ∈ l.optimizer.catalog.templates, u.name.same t.name = false) {catalog : Catalog}
    (hcatalog : catalog.templates = l.optimizer.catalog.templates ++ [t]) :
    AddsUp { l with optimizer := { l.optimizer with catalog := catalog } } := by
  have huncounted : l.optimizer.stats.fused.countAt t.name = 0 := by
    rw [hname]
    exact h.named name (hname ▸ hnew)
  have hsaved : l.optimizer.stats.fused.savedBy catalog.templates
      = l.optimizer.stats.fused.savedBy l.optimizer.catalog.templates := by
    rw [Table.savedBy, Table.savedBy, hcatalog, totalOf_append, totalOf, totalOf, huncounted]
    simp
  refine ⟨h.answers, h.removedOps, h.fallbacks, h.runs, hsaved.trans h.fused,
    fun a ha => h.named a fun t ht => ha t ?_⟩
  show t ∈ catalog.templates
  simp [hcatalog, ht]

/-- With no answers and no counts a ledger is in balance. -/
theorem start {o : Optimizer} (ho : o.stats = {}) : AddsUp { optimizer := o } := by
  have hzero : o.stats.fused.savedBy o.catalog.templates = 0 := by
    refine totalOf_eq_zero fun t _ => ?_
    rw [ho]
    cases t.name <;> simp [Table.countAt, Table.countOf]
  have hremoved : o.stats.removedOps = 0 := by rw [ho]
  refine ⟨fun a ha => (List.not_mem_nil ha).elim, hremoved, ?_, ?_, hzero.trans hremoved.symm,
    fun a _ => ?_⟩
  · show o.stats.fallbacks = 0
    rw [ho]
  · show o.stats.runs = 0
    rw [ho]
  · show o.stats.fused.countOf a = 0
    rw [ho]
    rfl

end Ledger.AddsUp

/-! ## Catalogs -/

/-- A template that is registered comes last, under a name that is new. -/
theorem Catalog.register_eq_ok {c c' : Catalog} {t : Template} (h : c.register t = .ok c') :
    c'.templates = c.templates ++ [t] ∧ ∀ u ∈ c.templates, u.name.same t.name = false := by
  unfold register at h
  by_cases hnew : c.templates.any (·.name.same t.name) = true
  · rw [if_pos hnew] at h
    cases h
  · rw [if_neg hnew] at h
    obtain ⟨beyond, -, h⟩ := bind_eq_ok.mp h
    cases beyond with
    | true => cases h
    | false =>
      cases h
      exact ⟨rfl, by simpa using hnew⟩

theorem Template.AreNamedApart.append {templates : List Template} {t : Template}
    (h : AreNamedApart templates) (hnew : ∀ u ∈ templates, u.name.same t.name = false) :
    AreNamedApart (templates ++ [t]) := by
  refine List.pairwise_append.mpr ⟨h, by simp, fun u hu v hv => ?_⟩
  rw [List.mem_singleton.mp hv]
  exact hnew u hu

/-- The templates of a catalog have names of their own. -/
theorem Catalog.areNamedApart_of_ofList {templates : List Template} {limit : Value} {c : Catalog}
    (h : ofList templates limit = .ok c) : Template.AreNamedApart c.templates := by
  have hstart : Template.AreNamedApart (Catalog.templates { maxDepth := limit }) :=
    List.Pairwise.nil
  refine foldlM_induction (motive := fun _ (c : Catalog) => Template.AreNamedApart c.templates)
    hstart ?_ h
  intro done t rest c c' _ hc hregister
  obtain ⟨htemplates, hnew⟩ := register_eq_ok hregister
  rw [htemplates]
  exact hc.append hnew

/-- A template under a new name, and within the limit, can be registered. -/
theorem Catalog.register_of_new {c : Catalog} {t : Template}
    (hnew : ∀ u ∈ c.templates, u.name.same t.name = false)
    (hlimit : exceeds t.depth c.maxDepth = .ok false) :
    c.register t = .ok { c with templates := c.templates ++ [t] } := by
  have hany : ¬ (c.templates.any (·.name.same t.name) = true) := by simpa using hnew
  rw [register, if_neg hany, hlimit]
  rfl

/-- Templates that are named apart, and within the limit, make a catalog. -/
theorem Catalog.ofList_of_areNamedApart {templates : List Template} {limit : Value}
    (h : Template.AreNamedApart templates)
    (hlimit : ∀ t ∈ templates, exceeds t.depth limit = .ok false) :
    ofList templates limit = .ok { templates := templates, maxDepth := limit } := by
  suffices ∀ rest done : List Template, Template.AreNamedApart (done ++ rest) →
      (∀ t ∈ rest, exceeds t.depth limit = .ok false) →
      rest.foldlM register { templates := done, maxDepth := limit }
        = .ok { templates := done ++ rest, maxDepth := limit } from
    this templates [] h hlimit
  intro rest
  induction rest with
  | nil =>
    intro done _ _
    rw [List.append_nil]
    rfl
  | cons t rest ih =>
    intro done hdone hrest
    obtain ⟨ht, hrest⟩ := List.forall_mem_cons.mp hrest
    have hnew : ∀ u ∈ done, u.name.same t.name = false := fun u hu =>
      (List.pairwise_append.mp hdone).2.2 u hu t (by simp)
    rw [List.foldlM_cons, register_of_new hnew ht, ok_bind,
      ih (done ++ [t]) (by simpa using hdone) hrest, List.append_assoc]
    rfl

theorem Template.standard_areNamedApart : AreNamedApart standard := by decide +kernel

theorem standardCatalog_eq : Catalog.standard (.int 8)
    = .ok { templates := Template.standard, maxDepth := .int 8 } := by
  refine Catalog.ofList_of_areNamedApart Template.standard_areNamedApart fun t ht => ?_
  rcases Template.mem_standard.mp ht with rfl | rfl | rfl | rfl <;> rfl

/-! ## Any number of calls -/

/-- The programs, templates and settings of a call are well typed, and its templates have no
branches. -/
def Call.IsTyped : Call → Prop
  | .optimize p => p.IsTyped
  | .optimizeOrFallback p => p.IsTyped
  | .register t => t.root.isLinear = true ∧ t.name.isString = true ∧ t.trigger.isString = true ∧
      t.fusedType.isString = true
  | .configure config => ∃ names, config.disabled = .series names
  | .clearStats => True

/-- A run changes nothing of an optimizer but its counts. -/
theorem Optimizer.Books.optimizer_eq {o : Optimizer} {p : Program} {run : Run}
    (h : o.Books p run) : ∃ stats, run.optimizer = { o with stats := stats } := by
  cases h with
  | refused => exact ⟨o.stats, rfl⟩
  | optimized => exact ⟨_, rfl⟩

namespace Optimizer.IsAccountable

variable {o : Optimizer} {p : Program}

theorem withStats (h : o.IsAccountable) (stats : Stats) :
    IsAccountable { o with stats := stats } :=
  ⟨⟨h.typed.slots, h.typed.templates, h.typed.disabled⟩, h.linear, h.apart⟩

theorem optimizeOrFallback (h : o.IsAccountable) (hp : p.IsTyped) :
    (o.optimizeOrFallback p).optimizer.IsAccountable := by
  obtain ⟨stats, hstats⟩ := (h.books hp).optimizer_eq
  have hrun : (o.optimize p).optimizer.IsAccountable := hstats ▸ h.withStats stats
  rw [Optimizer.optimizeOrFallback]
  split
  next =>
    split
    next => exact hrun.withStats _
    next => exact hrun
  next => exact hrun

/-- A well-typed call leaves an optimizer accountable. -/
theorem call {l : Ledger} (h : l.optimizer.IsAccountable) {call : Call} (hcall : call.IsTyped) :
    (l.call call).optimizer.IsAccountable := by
  cases call with
  | optimize p =>
    obtain ⟨stats, hstats⟩ := (h.books hcall).optimizer_eq
    show (l.optimizer.optimize p).optimizer.IsAccountable
    rw [hstats]
    exact h.withStats stats
  | optimizeOrFallback p => exact h.optimizeOrFallback hcall
  | register t =>
    obtain ⟨hlinear, hstrings⟩ := hcall
    rw [Ledger.call]
    split
    next catalog hregister =>
      obtain ⟨htemplates, hnew⟩ := Catalog.register_eq_ok hregister
      refine ⟨⟨h.typed.slots, ?_, h.typed.disabled⟩, ?_, ?_⟩
      · intro u hu
        rcases List.mem_append.mp (htemplates ▸ hu) with hu | hu
        · exact h.typed.templates u hu
        · rw [List.mem_singleton.mp hu]
          exact hstrings
      · intro u hu
        rcases List.mem_append.mp (htemplates ▸ hu) with hu | hu
        · exact h.linear u hu
        · rw [List.mem_singleton.mp hu]
          exact hlinear
      · show Template.AreNamedApart catalog.templates
        rw [htemplates]
        exact h.apart.append hnew
    next => exact h
  | configure config => exact ⟨⟨h.typed.slots, h.typed.templates, hcall⟩, h.linear, h.apart⟩
  | clearStats => exact h.withStats {}

end Optimizer.IsAccountable

/-- A well-typed call keeps the ledger in balance. -/
theorem Ledger.AddsUp.call {l : Ledger} (h : l.AddsUp) (ho : l.optimizer.IsAccountable)
    {call : Call} (hcall : call.IsTyped) : (l.call call).AddsUp := by
  cases call with
  | optimize p => exact h.enter (ho.books hcall)
  | optimizeOrFallback p => exact h.enter_optimizeOrFallback (ho.books hcall)
  | register t =>
    obtain ⟨name, hname⟩ := Value.exists_atom_of_isString hcall.2.1
    rw [Ledger.call]
    split
    next catalog hregister =>
      obtain ⟨htemplates, hnew⟩ := Catalog.register_eq_ok hregister
      exact h.register hname hnew htemplates
    next => exact h
  | configure config => exact ⟨h.answers, h.removedOps, h.fallbacks, h.runs, h.fused, h.named⟩
  | clearStats => exact start rfl

/-- The counts of an optimizer add up at any time. It begins with any catalog of templates without
branches, and is asked to optimize, to fall back, to take in further such templates, to change its
settings and to clear its counts, in any order. -/
theorem Optimizer.addsUp_callAll {o : Optimizer} {templates : List Template} {limit : Value}
    (ho : o.IsTyped) (hcatalog : Catalog.ofList templates limit = .ok o.catalog)
    (hlinear : ∀ t ∈ o.catalog.templates, t.root.isLinear = true) (hfresh : o.stats = {})
    {calls : List Call} (hcalls : ∀ call ∈ calls, call.IsTyped) :
    (Ledger.callAll { optimizer := o } calls).AddsUp := by
  have haccountable : o.IsAccountable :=
    ⟨ho, hlinear, Catalog.areNamedApart_of_ofList hcatalog⟩
  -- What a call keeps, any number of calls keep.
  suffices ∀ l : Ledger, l.optimizer.IsAccountable → l.AddsUp → (l.callAll calls).AddsUp from
    this _ haccountable (.start hfresh)
  intro l hl hbalance
  induction calls generalizing l with
  | nil => exact hbalance
  | cons call calls ih =>
    have hcall := hcalls call (by simp)
    exact ih (fun c hc => hcalls c (by simp [hc])) (l.call call) (hl.call hcall)
      (hbalance.call hl hcall)

/-- A convolution, a summand and an activation. -/
def summedConv : List Op :=
  [.ofTexts "conv2d" [("Input", ["x"])] [("Output", ["c"])] [("Filter", ["w"])],
    .ofTexts "elementwise_add" [("X", ["c"])] [("Out", ["s"])] [("Y", ["b"])],
    .ofTexts "relu" [("X", ["s"])] [("Out", ["y"])]]

/-- An optimizer that is asked for everything: a further template is taken in, a program without a
block is given back, and in the end the first template is switched off, so that the further one finds
its chain. -/
def mixedCalls : List Call :=
  [.optimize (.ofOps summedConv),
    .clearStats,
    .register (.ofChain "add_relu" "elementwise_add" ["relu"] []),
    .optimizeOrFallback { blocks := [] },
    .optimizeOrFallback (.ofOps summedConv),
    .configure { disabled := .series [.text "conv_add"] },
    .optimize (.ofOps summedConv)]

/-- Since the counts were cleared, two runs have come to an end, each with a fusion by another
template, and one program was given back. -/
theorem addsUp_mixedCalls :
    (Optimizer.withTemplates [.convAdd]).IsTyped ∧
    Catalog.ofList [.convAdd] .null = .ok (Optimizer.withTemplates [.convAdd]).catalog ∧
    (∀ call ∈ mixedCalls, call.IsTyped) ∧
    ∃ l, Ledger.callAll { optimizer := .withTemplates [.convAdd] } mixedCalls = l ∧ l.AddsUp ∧
      l.optimizer.stats.runs = 2 ∧ l.optimizer.stats.fallbacks = 1 ∧
      l.optimizer.stats.removedOps = 2 ∧
      l.optimizer.stats.fused.entries = [(.text "conv_add", 1), (.text "add_relu", 1)] := by
  have ho : (Optimizer.withTemplates [.convAdd]).IsTyped :=
    ⟨by decide, by decide, [], rfl⟩
  have hcatalog : Catalog.ofList [.convAdd] .null
      = .ok (Optimizer.withTemplates [.convAdd]).catalog :=
    Catalog.ofList_of_areNamedApart (List.pairwise_singleton _ _) fun _ _ => rfl
  have hsummed : (Program.ofOps summedConv).IsTyped := by decide
  have hcalls : ∀ call ∈ mixedCalls, call.IsTyped := by
    simp only [mixedCalls, List.forall_mem_cons]
    refine ⟨hsummed, trivial, ⟨rfl, rfl, rfl, rfl⟩, ?_, hsummed, ⟨_, rfl⟩, hsummed, by simp⟩
    show Program.IsTyped { blocks := [] }
    decide
  exact ⟨ho, hcatalog, hcalls, _, rfl,
    Optimizer.addsUp_callAll ho hcatalog (by decide) rfl hcalls, by decide +kernel, by decide +kernel,
    by decide +kernel, by decide +kernel⟩

end TensorFusion
