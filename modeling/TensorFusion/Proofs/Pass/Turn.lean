import TensorFusion.Proofs.Pass.Linear

/-!
# Proofs — Pass — Turn

The turn of a template. The nodes that a template is tried at are those that the graph was built
with its starting type, in program order, so a fusion of the turn can only take away what lies
behind its root. A path that none of the fusions before has touched is still there when its first
node is visited, and is fused then.
-/

namespace TensorFusion

/-- What has become of a node at the end of a turn: the template has fused it, or it is absorbed, or
a fusion that was made before its turn came has absorbed a node of the region that it begins. -/
def IsServed (turn : List Fusion) (removed region : List Nat) (i : Nat) : Prop :=
  (∃ f ∈ turn, f.root = i) ∨ i ∈ removed ∨
    ∃ f ∈ turn, f.root < i ∧ ∃ m ∈ region, m ∈ f.made.absorbed

instance (turn : List Fusion) (removed region : List Nat) (i : Nat) :
    Decidable (IsServed turn removed region i) :=
  inferInstanceAs (Decidable (_ ∨ _ ∨ _))

/-! ## Paths -/

namespace Live

variable {a₀ a : Arena} {tail : Nat → Nat} {removed : List Nat}

/-- A path that a fusion has no node of is still there afterwards. -/
theorem path_of_untouched (h : Live a₀ tail a removed) (hlinked : a₀.WellLinked) {c : Config}
    {g : Graph} {templates : List Template} {f : Fusion}
    (hlinear : f.template.root.isLinear = true) (hbefore : f.before = a)
    (hvalid : f.IsValid c g templates removed) {first : Value} {rest : List Value} {i : Nat}
    {ks : List Nat} (hp : a.Path first rest i ks) (hroot : f.root ∉ i :: ks)
    (habsorbed : ∀ m ∈ i :: ks, m ∉ f.made.absorbed) : f.made.arena.Path first rest i ks := by
  obtain ⟨-, -, -, -, hf, -⟩ := h.exists_path hlinked hlinear hbefore hvalid
  have hne : ∀ m ∈ i :: ks, m ≠ f.root := by
    rintro m hm rfl
    exact hroot hm
  refine hp.congr (fun m hm => hf.op?_ne m (hne m hm)) fun m hm k hk hout => ?_
  -- An edge that is taken away leads to an absorbed node, and the path has none.
  have hkept : k ∉ f.made.absorbed := habsorbed k (List.mem_cons_of_mem _ hk)
  have houtside : ¬ Walk.IsInside f.root f.made.absorbed m := by
    simp [Walk.IsInside, hne m hm, habsorbed m hm]
  rw [hf.outputs_outside m houtside, hout]
  simp [hkept]

end Live

namespace Pass

variable {c : Config} {heard : Bool} {g : Graph} {templates : List Template} {t : Template}
  {s s' : Pass} {front back candidates : List Nat}

/-! ## Visits -/

/-- The fusions at some nodes and at those that follow them. -/
theorem fusionsOver_append (h : front.foldlM (visit c heard t) s = .ok s') :
    fusionsOver c heard t (front ++ back) s
      = fusionsOver c heard t front s ++ fusionsOver c heard t back s' := by
  induction front generalizing s with
  | nil =>
    rw [List.foldlM_nil, pure_eq_ok] at h
    rw [h]
    rfl
  | cons index front ih =>
    rw [List.foldlM_cons, bind_eq_ok] at h
    obtain ⟨s₁, hvisit, h⟩ := h
    have hrest : fusionsOver c heard t (front ++ back) s₁
        = fusionsOver c heard t front s₁ ++ fusionsOver c heard t back s' := ih h
    simp only [List.cons_append, fusionsOver, hvisit, hrest, List.append_assoc]

/-- A fusion of a turn is made with the template whose turn it is, at one of the nodes that are
visited. -/
theorem eq_of_mem_fusionsOver {indices : List Nat} {f : Fusion}
    (h : f ∈ fusionsOver c heard t indices s) : f.template = t ∧ f.root ∈ indices := by
  induction indices generalizing s with
  | nil => simp [fusionsOver] at h
  | cons index indices ih =>
    rw [fusionsOver] at h
    rcases List.mem_append.mp h with h | h
    · obtain ⟨-, htemplate, hroot, -⟩ := fusionAt_eq_some (Option.mem_toList.mp h)
      exact ⟨htemplate, by simp [hroot]⟩
    · split at h
      · obtain ⟨htemplate, hroot⟩ := ih h
        exact ⟨htemplate, List.mem_cons_of_mem _ hroot⟩
      · simp at h

section Path

variable {a₀ : Arena} {tail : Nat → Nat} {first : Value} {rest : List Value} {i : Nat}
  {ks : List Nat}

/-- Visits to nodes before a path fuse away some of it, or leave it as it is. -/
theorem path_of_visits (hlinked : a₀.WellLinked) (hlinear : t.root.isLinear = true)
    (henabled : c.disables t.name = .ok false)
    (hcandidates : g.candidates t.trigger = .ok candidates)
    (hfront : ∀ j ∈ front, j ∈ candidates) (hlt : ∀ j ∈ front, j < i)
    (hlive : Live a₀ tail s.arena s.removed) (hi : i ∉ s.removed)
    (hp : s.arena.Path first rest i ks) (h : front.foldlM (visit c heard t) s = .ok s') :
    (∃ f ∈ fusionsOver c heard t front s, ∃ m ∈ i :: ks, m ∈ f.made.absorbed) ∨
      i ∉ s'.removed ∧ s'.arena.Path first rest i ks := by
  induction front generalizing s tail with
  | nil =>
    rw [List.foldlM_nil, pure_eq_ok] at h
    subst h
    exact .inr ⟨hi, hp⟩
  | cons index front ih =>
    rw [List.foldlM_cons, bind_eq_ok] at h
    obtain ⟨s₁, hvisit, h⟩ := h
    have hrest := fun tail' (hlive' : Live a₀ tail' s₁.arena s₁.removed) hi' hp' =>
      ih (fun j hj => hfront j (by simp [hj])) (fun j hj => hlt j (by simp [hj])) hlive' hi' hp' h
    simp only [fusionsOver, hvisit, List.mem_append]
    rcases visit_eq_ok hvisit with ⟨-, harena, hremoved⟩ | ⟨f, hsome, harena, hremoved⟩
    · -- Nothing is fused, so the path is where it was.
      rw [harena, hremoved] at hrest
      exact (hrest tail hlive hi hp).imp_left fun htaken =>
        htaken.imp fun _ hf => ⟨.inr hf.1, hf.2⟩
    · obtain ⟨hbefore, hvalid⟩ := isValid_of_fusionAt (List.mem_singleton_self t) henabled
        hcandidates (hfront index (by simp)) hsome
      obtain ⟨-, htemplate, hroot, -⟩ := fusionAt_eq_some hsome
      rw [← htemplate] at hlinear
      by_cases htaken : ∃ m ∈ i :: ks, m ∈ f.made.absorbed
      · exact .inl ⟨f, .inl (by simp [hsome]), htaken⟩
      · have huntouched : ∀ m ∈ i :: ks, m ∉ f.made.absorbed := fun m hm hmem =>
          htaken ⟨m, hm, hmem⟩
        -- The root is visited before the path begins, so it is not on it.
        have hbehind : f.root ∉ i :: ks := fun hmem => by
          have hle : i ≤ f.root := by
            rcases List.mem_cons.mp hmem with heq | hmem
            · omega
            · have hascending := hlive.pairwise_path hlinked hp hi
              exact Nat.le_of_lt ((List.pairwise_cons.mp hascending).1 _ hmem)
          have := hlt index (by simp)
          omega
        have hlive' := hlive.step hlinked hlinear hbefore hvalid
        have hp' := hlive.path_of_untouched hlinked hlinear hbefore hvalid hp hbehind huntouched
        have hi' : i ∉ s₁.removed := by
          rw [hremoved]
          simp [hi, huntouched i (by simp)]
        have hlive₁ : Live a₀ (tailWith tail f.root f.leaf) s₁.arena s₁.removed := by
          rw [harena, hremoved]
          exact hlive'
        exact (hrest _ hlive₁ hi' (harena ▸ hp')).imp_left fun htaken =>
          htaken.imp fun _ hf => ⟨.inr hf.1, hf.2⟩

/-- Once all candidates are visited, each of them that matched at first is served. -/
theorem isServed_of_visits (hlinked : a₀.WellLinked) (hlinear : t.root.isLinear = true)
    (henabled : c.disables t.name = .ok false)
    (hcandidates : g.candidates t.trigger = .ok candidates)
    (hascending : candidates.Pairwise (· < ·)) (hmem : i ∈ candidates)
    (hlive : Live a₀ tail s.arena s.removed) (hi : i ∉ s.removed)
    (hmatch : t.matchesAt s.arena i = .ok true)
    (h : candidates.foldlM (visit c heard t) s = .ok s') :
    IsServed (fusionsOver c heard t candidates s) s'.removed (i :: t.visits s.arena i) i := by
  obtain ⟨first, rest, hchain⟩ := Pattern.exists_chain_of_isLinear hlinear
  obtain ⟨v, hv, hisMatch⟩ := matchesAt_eq_ok.mp hmatch
  obtain ⟨ks, hp⟩ := Template.path_of_examine hchain hv hisMatch
  rw [hp.visits_eq hchain]
  obtain ⟨front, back, hsplit⟩ := List.append_of_mem hmem
  have hfront : ∀ j ∈ front, j ∈ candidates := fun j hj => by simp [hsplit, hj]
  have hlt : ∀ j ∈ front, j < i := fun j hj => by
    rw [hsplit] at hascending
    exact (List.pairwise_append.mp hascending).2.2 j hj i (by simp)
  have hvisits := h
  rw [hsplit, List.foldlM_append, bind_eq_ok] at hvisits
  obtain ⟨s₁, hbefore, hvisits⟩ := hvisits
  rw [List.foldlM_cons, bind_eq_ok] at hvisits
  obtain ⟨s₂, hvisit, -⟩ := hvisits
  rw [hsplit, fusionsOver_append hbefore]
  rcases path_of_visits hlinked hlinear henabled hcandidates hfront hlt hlive hi hp hbefore with
    ⟨f, hf, htaken⟩ | ⟨hi', hp'⟩
  · exact .inr (.inr ⟨f, List.mem_append_left _ hf, hlt _ (eq_of_mem_fusionsOver hf).2, htaken⟩)
  · -- The path is still there, so the visit fuses it.
    obtain ⟨f, hf⟩ := exists_fusionAt_of_visit hvisit hi' (Template.matchesAt_of_path hchain hp')
    obtain ⟨-, -, hroot, -⟩ := fusionAt_eq_some hf
    exact .inl ⟨f, by simp [fusionsOver, hf], hroot⟩

end Path

/-! ## Turns -/

/-- A turn of a template only fuses nodes that the graph was built with its starting type. -/
theorem eq_of_mem_fusionsBy {r : Registry} {ops : List Op} (hg : g.IsOf r ops) {f : Fusion}
    (h : f ∈ fusionsBy c heard g t s) :
    f.template = t ∧ ∃ op, ops[f.root]? = some op ∧ op.opType.same t.trigger = true := by
  unfold fusionsBy at h
  split at h
  next hcandidates =>
    obtain ⟨htemplate, hmem⟩ := eq_of_mem_fusionsOver h
    rw [hg.candidates_eq hcandidates, List.mem_filter, Option.any_eq_true] at hmem
    exact ⟨htemplate, hmem.2⟩
  next => simp at h

/-- In its turn a template serves every live node that it matched at when the turn began, of those
that the graph was built with its starting type. -/
theorem isServed_of_runTemplate {r : Registry} {ops : List Op} {a₀ : Arena} {tail : Nat → Nat}
    {i : Nat} {op : Op} (hg : g.IsOf r ops) (hlinked : a₀.WellLinked)
    (hlinear : t.root.isLinear = true) (henabled : c.disables t.name = .ok false)
    (hlive : Live a₀ tail s.arena s.removed) (hop : ops[i]? = some op)
    (hType : op.opType.same t.trigger = true) (hi : i ∉ s.removed)
    (hmatch : t.matchesAt s.arena i = .ok true) (h : runTemplate c heard g s t = .ok s') :
    IsServed (fusionsBy c heard g t s) s'.removed (i :: t.visits s.arena i) i := by
  rcases runTemplate_eq_ok h with ⟨hdisabled, -⟩ | ⟨-, candidates, hcandidates, hvisits⟩
  · rw [henabled] at hdisabled
    cases hdisabled
  · have heq := hg.candidates_eq hcandidates
    have hascending : candidates.Pairwise (· < ·) := by
      rw [heq]
      exact List.Pairwise.filter _ List.pairwise_lt_range
    have hmem : i ∈ candidates := by
      rw [heq, List.mem_filter, List.mem_range]
      exact ⟨(List.getElem?_eq_some_iff.mp hop).1, by simp [hop, hType]⟩
    have hover : fusionsBy c heard g t s = fusionsOver c heard t candidates s := by
      rw [fusionsBy, henabled, hcandidates]
    rw [hover]
    exact isServed_of_visits hlinked hlinear henabled hcandidates hascending hmem hlive hi hmatch
      hvisits

/-- Templates that are taken in order leave what their fusions leave. -/
theorem isLeft_of_runTemplates {todo : List Template} (h : s.runTemplates c heard g todo = .ok s') :
    IsLeft s.arena s.removed (fusionsOf c heard g todo s) s'.arena s'.removed :=
  runTemplates_induction (motive := IsLeft s.arena s.removed) (fun _ _ _ f h _ _ => h.step f)
    ⟨rfl, rfl⟩ h

end Pass

namespace Optimizer

variable {o : Optimizer} {g : Graph} {front back : List Template} {t : Template}

/-- A pass that comes to an end has had a turn of each of its templates. -/
theorem exists_turn {s : Pass} (h : o.fusePass g = .ok s) (hfuses : o.config.fuses = true)
    (hcatalog : o.catalog.templates = front ++ t :: back) : ∃ s₁ s₂,
      (o.firstPass g).runTemplates o.config o.heard g front = .ok s₁ ∧
      Pass.runTemplate o.config o.heard g s₁ t = .ok s₂ := by
  rcases fusePass_eq_ok h with ⟨-, h⟩ | ⟨hoff, -⟩
  · rw [hcatalog, Pass.runTemplates, List.foldlM_append, bind_eq_ok] at h
    obtain ⟨s₁, hfront, h⟩ := h
    rw [List.foldlM_cons, bind_eq_ok] at h
    obtain ⟨s₂, hturn, -⟩ := h
    exact ⟨s₁, s₂, hfront, hturn⟩
  · rw [hfuses] at hoff
    cases hoff

/-- With templates without branches the turn of each of them is complete as far as its candidates
go. Of the nodes that the graph was built with its starting type, each that is live and matches when
the turn begins is fused or absorbed when the turn ends, or an earlier fusion of the turn has
absorbed a node of the region that it begins. A node that was built with another type is not fused,
also where it has that type by now. -/
theorem isServed_of_isLinear {p : Program} {block : Block}
    (hlinear : ∀ t ∈ o.catalog.templates, t.root.isLinear = true) (hblock : p.blocks = [block])
    (hregistered : ∀ op ∈ block.ops, op.IsRegistered o.registry)
    (hcatalog : o.catalog.templates = front ++ t :: back)
    (henabled : o.config.disables t.name = .ok false) :
    ∃ g, Graph.build o.registry block.ops = .ok g ∧
      (∀ out, (o.optimize p).result = .ok out → o.config.fuses = true → ∃ s s',
        (o.firstPass g).runTemplates o.config o.heard g front = .ok s ∧
        Pass.runTemplate o.config o.heard g s t = .ok s') ∧
      ∀ s s', (o.firstPass g).runTemplates o.config o.heard g front = .ok s →
        Pass.runTemplate o.config o.heard g s t = .ok s' →
        IsLeft s.arena s.removed (Pass.fusionsBy o.config o.heard g t s) s'.arena s'.removed ∧
        (∀ f ∈ Pass.fusionsBy o.config o.heard g t s, f.template = t ∧
          ∃ op, block.ops[f.root]? = some op ∧ op.opType.same t.trigger = true) ∧
        ∀ i op, block.ops[i]? = some op → op.opType.same t.trigger = true → i ∉ s.removed →
          t.matchesAt s.arena i = .ok true →
          IsServed (Pass.fusionsBy o.config o.heard g t s) s'.removed (i :: t.visits s.arena i)
            i := by
  obtain ⟨g, hg⟩ := Graph.exists_build hregistered
  obtain ⟨hgraph, -⟩ := Graph.isOf_of_build hg
  have hlinked := hgraph.wellLinked
  refine ⟨g, hg, fun out hout hfuses => ?_, fun s s' hfront hturn =>
    ⟨Pass.isLeft_of_runTemplate hturn, fun f hf => Pass.eq_of_mem_fusionsBy hgraph hf,
      fun i op hop hType hi hmatch => ?_⟩⟩
  · obtain ⟨block', g', s, hblock', hg', hs, -⟩ := optimize_eq_ok hout
    rw [hblock] at hblock'
    cases hblock'
    rw [hg] at hg'
    cases hg'
    exact exists_turn hs hfuses hcatalog
  · -- The fusions before the turn have left a linked arena, whose paths are live.
    obtain ⟨harena, hremoved⟩ := Pass.isLeft_of_runTemplates hfront
    have hhistory : IsHistory o.config g o.catalog.templates g.arena []
        (Pass.fusionsOf o.config o.heard g front (o.firstPass g)) :=
      Pass.isHistory_fusionsOf (s := o.firstPass g) fun t' ht' => by simp [hcatalog, ht']
    obtain ⟨tail, hlive⟩ := Live.of_history hlinear hlinked hhistory
    have hlive' : Live g.arena tail s.arena s.removed := by
      rw [harena, hremoved]
      exact hlive
    exact Pass.isServed_of_runTemplate hgraph hlinked (hlinear t (by simp [hcatalog])) henabled
      hlive' hop hType hi hmatch hturn

end Optimizer

/-- A template, and one that takes up what it makes. -/
def convAddOnly : Template := .ofChain "conv_add" "conv2d" ["elementwise_add"] []

def convAddRelu : Template := .ofChain "conv_add_relu" "conv_add" ["relu"] []

/-- Two chains for the second of the templates: the first of them begins with what the first
template makes, the second with an operator of that type. -/
def stagedChains : List Op :=
  [.ofTexts "conv2d" [("Input", ["x"])] [("Output", ["c"])] [("Filter", ["w"])],
    .ofTexts "elementwise_add" [("X", ["c"])] [("Out", ["s"])] [("Y", ["b"])],
    .ofTexts "relu" [("X", ["s"])] [("Out", ["y"])],
    .ofTexts "conv_add" [("Input", ["y"])] [("Out", ["d"])] [("Filter", ["v"]), ("Bias", ["b"])],
    .ofTexts "relu" [("X", ["d"])] [("Out", ["z"])]]

/-- The optimizer that takes the two templates in order. -/
def Optimizer.inStages : Optimizer := .withTemplates [convAddOnly, convAddRelu]

/-- The moments at which the turn of the second template begins and ends, seen through a test. -/
def secondTurn (test : Graph → Pass → Pass → Bool) : Bool :=
  match Graph.build .standard stagedChains with
  | .error _ => false
  | .ok g => match (Optimizer.inStages.firstPass g).runTemplates {} false g [convAddOnly] with
    | .error _ => false
    | .ok s => match Pass.runTemplate {} false g s convAddRelu with
      | .error _ => false
      | .ok s' => test g s s'

theorem exists_of_secondTurn (test : Graph → Pass → Pass → Bool) (h : secondTurn test = true) :
    ∃ g s s', Graph.build .standard stagedChains = .ok g ∧
      (Optimizer.inStages.firstPass g).runTemplates {} false g [convAddOnly] = .ok s ∧
      Pass.runTemplate {} false g s convAddRelu = .ok s' ∧ test g s s' = true := by
  unfold secondTurn at h
  split at h
  · cases h
  next g hg =>
    split at h
    · cases h
    next s hs =>
      split at h
      · cases h
      next s' hs' => exact ⟨g, s, s', hg, hs, hs', h⟩

/-- Whether a template matches at a node. -/
def Template.finds (t : Template) (a : Arena) (i : Nat) : Bool :=
  match t.matchesAt a i with
  | .ok matched => matched
  | .error _ => false

theorem Template.matchesAt_of_finds {t : Template} {a : Arena} {i : Nat}
    (h : t.finds a i = true) : t.matchesAt a i = .ok true := by
  unfold finds at h
  split at h
  next matched hmatch => rw [hmatch, h]
  next => cases h

/-- The operator that had the type from the start is fused in the turn. -/
theorem isServed_stagedChains : ∃ g s s', Graph.build .standard stagedChains = .ok g ∧
    (Optimizer.inStages.firstPass g).runTemplates {} false g [convAddOnly] = .ok s ∧
    Pass.runTemplate {} false g s convAddRelu = .ok s' ∧
    convAddRelu.matchesAt s.arena 3 = .ok true ∧
    IsServed (Pass.fusionsBy {} false g convAddRelu s) s'.removed
      (3 :: convAddRelu.visits s.arena 3) 3 := by
  obtain ⟨g, s, s', hg, hs, hs', htest⟩ := exists_of_secondTurn
    (fun _ s _ => decide (3 ∉ s.removed) && convAddRelu.finds s.arena 3) (by decide +kernel)
  rw [Bool.and_eq_true, decide_eq_true_iff] at htest
  have hmatch := Template.matchesAt_of_finds htest.2
  have hlinear : ∀ t ∈ Optimizer.inStages.catalog.templates, t.root.isLinear = true := by
    decide +kernel
  have hregistered : ∀ op ∈ stagedChains, op.IsRegistered .standard := by decide +kernel
  have hblock : (Program.ofOps stagedChains).blocks = [{ ops := stagedChains }] := rfl
  have hcatalog : Optimizer.inStages.catalog.templates = [convAddOnly] ++ convAddRelu :: [] := rfl
  obtain ⟨g', hg', -, hturn⟩ := Optimizer.isServed_of_isLinear (o := .inStages) hlinear hblock
    hregistered hcatalog rfl
  rw [show Graph.build Optimizer.inStages.registry _ = .ok g from hg] at hg'
  cases hg'
  obtain ⟨-, -, hserved⟩ := hturn s s' hs hs'
  exact ⟨g, s, s', hg, hs, hs', hmatch, hserved 3 _ rfl (by decide +kernel) htest.1 hmatch⟩

/-- The operator that the first template has made is live, of the type and matches when the turn of
the second begins, and is left as it is: it is neither fused nor absorbed, and no fusion of the turn
absorbs a node of the region that it begins. -/
theorem not_isServed_stagedChains : ∃ g s s', Graph.build .standard stagedChains = .ok g ∧
    (Optimizer.inStages.firstPass g).runTemplates {} false g [convAddOnly] = .ok s ∧
    Pass.runTemplate {} false g s convAddRelu = .ok s' ∧ 0 ∉ s.removed ∧
    ((s.arena.op? 0).any fun op => op.opType.same convAddRelu.trigger) = true ∧
    convAddRelu.matchesAt s.arena 0 = .ok true ∧
    ¬ IsServed (Pass.fusionsBy {} false g convAddRelu s) s'.removed
      (0 :: convAddRelu.visits s.arena 0) 0 ∧
    ∀ f ∈ Pass.fusionsBy {} false g convAddRelu s, ∀ m ∈ f.made.absorbed,
      m ∉ 0 :: convAddRelu.visits s.arena 0 := by
  obtain ⟨g, s, s', hg, hs, hs', htest⟩ := exists_of_secondTurn
    (fun g s s' => (decide (0 ∉ s.removed ∧
      ((s.arena.op? 0).any fun op => op.opType.same convAddRelu.trigger) = true ∧
      ¬ IsServed (Pass.fusionsBy {} false g convAddRelu s) s'.removed
        (0 :: convAddRelu.visits s.arena 0) 0 ∧
      ∀ f ∈ Pass.fusionsBy {} false g convAddRelu s, ∀ m ∈ f.made.absorbed,
        m ∉ 0 :: convAddRelu.visits s.arena 0)) && convAddRelu.finds s.arena 0)
    (by decide +kernel)
  rw [Bool.and_eq_true, decide_eq_true_iff] at htest
  obtain ⟨⟨hlive, hType, hnot, huntaken⟩, hfinds⟩ := htest
  exact ⟨g, s, s', hg, hs, hs', hlive, hType, Template.matchesAt_of_finds hfinds, hnot, huntaken⟩

end TensorFusion
