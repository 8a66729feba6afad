import TensorFusion.Proofs.Standard.Chosen

/-!
# Proofs — Standard — At once

A pass of the standard templates makes the fusions that are chosen in the graph as it was built,
where what is fused reads one name at most. No fusion opens or closes a path that another one is
chosen for, so neither the order of the visits nor that of the templates matters, an addition alone
kept behind an addition with what follows it.
-/

namespace TensorFusion

/-- No template begins at a type that templates go on with. -/
theorem rootTypes_not_tailTypes : ∀ s ∈ rootTypes, s ∉ tailTypes := by decide

/-! ## One name to read -/

/-- Every operator that a standard template goes on with reads one name at most. -/
def TailsReadOne (ops : List Op) : Prop :=
  ∀ op ∈ ops, op.HasType tailTypes → (Registry.standard.reads op).length ≤ 1

instance (ops : List Op) : Decidable (TailsReadOne ops) :=
  inferInstanceAs <| Decidable <|
    ∀ op ∈ ops, op.HasType tailTypes → (Registry.standard.reads op).length ≤ 1

/-- Where what is fused has one producer at most, an operator that is left as it was has the
consumers that it had. -/
theorem StandardRun.outputs_eq_of_live {ops : List Op} {fs : List Fusion} {g : Graph} {a : Arena}
    {removed : List Nat} (h : StandardRun ops fs g a removed) (hsingle : TailsReadOne ops) {m : Nat}
    (hm : m ∉ removed) (hnew : ∀ f ∈ fs, m ≠ f.root) : a.outputs m = g.arena.outputs m := by
  rw [h.shot.live.outputs m hm, h.shot.tail_ne m hnew, List.filter_eq_self]
  intro k hk
  rw [decide_eq_true_eq, h.shot.removed_eq]
  intro hremoved
  obtain ⟨f, hf, hkf⟩ := List.mem_flatMap.mp hremoved
  have hstands := h.shot.stands f hf
  obtain ⟨_, _, _, -, hpath⟩ := hstands.exists_path
  obtain ⟨m', hm', hout⟩ := hpath.exists_producer hkf
  obtain ⟨op, hop, hType⟩ := hstands.absorbed_op hkf
  rw [h.graph.op?] at hop
  -- What was absorbed has one producer, so the operator is one of those that were fused.
  have hlength : (producersOf .standard ops k).length ≤ 1 := by
    rw [producersOf_eq hop]
    exact Nat.le_trans (List.length_filterMap_le _ _) (hsingle op (List.mem_of_getElem? hop) hType)
  have hmem := h.graph.mem_outputs.mp hk
  have hmem' := h.graph.mem_outputs.mp (hstands.edge m' hm' k (by simp [hout]))
  obtain ⟨n, hn⟩ := List.length_eq_one_iff.mp
    (Nat.le_antisymm hlength (List.length_pos_of_mem hmem))
  rw [hn, List.mem_singleton] at hmem hmem'
  obtain rfl : m = m' := hmem.trans hmem'.symm
  rcases List.mem_cons.mp hm' with heq | hm'
  · exact hnew f hf heq
  · exact hm (hstands.absorbed_removed m hm')

/-! ## Paths at a moment -/

namespace StandardRun

variable {ops : List Op} {fs : List Fusion} {g : Graph} {a : Arena} {removed : List Nat}
  {first : Value} {types : List Value} {i : Nat} {ks : List Nat}

/-- A path of the first graph that begins at a live node which nothing was fused into is still
there, if it goes over the types that a standard template goes on with. -/
theorem path_of_first (h : StandardRun ops fs g a removed) (hsingle : TailsReadOne ops)
    (hp : g.arena.Path first types i ks) (htypes : ∀ ty ∈ types, ∃ s ∈ tailTypes, ty = .text s)
    (hlive : i ∉ removed) (hnew : ∀ f ∈ fs, i ≠ f.root) : a.Path first types i ks := by
  induction hp with
  | last hop hType => exact .last (by rw [h.shot.op?_ne _ hnew, hop]) hType
  | @step _ second _ i k _ _ hop hType hout hrest ih =>
    have hout' : a.outputs i = [k] := (h.outputs_eq_of_live hsingle hlive hnew).trans hout
    have hkLive : k ∉ removed := h.shot.live.live_of_mem_outputs hlive (by simp [hout'])
    have hkNew : ∀ f ∈ fs, k ≠ f.root := by
      -- What a path goes on with is no convolution, so nothing was fused into it.
      rintro f hf rfl
      obtain ⟨op, hop, s, hs, hroot⟩ := (h.shot.stands f hf).root_op
      obtain ⟨op', hop', hsecond⟩ := hrest.head
      obtain rfl : op = op' := Option.some.inj (hop.symm.trans hop')
      obtain ⟨s', hs', rfl⟩ := htypes second (by simp)
      obtain rfl : s = s' := by simpa [hroot] using hsecond
      exact rootTypes_not_tailTypes s hs hs'
    refine .step (by rw [h.shot.op?_ne _ hnew, hop]) hType hout' ?_
    exact ih (fun ty hty => htypes ty (List.mem_cons_of_mem _ hty)) hkLive hkNew

/-- A path that a standard template finds at a live node was there when the graph was built. -/
theorem first_of_path (h : StandardRun ops fs g a removed) (hsingle : TailsReadOne ops)
    {t : Template} (ht : t ∈ Template.standard) (hroot : t.root = .chain first types)
    (hp : a.Path first types i ks) (hlive : i ∉ removed) : g.arena.Path first types i ks := by
  have hnew : ∀ m ∈ i :: ks, ∀ f ∈ fs, m ≠ f.root := fun m hm =>
    h.shot.not_root_of_mem_path Template.standard_areFinal ht hroot hp hm
  refine hp.congr (fun m hm => ?_) fun m hm k _ hout => ?_
  · rw [h.shot.op?_ne m (hnew m hm)]
  · rw [← h.outputs_eq_of_live hsingle (h.shot.live.live_of_mem_path hp hlive hm) (hnew m hm), hout]

/-- A standard template is followed from no node that is absorbed. -/
theorem not_removed_of_follow (h : StandardRun ops fs g a removed) {t : Template}
    (ht : t ∈ Template.standard) {path : List Nat} (hfollow : g.arena.follow t.root i = some path) :
    i ∉ removed := by
  intro hremoved
  rw [h.shot.removed_eq] at hremoved
  obtain ⟨f, hf, hi⟩ := List.mem_flatMap.mp hremoved
  obtain ⟨op, hop, s, hs, hType⟩ := (h.shot.stands f hf).absorbed_op hi
  obtain ⟨first, second, rest, ks, hchain, -, hp⟩ := Template.exists_path_of_follow ht hfollow
  obtain ⟨op', hop', hfirst⟩ := hp.head
  obtain rfl : op = op' := Option.some.inj (hop.symm.trans hop')
  obtain rfl : s = first := by simpa [hType] using hfirst
  exact rootTypes_not_tailTypes s hchain.first_mem hs

end StandardRun

/-! ## Visits -/

/-- What some visits choose at a node: the first of their templates at the node that can be
followed. -/
def Arena.chosenBy (a : Arena) (visits : List (Template × Nat)) (i : Nat) :
    Option (Template × List Nat) :=
  visits.findSome? fun visit =>
    if visit.2 = i then (a.follow visit.1.root i).map (visit.1, ·) else none

/-- After some visits, the fusions that were made are those that the visits choose. -/
structure FusesChosen (ops : List Op) (g : Graph) (visits : List (Template × Nat))
    (fs : List Fusion) (a : Arena) (removed : List Nat) : Prop where
  run : StandardRun ops fs g a removed
  chosen : ∀ f ∈ fs, g.arena.chosenBy visits f.root = some (f.template, f.members)
  fused : ∀ i, (g.arena.chosenBy visits i).isSome = true → ∃ f ∈ fs, f.root = i

section Visits

variable {ops : List Op} {g g' : Graph} {visits : List (Template × Nat)} {fs : List Fusion}
  {s s' : Pass} {c : Config} {heard : Bool} {t : Template} {i : Nat}

theorem Arena.chosenBy_append (a : Arena) (visits more : List (Template × Nat)) (i : Nat) :
    a.chosenBy (visits ++ more) i = (a.chosenBy visits i).or (a.chosenBy more i) :=
  List.findSome?_append

theorem Arena.chosenBy_singleton (a : Arena) (t : Template) (j i : Nat) :
    a.chosenBy [(t, j)] i = if j = i then (a.follow t.root i).map (t, ·) else none :=
  List.findSome?_singleton

/-- A visit that fuses nothing chooses nothing new. -/
theorem FusesChosen.visit_none (h : FusesChosen ops g visits fs s.arena s.removed)
    (hsingle : TailsReadOne ops) (ht : t ∈ Template.standard)
    (hvisit : Pass.visit c heard t s i = .ok s') (hnone : s.fusionAt t i = none) :
    FusesChosen ops g (visits ++ [(t, i)]) fs s.arena s.removed where
  run := h.run
  chosen := fun f hf => by rw [Arena.chosenBy_append, h.chosen f hf, Option.some_or]
  fused := fun j hj => by
    by_contra hnew
    have hold : g.arena.chosenBy visits j = none := by
      rw [← Option.not_isSome_iff_eq_none]
      exact fun hsome => hnew (h.fused j hsome)
    rw [Arena.chosenBy_append, hold, Option.none_or, Arena.chosenBy_singleton] at hj
    split at hj
    next heq =>
      subst heq
      rw [Option.isSome_map, Option.isSome_iff_exists] at hj
      obtain ⟨path, hfollow⟩ := hj
      have hlive := h.run.not_removed_of_follow ht hfollow
      obtain ⟨first, second, rest, ks, hchain, -, hp⟩ := Template.exists_path_of_follow ht hfollow
      have htypes : ∀ ty ∈ (second :: rest).map Value.text, ∃ s ∈ tailTypes, ty = .text s := by
        intro ty hty
        obtain ⟨s, hs, rfl⟩ := List.mem_map.mp hty
        exact ⟨s, hchain.rest_mem s hs, rfl⟩
      -- The path is still there, so the visit has fused it.
      have hthere := h.run.path_of_first hsingle hp htypes hlive
        fun f hf heq => hnew ⟨f, hf, heq.symm⟩
      obtain ⟨f, hf⟩ := Pass.exists_fusionAt_of_visit hvisit hlive
        (Template.matchesAt_of_path hchain.root hthere)
      rw [hnone] at hf
      cases hf
    next => cases hj

/-- A visit that fuses a path has chosen it. -/
theorem FusesChosen.visit_some (h : FusesChosen ops g visits fs s.arena s.removed)
    (hsingle : TailsReadOne ops) {f : Fusion} (hsome : s.fusionAt t i = some f)
    (hvalid : f.IsValid c g' Template.standard s.removed) :
    FusesChosen ops g (visits ++ [(t, i)]) (fs ++ [f]) f.made.arena
      (Pass.absorbedWith s.removed f) := by
  obtain ⟨hbefore, rfl, rfl, hlive, -, -⟩ := Pass.fusionAt_eq_some hsome
  have hTypes := h.run.graph.exists_opType h.run.named
  have hfinal := Template.standard_areFinal
  obtain ⟨first, second, rest, hroot, hp, -⟩ :=
    h.run.shot.exists_path h.run.graph.wellLinked hTypes hfinal hbefore hvalid
  have hnew : ∀ f' ∈ fs, f.root ≠ f'.root :=
    h.run.shot.not_root_of_mem_path hfinal hvalid.template_mem hroot hp (List.mem_cons_self ..)
  have hold : g.arena.chosenBy visits f.root = none := by
    rw [← Option.not_isSome_iff_eq_none]
    intro hchosen
    obtain ⟨f', hf', heq⟩ := h.fused f.root hchosen
    exact hnew f' hf' heq.symm
  have hfollow : g.arena.follow f.template.root f.root = some f.members := by
    rw [hroot]
    exact Arena.follow_chain_iff.mpr
      ⟨_, rfl, h.run.first_of_path hsingle hvalid.template_mem hroot hp hlive⟩
  refine ⟨⟨h.run.graph, h.run.named, ?_⟩, fun f' hf' => ?_, fun j hj => ?_⟩
  · exact h.run.shot.step h.run.graph.wellLinked hTypes hfinal hbefore hvalid
  · rw [Arena.chosenBy_append]
    rcases List.mem_append.mp hf' with hf' | hf'
    · rw [h.chosen f' hf', Option.some_or]
    · rw [List.mem_singleton.mp hf', hold, Option.none_or, Arena.chosenBy_singleton, if_pos rfl,
        hfollow]
      rfl
  · rw [Arena.chosenBy_append, Option.isSome_or, Bool.or_eq_true, Arena.chosenBy_singleton] at hj
    rcases hj with hj | hj
    · obtain ⟨f', hf', heq⟩ := h.fused j hj
      exact ⟨f', List.mem_append_left _ hf', heq⟩
    · split at hj
      next heq => exact ⟨f, by simp, heq⟩
      next => cases hj

/-- After every visit of a pass the fusions are those that the visits choose. -/
theorem FusesChosen.visit (h : FusesChosen ops g visits fs s.arena s.removed)
    (hsingle : TailsReadOne ops) (ht : t ∈ Template.standard)
    (henabled : c.disables t.name = .ok false) {candidates : List Nat}
    (hcandidates : g'.candidates t.trigger = .ok candidates) (hi : i ∈ candidates)
    (hvisit : Pass.visit c heard t s i = .ok s') :
    ∃ fs', FusesChosen ops g (visits ++ [(t, i)]) fs' s'.arena s'.removed := by
  rcases Pass.visit_eq_ok hvisit with ⟨hnone, harena, hremoved⟩ | ⟨f, hsome, harena, hremoved⟩
  · rw [harena, hremoved]
    exact ⟨fs, h.visit_none hsingle ht hvisit hnone⟩
  · obtain ⟨-, hvalid⟩ := Pass.isValid_of_fusionAt ht henabled hcandidates hi hsome
    rw [harena, hremoved]
    exact ⟨fs ++ [f], h.visit_some hsingle hsome hvalid⟩

/-! ## Runs -/

/-- The visits that a template makes when it is its turn. -/
def Config.visitsOf (c : Config) (g : Graph) (t : Template) : List (Template × Nat) :=
  match c.disables t.name, g.candidates t.trigger with
  | .ok false, .ok candidates => candidates.map (t, ·)
  | _, _ => []

theorem FusesChosen.runTemplate (h : FusesChosen ops g visits fs s.arena s.removed)
    (hsingle : TailsReadOne ops) (ht : t ∈ Template.standard)
    (hturn : Pass.runTemplate c heard g' s t = .ok s') :
    ∃ fs', FusesChosen ops g (visits ++ c.visitsOf g' t) fs' s'.arena s'.removed := by
  rcases Pass.runTemplate_eq_ok hturn with ⟨hdisabled, rfl⟩ |
    ⟨hdisabled, candidates, hcandidates, hturn⟩
  · rw [Config.visitsOf, hdisabled, List.append_nil, Pass.note_arena, Pass.note_removed]
    exact ⟨fs, h⟩
  · rw [Config.visitsOf, hdisabled, hcandidates]
    refine foldlM_induction (motive := fun done (s : Pass) => ∃ fs,
      FusesChosen ops g (visits ++ done.map (t, ·)) fs s.arena s.removed) ⟨fs, by simpa using h⟩
      (fun done i rest s s' hsplit hs hvisit => ?_) hturn
    obtain ⟨fs, hs⟩ := hs
    obtain ⟨fs', hs'⟩ := hs.visit hsingle ht hdisabled hcandidates (by simp [hsplit]) hvisit
    exact ⟨fs', by simpa using hs'⟩

theorem FusesChosen.runTemplates {templates : List Template}
    (h : FusesChosen ops g [] [] s.arena s.removed) (hsingle : TailsReadOne ops)
    (ht : ∀ t ∈ templates, t ∈ Template.standard)
    (hrun : s.runTemplates c heard g' templates = .ok s') :
    ∃ fs, FusesChosen ops g (templates.flatMap (c.visitsOf g')) fs s'.arena s'.removed := by
  refine foldlM_induction (motive := fun done (s : Pass) => ∃ fs,
    FusesChosen ops g (done.flatMap (c.visitsOf g')) fs s.arena s.removed) ⟨[], h⟩
    (fun done t rest s s' hsplit hs hturn => ?_) hrun
  obtain ⟨fs, hs⟩ := hs
  obtain ⟨fs', hs'⟩ := hs.runTemplate hsingle (ht t (by simp [hsplit])) hturn
  exact ⟨fs', by simpa using hs'⟩

end Visits

/-! ## Results -/

/-- Another graph with the same arena, in which the candidates are visited in another order. -/
structure Graph.IsReordering (g g' : Graph) : Prop where
  arena : g'.arena = g.arena
  candidates : ∀ v candidates, g.candidates v = .ok candidates →
    ∃ candidates', g'.candidates v = .ok candidates' ∧ candidates'.Perm candidates

theorem Graph.IsReordering.refl (g : Graph) : g.IsReordering g where
  arena := rfl
  candidates := fun _ candidates h => ⟨candidates, h, .refl _⟩

/-- The candidates can be put into any order. -/
theorem Graph.IsReordering.of_perm (g : Graph) {order : List Nat → List Nat}
    (horder : ∀ candidates, (order candidates).Perm candidates) :
    g.IsReordering { g with groups := g.groups.mapValues order } where
  arena := rfl
  candidates := fun v candidates h => by
    cases v with
    | atom a =>
      cases h
      refine ⟨(((g.groups.mapValues order).get? a)).getD [], rfl, ?_⟩
      rw [Table.get?_mapValues]
      cases g.groups.get? a with
      | none => exact .refl _
      | some candidates => exact horder candidates
    | list items => cases h
    | map entries => cases h

theorem Graph.IsReordering.isSound {g g' : Graph} (h : g.IsReordering g') (hg : g.IsSound) :
    g'.IsSound where
  arena := h.arena ▸ hg.arena
  candidates := fun v indices hindices i hi => by
    cases v with
    | atom a =>
      have hcandidates : g.candidates (.atom a) = .ok ((g.groups.get? a).getD []) := rfl
      obtain ⟨indices', hindices', hperm⟩ := h.candidates _ _ hcandidates
      rw [hindices] at hindices'
      cases hindices'
      rw [h.arena]
      exact hg.candidates _ _ hcandidates i (hperm.mem_iff.mp hi)
    | list items => cases hindices
    | map entries => cases hindices

section Results

variable {ops : List Op} {g g' : Graph} {fs : List Fusion} {a : Arena} {removed : List Nat}
  {visits : List (Template × Nat)} {templates : List Template} {c : Config} {i : Nat}

/-- The visits of a template choose what the template chooses, at the nodes that are visited. -/
theorem Arena.chosenBy_map (a : Arena) (t : Template) (candidates : List Nat) (i : Nat) :
    a.chosenBy (candidates.map (t, ·)) i
      = if i ∈ candidates then (a.follow t.root i).map (t, ·) else none := by
  induction candidates with
  | nil => rfl
  | cons j candidates ih =>
    rw [List.map_cons, ← List.singleton_append, chosenBy_append, chosenBy_singleton, ih]
    by_cases hj : j = i
    · subst hj
      by_cases hmem : j ∈ candidates <;> simp [hmem]
    · simp [hj, Ne.symm hj]

/-- The turn of a template chooses what the template chooses, if it is switched on: each node that
it can be followed from is one of its candidates. -/
theorem Graph.IsOf.chosenBy_visitsOf (hg : g.IsOf .standard ops) (hg' : g.IsReordering g')
    {t : Template} (ht : t ∈ Template.standard) (i : Nat) : g.arena.chosenBy (c.visitsOf g' t) i
      = if c.enables t then (g.arena.follow t.root i).map (t, ·) else none := by
  unfold Config.visitsOf Config.enables
  cases c.disables t.name with
  | error e => rfl
  | ok disabled =>
    cases disabled with
    | true => rfl
    | false =>
      cases hfollow : g.arena.follow t.root i with
      | none =>
        cases g'.candidates t.trigger with
        | error e => rfl
        | ok candidates =>
          show g.arena.chosenBy (candidates.map (t, ·)) i = _
          rw [Arena.chosenBy_map, hfollow]
          split <;> rfl
      | some path =>
        obtain ⟨first, second, rest, ks, hchain, -, hp⟩ := Template.exists_path_of_follow ht hfollow
        obtain ⟨candidates, hcandidates, hi⟩ :=
          Template.exists_candidates_of_path ht hchain.root hg hp (hg.op? i)
        obtain ⟨candidates', hcandidates', hperm⟩ := hg'.candidates _ _ hcandidates
        rw [hcandidates']
        show g.arena.chosenBy (candidates'.map (t, ·)) i = _
        rw [Arena.chosenBy_map, hfollow, if_pos (hperm.mem_iff.mpr hi)]
        rfl

/-- The turns of some templates choose what those of them choose that are switched on. -/
theorem Graph.IsOf.chosenBy_flatMap (hg : g.IsOf .standard ops) (hg' : g.IsReordering g')
    (ht : ∀ t ∈ templates, t ∈ Template.standard) (i : Nat) :
    g.arena.chosenBy (templates.flatMap (c.visitsOf g')) i
      = g.arena.chosenAt (templates.filter c.enables) i := by
  induction templates with
  | nil => rfl
  | cons t templates ih =>
    rw [List.flatMap_cons, Arena.chosenBy_append, hg.chosenBy_visitsOf hg' (ht t (by simp)),
      ih fun t' ht' => ht t' (by simp [ht'])]
    by_cases henabled : c.enables t = true
    · rw [if_pos henabled, List.filter_cons_of_pos henabled, Arena.chosenAt, Arena.chosenAt,
        List.findSome?_cons]
      cases (g.arena.follow t.root i).map (t, ·) <;> rfl
    · rw [if_neg henabled, List.filter_cons_of_neg henabled, Option.none_or]

/-- Where the fusions are those that are chosen, what they absorb is swallowed. -/
theorem FusesChosen.mem_removed_iff (h : FusesChosen ops g visits fs a removed)
    (hchosen : ∀ i, g.arena.chosenBy visits i = g.arena.chosenAt templates i) :
    i ∈ removed ↔ i ∈ g.arena.swallowed templates := by
  rw [h.run.shot.removed_eq, Arena.swallowed, List.mem_flatMap, List.mem_flatMap]
  constructor
  · rintro ⟨f, hf, hi⟩
    obtain ⟨op, hop, -⟩ := (h.run.shot.stands f hf).root_op
    refine ⟨f.root, List.mem_range.mpr (Arena.lt_size_of_op? hop), ?_⟩
    rw [← hchosen, h.chosen f hf]
    exact hi
  · rintro ⟨root, -, hi⟩
    rw [← hchosen] at hi
    cases hroot : g.arena.chosenBy visits root with
    | none => simp [hroot] at hi
    | some choice =>
      obtain ⟨f, hf, rfl⟩ := h.fused root (by rw [hroot]; rfl)
      rw [h.chosen f hf] at hi
      exact ⟨f, hf, hi⟩

/-- Where the fusions are those that are chosen, an operator becomes what the rewriting makes of
it. -/
theorem FusesChosen.op?_eq (h : FusesChosen ops g visits fs a removed)
    (hchosen : ∀ i, g.arena.chosenBy visits i = g.arena.chosenAt templates i) :
    a.op? i = g.arena.rewriteAt templates i := by
  rw [Arena.rewriteAt, ← hchosen]
  cases hchoice : g.arena.chosenBy visits i with
  | none =>
    refine h.run.shot.op?_ne i fun f hf heq => ?_
    rw [heq, h.chosen f hf] at hchoice
    cases hchoice
  | some choice =>
    obtain ⟨f, hf, rfl⟩ := h.fused i (by rw [hchoice]; rfl)
    rw [h.chosen f hf] at hchoice
    cases hchoice
    rw [h.run.shot.op?_root f hf]
    refine congrArg (fun made => (g.arena.op? f.root).map made) (funext fun op => ?_)
    exact f.template.fusedOp_eq_chainOp op _

/-- Where the fusions are those that are chosen, the operators that are left are those of the
rewriting. -/
theorem FusesChosen.survivors_eq (h : FusesChosen ops g visits fs a removed)
    (hchosen : ∀ i, g.arena.chosenBy visits i = g.arena.chosenAt templates i) :
    (survivorsOf removed a.size).filterMap a.op? = g.arena.rewrite templates := by
  have hpositions : survivorsOf removed a.size
      = survivorsOf (g.arena.swallowed templates) g.arena.size := by
    rw [h.run.shot.live.size, survivorsOf, survivorsOf]
    exact List.filter_congr fun i _ => by simp [h.mem_removed_iff hchosen]
  rw [Arena.rewrite, ← hpositions]
  exact List.filterMap_congr fun i _ => h.op?_eq hchosen

/-- Paths that are chosen at different nodes have no node in common. -/
theorem FusesChosen.disjoint (h : FusesChosen ops g visits fs a removed)
    {choice choice' : Template × List Nat} {j : Nat} (hne : i ≠ j)
    (hi : g.arena.chosenBy visits i = some choice)
    (hj : g.arena.chosenBy visits j = some choice') : choice.2.Disjoint choice'.2 := by
  obtain ⟨f, hf, rfl⟩ := h.fused i (by rw [hi]; rfl)
  obtain ⟨f', hf', rfl⟩ := h.fused j (by rw [hj]; rfl)
  rw [h.chosen f hf] at hi
  rw [h.chosen f' hf'] at hj
  cases hi
  cases hj
  exact h.run.shot.disjoint_members hf hf' hne

end Results

/-- An optimizer with the standard registry and the standard templates in any order in which an
addition alone does not come before an addition with what follows it. -/
structure Optimizer.IsRearranged (o : Optimizer) : Prop where
  registry : o.registry = .standard
  templates : o.catalog.templates.Perm Template.standard
  order : Template.KeepOrder o.catalog.templates

namespace Optimizer.IsRearranged

variable {o : Optimizer} {ops : List Op} {g g' : Graph}

theorem mem_standard (ho : o.IsRearranged) : ∀ t ∈ o.catalog.templates, t ∈ Template.standard :=
  fun _ ht => ho.templates.mem_iff.mp ht

/-- What is chosen does not depend on the order of the templates. -/
theorem chosenAt_enabled (ho : o.IsRearranged) (c : Config) (a : Arena) (i : Nat) :
    a.chosenAt (c.enabled o.catalog.templates) i = a.chosenAt (c.enabled Template.standard) i := by
  unfold Config.enabled
  split
  · exact Arena.chosenAt_perm (fun t ht => ho.mem_standard t (List.mem_filter.mp ht).1)
      (ho.templates.filter _) (List.Pairwise.filter _ ho.order)
      (List.Pairwise.filter _ Template.standard_keepOrder) i
  · rfl

/-- A pass makes the fusions that are chosen, in whatever order the candidates are visited. -/
theorem exists_fusesChosen (ho : o.IsRearranged) (hg : g.IsOf .standard ops)
    (hnamed : ∀ op ∈ ops, op.IsNamed .standard) (hsingle : TailsReadOne ops)
    (hg' : g.IsReordering g') {s : Pass} (hs : o.fusePass g' = .ok s) :
    ∃ visits fs, FusesChosen ops g visits fs s.arena s.removed ∧ ∀ i,
      g.arena.chosenBy visits i = g.arena.chosenAt (o.config.enabled Template.standard) i := by
  have hstart : FusesChosen ops g [] [] g'.arena [] := by
    rw [hg'.arena]
    exact ⟨⟨hg, hnamed, OneShot.start _ _⟩, by simp, fun i hi => by cases hi⟩
  simp only [← ho.chosenAt_enabled]
  unfold Config.enabled
  rcases fusePass_eq_ok hs with ⟨hfuses, hs⟩ | ⟨hoff, harena, hremoved⟩
  · obtain ⟨fs, hfs⟩ := FusesChosen.runTemplates (s := o.firstPass g') hstart hsingle
      ho.mem_standard hs
    refine ⟨_, fs, hfs, fun i => ?_⟩
    rw [if_pos hfuses]
    exact hg.chosenBy_flatMap hg' ho.mem_standard i
  · refine ⟨[], [], ?_, fun i => by rw [hoff]; rfl⟩
    rw [harena, hremoved]
    exact hstart

/-- A pass over the graph of registered operators comes to an end. -/
theorem exists_pass (ho : o.IsRearranged) (hg : g.IsSound)
    (hdisables : ∀ t ∈ Template.standard, ∃ b, o.config.disables t.name = .ok b) :
    ∃ s, o.fusePass g = .ok s :=
  exists_fusePass hg (fun t ht => Template.standard_canRun t (ho.mem_standard t ht))
    fun _ t ht => hdisables t (ho.mem_standard t ht)

end Optimizer.IsRearranged

theorem Optimizer.IsStandard.isRearranged {o : Optimizer} (ho : o.IsStandard) : o.IsRearranged where
  registry := ho.registry
  templates := ho.templates ▸ List.Perm.refl _
  order := ho.templates ▸ Template.standard_keepOrder

/-- Where what is fused reads one name at most, an optimization replaces the chosen paths at once.
They have no node in common, and neither the order of the candidates nor that of the templates is of
any account. -/
theorem Optimizer.IsRearranged.optimize_eq_rewrite {o : Optimizer} (ho : o.IsRearranged)
    (hdisables : ∀ t ∈ Template.standard, ∃ b, o.config.disables t.name = .ok b) {p : Program}
    {block : Block} (hblock : p.blocks = [block])
    (hregistered : ∀ op ∈ block.ops, op.IsRegistered .standard)
    (hsingle : TailsReadOne block.ops) :
    ∃ g, Graph.build .standard block.ops = .ok g ∧
      (∀ i j choice choice', i ≠ j →
        g.arena.chosenAt (o.config.enabled Template.standard) i = some choice →
        g.arena.chosenAt (o.config.enabled Template.standard) j = some choice' →
        choice.2.Disjoint choice'.2) ∧
      (o.optimize p).result = .ok { program := { blocks :=
        [{ vars := block.vars, ops := g.arena.rewrite (o.config.enabled Template.standard) }] } } ∧
      ∀ g', g.IsReordering g' → (o.runOn block g').result = (o.optimize p).result := by
  obtain ⟨g, hg⟩ := Graph.exists_build hregistered
  obtain ⟨hgraph, hnamed⟩ := Graph.isOf_of_build hg
  have hsound : g.IsSound := hgraph.isSound fun op hop => by
    obtain ⟨s, hs⟩ := (hregistered op hop).exists_text
    rw [hs]
    rfl
  have hrun : ∀ g', g.IsReordering g' → (o.runOn block g').result = .ok { program :=
      { blocks :=
        [{ vars := block.vars, ops := g.arena.rewrite (o.config.enabled Template.standard) }] } }
      := by
    intro g' hg'
    obtain ⟨s, hs⟩ := ho.exists_pass (hg'.isSound hsound) hdisables
    obtain ⟨visits, fs, hfs, hchosen⟩ := ho.exists_fusesChosen hgraph hnamed hsingle hg' hs
    simp only [runOn, hs, Pass.survivors_eq, hfs.survivors_eq hchosen]
  have hoptimize : o.optimize p = o.runOn block g :=
    optimize_of_build hblock (ho.registry ▸ hg)
  refine ⟨g, hg, fun i j choice choice' hne hi hj => ?_, ?_, fun g' hg' => ?_⟩
  · obtain ⟨s, hs⟩ := ho.exists_pass hsound hdisables
    obtain ⟨visits, fs, hfs, hchosen⟩ :=
      ho.exists_fusesChosen hgraph hnamed hsingle (.refl g) hs
    exact hfs.disjoint hne ((hchosen i).trans hi) ((hchosen j).trans hj)
  · rw [hoptimize]
    exact hrun g (.refl g)
  · rw [hoptimize, hrun g' hg', hrun g (.refl g)]

/-- A chain of each kind between the operators of the others, and a convolution with a normalization
for which no template is switched on below. -/
def interlacedChains : List Op :=
  [.ofTexts "conv2d" [("Input", ["x"])] [("Output", ["c"])] [("Filter", ["v"])],
    .ofTexts "depthwise_conv2d" [("Input", ["y"])] [("Output", ["d"])] [("Filter", ["w"])],
    .ofTexts "elementwise_add" [("X", ["c"])] [("Out", ["s"])] [("Y", ["z"])],
    .ofTexts "batch_norm" [("X", ["d"])] [("Y", ["n"])],
    .ofTexts "batch_norm" [("X", ["s"])] [("Y", ["m"])],
    .ofTexts "relu" [("X", ["n"])] [("Out", ["r"])],
    .ofTexts "relu" [("X", ["m"])] [("Out", ["q"])],
    .ofTexts "conv2d" [("Input", ["q"])] [("Output", ["e"])] [("Filter", ["v"])],
    .ofTexts "batch_norm" [("X", ["e"])] [("Y", ["f"])],
    .ofTexts "relu" [("X", ["f"])] [("Out", ["h"])]]

/-- The additions come last, and a convolution is not fused with a normalization alone. -/
def Optimizer.additionsLast : Optimizer where
  registry := .standard
  catalog :=
    { templates := [.convNormRelu, .depthwiseNormRelu, .convAddNormRelu, .convAdd] }
  config := { disabled := .series ["conv_bn_relu"] }

theorem Optimizer.additionsLast_isRearranged : additionsLast.IsRearranged where
  registry := rfl
  templates := by
    show (Template.standard.drop 2 ++ Template.standard.take 2).Perm
      (Template.standard.take 2 ++ Template.standard.drop 2)
    exact List.perm_append_comm
  order := Template.keepOrder_of_names (by decide +kernel)

/-- Two chains are chosen, also where the candidates are visited from the last one on. -/
theorem optimize_eq_rewrite_interlacedChains :
    (∀ op ∈ interlacedChains, op.IsRegistered .standard) ∧ TailsReadOne interlacedChains ∧
    (Optimizer.additionsLast.fusions (.ofOps interlacedChains)).map (·.members)
      = [[1, 3, 5], [0, 2, 4, 6]] ∧
    ∃ g, Graph.build .standard interlacedChains = .ok g ∧
      (∀ i j choice choice', i ≠ j →
        g.arena.chosenAt (Optimizer.additionsLast.config.enabled Template.standard) i
          = some choice →
        g.arena.chosenAt (Optimizer.additionsLast.config.enabled Template.standard) j
          = some choice' →
        choice.2.Disjoint choice'.2) ∧
      (Optimizer.additionsLast.optimize (.ofOps interlacedChains)).result = .ok {
        program := .ofOps
          (g.arena.rewrite (Optimizer.additionsLast.config.enabled Template.standard)) } ∧
      (Optimizer.additionsLast.runOn { ops := interlacedChains }
          { g with groups := g.groups.mapValues List.reverse }).result
        = (Optimizer.additionsLast.optimize (.ofOps interlacedChains)).result := by
  have hregistered : ∀ op ∈ interlacedChains, op.IsRegistered .standard := by decide +kernel
  have hsingle : TailsReadOne interlacedChains := by decide +kernel
  have hdisables : ∀ t ∈ Template.standard,
      ∃ b, Optimizer.additionsLast.config.disables t.name = .ok b := by
    intro t _
    exact ⟨_, rfl⟩
  have hblock : (Program.ofOps interlacedChains).blocks = [{ ops := interlacedChains }] := rfl
  obtain ⟨g, hg, hdisjoint, hresult, hvisits⟩ := Optimizer.IsRearranged.optimize_eq_rewrite
    Optimizer.additionsLast_isRearranged hdisables hblock hregistered hsingle
  exact ⟨hregistered, hsingle, by decide +kernel, g, hg, hdisjoint, hresult,
    hvisits _ (.of_perm g List.reverse_perm)⟩

/-- An addition that puts its result out twice under one name. -/
def doubledOutput : List Op :=
  [.ofTexts "conv2d" [("Input", ["x"])] [("Output", ["a"])] [("Filter", ["w"])],
    .ofTexts "elementwise_add" [("X", ["a"])] [("Out", ["t", "t"])] [("Y", ["z"])]]

/-- What stands for the chain puts the name out once. -/
theorem outputs_optimize_doubledOutput :
    Optimizer.usual.IsRearranged ∧ (∀ op ∈ doubledOutput, op.IsRegistered .standard) ∧
    TailsReadOne doubledOutput ∧
    ∃ g out last, Graph.build .standard doubledOutput = .ok g ∧
      (g.arena.chosenAt Template.standard 0).map (·.2) = some [0, 1] ∧
      doubledOutput[1]? = some last ∧
      (Optimizer.usual.optimize (.ofOps doubledOutput)).result = .ok out ∧
      out.program.blocks.length = 1 ∧ ∀ block ∈ out.program.blocks, block.ops.length = 1 ∧
        ∀ made ∈ block.ops, made.outputs ≠ last.outputs := by
  have hgraph : ((Graph.build .standard doubledOutput).toOption.bind fun g =>
      (g.arena.chosenAt Template.standard 0).map (·.2)) = some [0, 1] := by
    decide +kernel
  have hresult : (Optimizer.usual.optimize (.ofOps doubledOutput)).result.toOption.any
      (fun out => decide (out.program.blocks.length = 1 ∧
        ∀ block ∈ out.program.blocks, block.ops.length = 1 ∧
          ∀ made ∈ block.ops, ∀ last ∈ doubledOutput[1]?,
            made.outputs.entries.map (·.2.length) ≠ last.outputs.entries.map (·.2.length)))
        = true := by
    decide +kernel
  obtain ⟨g, hg⟩ := exists_ok_of_isOk (x := Graph.build .standard doubledOutput) (by decide +kernel)
  obtain ⟨out, hout⟩ := exists_ok_of_isOk
    (x := (Optimizer.usual.optimize (.ofOps doubledOutput)).result) (by decide +kernel)
  rw [hg] at hgraph
  rw [hout] at hresult
  obtain ⟨hlength, hblocks⟩ := of_decide_eq_true hresult
  have husual : Optimizer.usual.IsStandard := ⟨rfl, rfl⟩
  refine ⟨husual.isRearranged, by decide +kernel, by decide +kernel, g, out, _, hg, hgraph, rfl,
    hout, hlength, ?_⟩
  intro block hblock
  obtain ⟨hone, hnames⟩ := hblocks block hblock
  refine ⟨hone, fun made hmade heq => hnames made hmade _ rfl ?_⟩
  rw [heq]

end TensorFusion
