import TensorFusion.Proofs.Graph.Merged

/-!
# Proofs — Graph — Nearest

Whose value a fused operator has, where several of the fused ones have a value for the same key. It
is the one that comes last in preorder. In a chain that is the one nearest to the leaves, and so it
is wherever no node of a template is followed by one further up. Where a longer branch stands before
a shorter one, the value from further up may win.
-/

namespace TensorFusion

/-! ## Supplies -/

/-- A value that a node gives for a key of the fused operator, and the depth at which the node is
paired. -/
structure Supply (α : Type) where
  depth : Nat
  key : Atom
  value : α

namespace Supply

variable {α : Type} {supplies : List (Supply α)} {s : Supply α}

def entry (s : Supply α) : Atom × α := (s.key, s.value)

/-- Nothing is supplied for the same key later. -/
def IsLast (supplies : List (Supply α)) (s : Supply α) : Prop :=
  ∃ front back, supplies = front ++ s :: back ∧ ∀ s' ∈ back, s'.key.same s.key = false

/-- Nothing is supplied for the same key by a node further down. -/
def IsNearest (supplies : List (Supply α)) (s : Supply α) : Prop :=
  s ∈ supplies ∧ ∀ s' ∈ supplies, s'.key.same s.key = true → s'.depth ≤ s.depth

/-- Every value of a table is supplied for its key by a node than which no other that supplies the
key is nearer to the leaves. -/
def NearestWins (supplies : List (Supply α)) (table : Table α) : Prop :=
  ∀ key v, table.get? key = some v →
    ∃ s, IsNearest supplies s ∧ s.key.same key = true ∧ s.value = v

/-- What is supplied last for a key is supplied by a nearest node as well. -/
def LastIsNearest (supplies : List (Supply α)) : Prop :=
  ∀ s, IsLast supplies s →
    ∃ s', IsNearest supplies s' ∧ s'.key.same s.key = true ∧ s'.value = s.value

/-- A table to which all supplies are written has what is supplied last. -/
theorem get?_ofList_iff {key : Atom} {v : α} :
    (Table.ofList (supplies.map entry)).get? key = some v ↔
      ∃ s, IsLast supplies s ∧ s.key.same key = true ∧ s.value = v := by
  rw [Table.get?_ofList, Table.lookup_eq_some_iff]
  constructor
  · intro h
    obtain ⟨later, k, earlier, heq, hkey, hlater⟩ := h
    have heq : supplies.map entry = earlier.reverse ++ (k, v) :: later.reverse := by
      simpa using congrArg List.reverse heq
    obtain ⟨front, rest, rfl, -, hrest⟩ := List.map_eq_append_iff.mp heq
    obtain ⟨s, back, rfl, hs, hback⟩ := List.map_eq_cons_iff.mp hrest
    obtain ⟨rfl, rfl⟩ : s.key = k ∧ s.value = v := Prod.mk.inj hs
    refine ⟨s, ⟨front, back, rfl, fun s' hs' => ?_⟩, hkey, rfl⟩
    have hmem : s'.entry ∈ later := by
      rw [← List.mem_reverse, ← hback]
      exact List.mem_map_of_mem hs'
    have hother : s'.key.same key = false := hlater _ hmem
    rwa [Atom.same, Atom.same_iff.mp hkey, ← Atom.same]
  · intro h
    obtain ⟨s, ⟨front, back, rfl, hback⟩, hkey, rfl⟩ := h
    refine ⟨(back.map entry).reverse, s.key, (front.map entry).reverse, by simp [entry], hkey, ?_⟩
    intro e he
    obtain ⟨s', hs', rfl⟩ := List.mem_map.mp (List.mem_reverse.mp he)
    have hother := hback s' hs'
    rwa [Atom.same, Atom.same_iff.mp hkey, ← Atom.same] at hother

theorem nearestWins_ofList_iff :
    NearestWins supplies (.ofList (supplies.map entry)) ↔ LastIsNearest supplies := by
  constructor
  · intro h s hs
    exact h s.key s.value (get?_ofList_iff.mpr ⟨s, hs, Atom.same_refl _, rfl⟩)
  · intro h key v hv
    obtain ⟨s, hs, hkey, rfl⟩ := get?_ofList_iff.mp hv
    obtain ⟨s', hs', hkey', hvalue⟩ := h s hs
    exact ⟨s', hs', Atom.same_trans hkey' hkey, hvalue⟩

/-- Where no supply comes behind one from further down, what is supplied last is supplied by a
nearest node. -/
theorem lastIsNearest_of_pairwise (h : supplies.Pairwise fun s s' => s.depth ≤ s'.depth) :
    LastIsNearest supplies := by
  intro s hs
  obtain ⟨front, back, rfl, hback⟩ := hs
  refine ⟨s, ⟨by simp, fun s' hs' hkey => ?_⟩, Atom.same_refl _, rfl⟩
  rcases List.mem_append.mp hs' with hfront | hrest
  · exact (List.pairwise_append.mp h).2.2 s' hfront s (by simp)
  · rcases List.mem_cons.mp hrest with rfl | hlater
    · exact Nat.le_refl _
    · rw [hback s' hlater] at hkey
      cases hkey

/-- A value from further up that comes behind another is not from the nearest node. -/
theorem not_lastIsNearest {key : Atom} {deep shallow : α} {m n : Nat} (hlt : n < m)
    (hne : deep ≠ shallow) : ¬ LastIsNearest [⟨m, key, deep⟩, ⟨n, key, shallow⟩] := by
  intro h
  obtain ⟨s, ⟨hmem, hdeepest⟩, -, hvalue⟩ := h ⟨n, key, shallow⟩ ⟨[⟨m, key, deep⟩], [], rfl, nofun⟩
  rcases List.mem_cons.mp hmem with rfl | hmem
  · exact hne hvalue
  · rw [List.mem_singleton.mp hmem] at hdeepest
    have hle := hdeepest ⟨m, key, deep⟩ (by simp) (Atom.same_refl key)
    exact absurd hle (Nat.not_le_of_lt hlt)

end Supply

/-- What an operator supplies that is paired at a depth: some of its entries under their new
keys. -/
def Template.suppliesOf {α : Type} (t : Template) (entriesOf : Op → List (Atom × α)) (depth : Nat)
    (op : Op) : List (Supply α) :=
  (renamed (t.renaming op.opType) (entriesOf op)).map fun e => ⟨depth, e.1, e.2⟩

/-- What the operators that are paired with a template supply, in preorder. -/
def Template.supplies {α : Type} (t : Template) (entriesOf : Op → List (Atom × α)) (a : Arena)
    (root : Nat) : List (Supply α) :=
  t.root.paths.flatMap fun path =>
    ((a.placeAlong? root path).bind a.op?).elim [] (t.suppliesOf entriesOf path.length)

namespace Template

variable {α : Type} {t : Template} {a : Arena} {root : Nat} {nodes leaves : List Nat}
  {op fused : Op} {f : Fused}

theorem entries_suppliesOf (entriesOf : Op → List (Atom × α)) (depth : Nat) (op : Op) :
    (t.suppliesOf entriesOf depth op).map Supply.entry
      = renamed (t.renaming op.opType) (entriesOf op) := by
  rw [suppliesOf, List.map_map]
  exact List.map_id' _

theorem depth_of_mem_suppliesOf {entriesOf : Op → List (Atom × α)} {depth : Nat} {o : Option Op}
    {s : Supply α} (h : s ∈ o.elim [] (t.suppliesOf entriesOf depth)) : s.depth = depth := by
  cases o with
  | none => cases h
  | some op =>
    obtain ⟨e, -, rfl⟩ := List.mem_map.mp h
    rfl

/-- A merge writes all supplies in their order. -/
theorem Merges.entries_supplies (h : t.Merges a root nodes leaves op fused f)
    (entriesOf : Op → List (Atom × α)) : (t.supplies entriesOf a root).map Supply.entry
      = (Walk.opsAt a nodes).flatMap fun op => renamed (t.renaming op.opType) (entriesOf op) := by
  have hnodes : nodes = t.root.paths.filterMap (a.placeAlong? root) := by
    have hsome := congrArg (List.filterMap id) h.nodes_eq
    simpa [List.filterMap_map] using hsome.symm
  rw [hnodes, Walk.opsAt, List.filterMap_filterMap, supplies, List.map_flatMap]
  induction t.root.paths with
  | nil => rfl
  | cons path paths ih =>
    rw [List.flatMap_cons, ih, List.filterMap_cons]
    cases (a.placeAlong? root path).bind a.op? with
    | none => rfl
    | some op => rw [Option.elim_some, entries_suppliesOf, List.flatMap_cons]

theorem Merges.attrs_eq (h : t.Merges a root nodes leaves op fused f) :
    fused.attrs = .ofList ((t.supplies (·.attrs.entries) a root).map Supply.entry) := by
  rw [h.attrs, h.entries_supplies, attrWrites]

theorem Merges.params_eq (h : t.Merges a root nodes leaves op fused f) :
    fused.params = .ofList ((t.supplies (·.params.entries) a root).map Supply.entry) := by
  rw [h.params, h.entries_supplies, paramWrites]

/-- Where depths never fall in preorder, supplies come in the order of their depths. -/
theorem pairwise_supplies (h : t.root.paths.Pairwise fun p q => p.length ≤ q.length)
    (entriesOf : Op → List (Atom × α)) (a : Arena) (root : Nat) :
    (t.supplies entriesOf a root).Pairwise fun s s' => s.depth ≤ s'.depth := by
  refine List.pairwise_flatMap.mpr ⟨fun path _ => ?_, h.imp fun {p q} hle s hs s' hs' => ?_⟩
  · refine List.pairwise_of_forall_mem_list fun s hs s' hs' => ?_
    have hd : s.depth = s'.depth :=
      (depth_of_mem_suppliesOf hs).trans (depth_of_mem_suppliesOf hs').symm
    exact Nat.le_of_eq hd
  · rw [depth_of_mem_suppliesOf hs, depth_of_mem_suppliesOf hs']
    exact hle

end Template

/-! ## Fused operators -/

namespace Graph

variable {r : Registry} {ops : List Op} {g : Graph} {t : Template} {i : Nat}

/-- At a match in a graph that is built, a fusion merges. -/
theorem exists_merges_of_build (hbuild : Graph.build r ops = .ok g)
    (hTypes : ∀ op ∈ ops, op.opType.isString = true) (hmatch : t.matchesAt g.arena i = .ok true) :
    ∃ f nodes leaves op fused, t.fuse g.arena i = .ok f ∧
      t.Merges g.arena i nodes leaves op fused f := by
  have hsound := ((isOf_of_build hbuild).1.isSound hTypes).arena
  have hlt := Template.lt_size_of_matchesAt hmatch
  obtain ⟨op, hop⟩ := Arena.op?_of_lt hlt
  obtain ⟨f, hf, hcollapsed⟩ := t.exists_fuse hsound hlt
  have hnot : i ∉ t.visits g.arena i := Template.root_not_mem_visits hsound.forward.outputs
  obtain ⟨fused, hmerges⟩ :=
    Template.merges_of_collapsed hmatch hsound.typed hnot hop hcollapsed
  exact ⟨f, _, _, op, fused, hf, hmerges⟩

/-- Whether the node nearest to the leaves wins, at a match in a graph that is built. It does so, at
each key, just where what comes last in preorder is also supplied by a nearest node. -/
theorem nearestWins_iff (hbuild : Graph.build r ops = .ok g)
    (hTypes : ∀ op ∈ ops, op.opType.isString = true) (hmatch : t.matchesAt g.arena i = .ok true) :
    ∃ f fused, t.fuse g.arena i = .ok f ∧ f.arena.op? i = some fused ∧
      (Supply.NearestWins (t.supplies (·.attrs.entries) g.arena i) fused.attrs ↔
        Supply.LastIsNearest (t.supplies (·.attrs.entries) g.arena i)) ∧
      (Supply.NearestWins (t.supplies (·.params.entries) g.arena i) fused.params ↔
        Supply.LastIsNearest (t.supplies (·.params.entries) g.arena i)) := by
  obtain ⟨f, nodes, leaves, op, fused, hf, hmerges⟩ := exists_merges_of_build hbuild hTypes hmatch
  refine ⟨f, fused, hf, hmerges.after, ?_, ?_⟩
  · rw [hmerges.attrs_eq, Supply.nearestWins_ofList_iff]
  · rw [hmerges.params_eq, Supply.nearestWins_ofList_iff]

/-- With a template whose depths never fall in preorder, the node nearest to the leaves wins. -/
theorem nearestWins_of_pairwise_paths (hbuild : Graph.build r ops = .ok g)
    (hTypes : ∀ op ∈ ops, op.opType.isString = true) (hmatch : t.matchesAt g.arena i = .ok true)
    (hpaths : t.root.paths.Pairwise fun p q => p.length ≤ q.length) :
    ∃ f fused, t.fuse g.arena i = .ok f ∧ f.arena.op? i = some fused ∧
      Supply.NearestWins (t.supplies (·.attrs.entries) g.arena i) fused.attrs ∧
      Supply.NearestWins (t.supplies (·.params.entries) g.arena i) fused.params := by
  obtain ⟨f, nodes, leaves, op, fused, hf, hmerges⟩ := exists_merges_of_build hbuild hTypes hmatch
  have hlast {α : Type} (entriesOf : Op → List (Atom × α)) :
      Supply.LastIsNearest (t.supplies entriesOf g.arena i) :=
    Supply.lastIsNearest_of_pairwise (Template.pairwise_supplies hpaths entriesOf g.arena i)
  refine ⟨f, fused, hf, hmerges.after, ?_, ?_⟩
  · rw [hmerges.attrs_eq]
    exact Supply.nearestWins_ofList_iff.mpr (hlast _)
  · rw [hmerges.params_eq]
    exact Supply.nearestWins_ofList_iff.mpr (hlast _)

end Graph

/-- Depths never fall in a chain. -/
theorem Pattern.pairwise_paths_chain (first : Value) (rest : List Value) :
    (chain first rest).paths.Pairwise fun p q => p.length ≤ q.length := by
  induction rest generalizing first with
  | nil => simp [chain, leaf, paths, pathsFrom]
  | cons second rest ih =>
    rw [chain, paths, pathsFrom, pathsFrom, List.append_nil, List.pairwise_cons, List.pairwise_map]
    exact ⟨fun _ _ => Nat.zero_le _, (ih second).imp fun {p q} hle => by simpa using hle⟩

/-- What is supplied to a fusion of the four operators whose branches end with values for the same
keys. -/
theorem supplies_shallowLater : ∃ g, Graph.build .standard shallowLater = .ok g ∧
    branchesTemplate.matchesAt g.arena 0 = .ok true ∧
    branchesTemplate.supplies (·.attrs.entries) g.arena 0
      = [⟨2, .text "axis", .int 3⟩, ⟨1, .text "axis", .int 2⟩] ∧
    branchesTemplate.supplies (·.params.entries) g.arena 0
      = [⟨2, .text "Scale", [.text "deep"]⟩, ⟨1, .text "Scale", [.text "shallow"]⟩] :=
  ⟨_, rfl, eq_ok_of_toOption (by decide +kernel), rfl, rfl⟩

theorem nearestWins_iff_shallowLater : ∃ g, Graph.build .standard shallowLater = .ok g ∧
    (∀ op ∈ shallowLater, op.opType.isString = true) ∧
    branchesTemplate.matchesAt g.arena 0 = .ok true ∧
    ∃ f fused, branchesTemplate.fuse g.arena 0 = .ok f ∧ f.arena.op? 0 = some fused ∧
      (Supply.NearestWins (branchesTemplate.supplies (·.attrs.entries) g.arena 0) fused.attrs ↔
        Supply.LastIsNearest (branchesTemplate.supplies (·.attrs.entries) g.arena 0)) ∧
      (Supply.NearestWins (branchesTemplate.supplies (·.params.entries) g.arena 0) fused.params ↔
        Supply.LastIsNearest (branchesTemplate.supplies (·.params.entries) g.arena 0)) := by
  have hTypes : ∀ op ∈ shallowLater, op.opType.isString = true := by decide
  obtain ⟨g, hbuild, hmatch, -⟩ := supplies_shallowLater
  exact ⟨g, hbuild, hTypes, hmatch, Graph.nearestWins_iff hbuild hTypes hmatch⟩

/-- The value from the end of the shorter branch wins, for it comes last. -/
theorem not_nearestWins_shallowLater : ∃ g, Graph.build .standard shallowLater = .ok g ∧
    branchesTemplate.matchesAt g.arena 0 = .ok true ∧
    ∃ f fused, branchesTemplate.fuse g.arena 0 = .ok f ∧ f.arena.op? 0 = some fused ∧
      ¬ Supply.NearestWins (branchesTemplate.supplies (·.attrs.entries) g.arena 0) fused.attrs ∧
      ¬ Supply.NearestWins (branchesTemplate.supplies (·.params.entries) g.arena 0) fused.params := by
  have hTypes : ∀ op ∈ shallowLater, op.opType.isString = true := by decide
  obtain ⟨g, hbuild, hmatch, hattrs, hparams⟩ := supplies_shallowLater
  obtain ⟨f, nodes, leaves, op, fused, hf, hmerges⟩ :=
    Graph.exists_merges_of_build hbuild hTypes hmatch
  refine ⟨g, hbuild, hmatch, f, fused, hf, hmerges.after, ?_, ?_⟩
  · rw [hmerges.attrs_eq, Supply.nearestWins_ofList_iff, hattrs]
    exact Supply.not_lastIsNearest (by decide) (by simp)
  · rw [hmerges.params_eq, Supply.nearestWins_ofList_iff, hparams]
    exact Supply.not_lastIsNearest (by decide) (by simp)

end TensorFusion
