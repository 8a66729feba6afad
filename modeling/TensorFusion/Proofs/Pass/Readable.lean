import TensorFusion.Proofs.Graph.Merge
import TensorFusion.Proofs.Pass.Frame
import TensorFusion.Proofs.Program.Document
import TensorFusion.Proofs.Standard.Templates

/-!
# Proofs — Pass — Readable

A text can spell an optimized program as it can spell the program. A fused operator has nothing but
what the operators have that it stands for, under their own keys or under those of its template; so
where the new keys and types are texts, nothing becomes what cannot be written.
-/

namespace TensorFusion

/-- The type that a template makes and the keys that it gives can be held by a document. -/
structure Template.IsSpelled (t : Template) : Prop where
  fusedType : ∃ a, t.fusedType = .atom a ∧ a.IsReadable
  rename : t.rename.Holds (fun _ => True) fun pairs => ∀ pair ∈ pairs, pair.2.IsKey

variable {t : Template} {ops : List Op}

namespace Template

theorem isKey_renameIn {pairs : Renaming} {key : Atom} (h : ∀ pair ∈ pairs, pair.2.IsKey)
    (hkey : key.IsKey) : (renameIn pairs key).IsKey := by
  unfold renameIn
  split
  next pair hfind => exact h pair (List.mem_of_find?_eq_some hfind)
  next => exact hkey

theorem IsSpelled.renaming (h : t.IsSpelled) (opType : Value) :
    ∀ pair ∈ t.renaming opType, pair.2.IsKey := by
  intro pair hpair
  unfold Template.renaming at hpair
  split at hpair
  next opType =>
    cases hget : t.rename.get? opType with
    | none =>
      rw [hget] at hpair
      cases hpair
    | some pairs =>
      rw [hget] at hpair
      exact h.rename.get? hget pair hpair
  next => cases hpair

/-- What is gathered from operators is of the kind that they have. -/
theorem IsSpelled.holds_renamed {α : Type} {entriesOf : Op → List (Atom × α)} {values : α → Prop}
    (ht : t.IsSpelled) (h : ∀ op ∈ ops, ∀ e ∈ entriesOf op, e.1.IsKey ∧ values e.2) :
    (Table.ofList (ops.flatMap fun op => renamed (t.renaming op.opType) (entriesOf op))).Holds
      Atom.IsKey values := by
  refine Table.holds_ofList fun e he => ?_
  obtain ⟨op, hop, hmem⟩ := List.mem_flatMap.mp he
  obtain ⟨e', he', rfl⟩ := List.mem_map.mp hmem
  obtain ⟨hkey, hvalue⟩ := h op hop e' he'
  exact ⟨isKey_renameIn (ht.renaming op.opType) hkey, hvalue⟩

end Template

/-- No name comes from elsewhere when slots are joined. -/
theorem Slots.IsReadable.join {slots more : Slots} (h : slots.IsReadable) (h' : more.IsReadable) :
    (slots.join more).IsReadable := by
  unfold Slots.join
  unfold Slots.IsReadable Table.Holds at h'
  generalize more.entries = entries at h'
  induction entries generalizing slots with
  | nil => exact h
  | cons e entries ih =>
    obtain ⟨hkey, hnames⟩ := h' e (by simp)
    refine ih (Table.Holds.insert h hkey fun name hname => ?_) fun e' he' => h' e' (by simp [he'])
    rcases mem_of_mem_appendNew hname with hname | hname
    · cases hget : Table.get? slots e.1 with
      | none =>
        rw [hget] at hname
        cases hname
      | some names =>
        rw [hget] at hname
        exact Table.Holds.get? h hget name hname
    · exact hnames name hname

theorem Template.isReadable_fusedOutputs {op : Op} {leaves : List Op} (hop : op.IsReadable)
    (hleaves : ∀ leaf ∈ leaves, leaf.IsReadable) : (t.fusedOutputs op leaves).IsReadable := by
  unfold fusedOutputs
  split
  · exact hop.outputs
  · suffices ∀ slots : Slots, slots.IsReadable →
        (leaves.foldl (fun slots leaf => slots.join leaf.outputs) slots).IsReadable from
      this {} Table.holds_empty
    induction leaves with
    | nil => exact fun slots h => h
    | cons leaf leaves ih =>
      intro slots h
      exact ih (fun leaf' hleaf' => hleaves leaf' (by simp [hleaf'])) _
        (h.join (hleaves leaf (by simp)).outputs)

/-- All operators of an arena are readable. -/
def Arena.IsReadable (a : Arena) : Prop := ∀ i op, a.op? i = some op → op.IsReadable

theorem Arena.IsReadable.opsAt {a : Arena} (h : a.IsReadable) (indices : List Nat) :
    ∀ op ∈ Walk.opsAt a indices, op.IsReadable := by
  intro op hop
  obtain ⟨i, -, hi⟩ := List.mem_filterMap.mp hop
  exact h i op hi

/-- A fusion keeps all operators readable. -/
theorem Collapsed.isReadable {a : Arena} {root : Nat} {f : Fused} (h : Collapsed t a root f)
    (ht : t.IsSpelled) (ha : a.IsReadable) : f.arena.IsReadable := by
  intro i op hop
  by_cases hi : i = root
  · subst hi
    obtain ⟨first, hfirst⟩ := Arena.op?_of_lt (h.size ▸ Arena.lt_size_of_op? hop)
    rw [h.op?_root first hfirst] at hop
    cases hop
    have hmembers : ∀ op ∈ first :: Walk.opsAt a (t.visits a i), op.IsReadable :=
      List.forall_mem_cons.mpr ⟨ha i first hfirst, ha.opsAt _⟩
    obtain ⟨fusedType, hfusedType, hreadable⟩ := ht.fusedType
    rw [Template.merge_eq]
    exact {
      opType := by
        rw [hfusedType]
        exact .atom hreadable
      inputs := (ha i first hfirst).inputs
      outputs := Template.isReadable_fusedOutputs (ha i first hfirst) (ha.opsAt _)
      attrs := ht.holds_renamed fun op hop => (hmembers op hop).attrs
      params := ht.holds_renamed fun op hop => (hmembers op hop).params }
  · rw [h.op?_ne i hi] at hop
    exact ha i op hop

/-- An optimized program is readable as its program is. -/
theorem Optimizer.isReadable_optimize {o : Optimizer} {p : Program} {out : Outcome}
    (ht : ∀ t ∈ o.catalog.templates, t.IsSpelled) (hp : p.IsReadable)
    (h : (o.optimize p).result = .ok out) : out.program.IsReadable := by
  obtain ⟨block, g, s, hblock, hg, hs, rfl⟩ := optimize_eq_ok h
  obtain ⟨hgraph, -⟩ := Graph.isOf_of_build hg
  have hfirst : block.IsReadable := hp block (by simp [hblock])
  have hstart : g.arena.IsReadable := by
    intro i op hop
    rw [hgraph.op?] at hop
    exact hfirst.ops op (List.mem_of_getElem? hop)
  -- Edges lead forward all along, so that no fusion comes upon its own root.
  obtain ⟨-, hend⟩ := fusePass_induction (motive := fun _ a _ => a.IsForward ∧ a.IsReadable)
    (fun fs a removed f hkept hbefore hvalid => by
      obtain ⟨hforward, hreadable⟩ := hkept
      have hcollapsed := hvalid.collapsed_of_isForward hbefore hforward
      exact ⟨hcollapsed.isForward hforward, hcollapsed.isReadable (ht _ hvalid.template_mem) hreadable⟩)
    ⟨hgraph.wellLinked.isForward, hstart⟩ hs
  intro block' hblock'
  obtain rfl := List.mem_singleton.mp hblock'
  refine ⟨hfirst.vars, fun op hop => ?_⟩
  obtain ⟨i, -, hi⟩ := List.mem_filterMap.mp hop
  exact hend i op hi

namespace Template

theorem isSpelled_ofChain {name first : String} {rest : List String}
    {rename : List (Atom × Renaming)} (h : ∀ e ∈ rename, ∀ pair ∈ e.2, pair.2.IsKey) :
    (ofChain name first rest rename).IsSpelled where
  fusedType := ⟨_, rfl, trivial⟩
  rename := Table.holds_ofList fun e he => ⟨trivial, h e he⟩

theorem standard_isSpelled : ∀ t ∈ standard, t.IsSpelled := by
  have hbias : ∀ pair ∈ biasRenaming, pair.2.IsKey := by
    simp [biasRenaming, Atom.IsKey, Atom.IsReadable, Atom.points?]
  have hnorm : ∀ pair ∈ normRenaming, pair.2.IsKey := by
    simp [normRenaming, Atom.IsKey, Atom.IsReadable, Atom.points?]
  intro t ht
  rcases mem_standard.mp ht with rfl | rfl | rfl | rfl
  · exact isSpelled_ofChain (List.forall_mem_cons.mpr ⟨hbias, List.forall_mem_singleton.mpr hnorm⟩)
  · exact isSpelled_ofChain (List.forall_mem_singleton.mpr hbias)
  · exact isSpelled_ofChain (List.forall_mem_singleton.mpr hnorm)
  · exact isSpelled_ofChain (List.forall_mem_singleton.mpr hnorm)

end Template

end TensorFusion
