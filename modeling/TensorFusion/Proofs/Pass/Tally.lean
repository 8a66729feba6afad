import Mathlib.Data.List.Nodup
import Mathlib.Data.List.Perm.Basic
import TensorFusion.Proofs.Pass.Composed
import TensorFusion.Proofs.Pass.Linear

/-!
# Proofs — Pass — Tally

What a pass counts, against what it does. Each fusion is counted under the name of its template, and
with a template without branches it absorbs as many nodes as its tree has below the root, none of
them twice. So the counts tell how many operators are gone.
-/

namespace TensorFusion

/-! ## Totals -/

/-- The numbers of some items, added up. -/
def totalOf {α : Type} (number : α → Nat) : List α → Nat
  | [] => 0
  | a :: as => number a + totalOf number as

section Totals

variable {α β : Type} {f g : α → Nat} {as bs : List α}

theorem totalOf_append : totalOf f (as ++ bs) = totalOf f as + totalOf f bs := by
  induction as with
  | nil => simp [totalOf]
  | cons a as ih =>
    rw [List.cons_append, totalOf, totalOf, ih]
    omega

theorem totalOf_le (h : ∀ a ∈ as, f a ≤ g a) : totalOf f as ≤ totalOf g as := by
  induction as with
  | nil => exact Nat.le_refl 0
  | cons a as ih =>
    have hfirst := h a (by simp)
    have hrest := ih fun b hb => h b (by simp [hb])
    rw [totalOf, totalOf]
    omega

theorem totalOf_congr (h : ∀ a ∈ as, f a = g a) : totalOf f as = totalOf g as :=
  Nat.le_antisymm (totalOf_le fun a ha => Nat.le_of_eq (h a ha))
    (totalOf_le fun a ha => Nat.le_of_eq (h a ha).symm)

theorem totalOf_add : totalOf (fun a => f a + g a) as = totalOf f as + totalOf g as := by
  induction as with
  | nil => rfl
  | cons a as ih =>
    rw [totalOf, totalOf, totalOf, ih]
    omega

theorem totalOf_eq_zero (h : ∀ a ∈ as, f a = 0) : totalOf f as = 0 := by
  induction as with
  | nil => rfl
  | cons a as ih => rw [totalOf, h a (by simp), ih fun b hb => h b (by simp [hb])]

end Totals

/-! ## Counts of names -/

/-- How often a name was counted; what cannot be a key never was. -/
def Table.countAt (t : Table Nat) : Value → Nat
  | .atom a => t.countOf a
  | _ => 0

/-- Counts have grown by the uses that some fusions make of their templates. -/
def Table.IsCounted (before : Table Nat) (fs : List Fusion) (after : Table Nat) : Prop :=
  ∀ a, after.countOf a
    = before.countOf a + fs.countP fun f => f.template.name.same (.atom a)

theorem Table.IsCounted.trans {t₁ t₂ t₃ : Table Nat} {fs fs' : List Fusion}
    (h : t₁.IsCounted fs t₂) (h' : t₂.IsCounted fs' t₃) : t₁.IsCounted (fs ++ fs') t₃ := by
  intro a
  rw [h' a, h a, List.countP_append, Nat.add_assoc]

/-- Where a name is counted, it is that of a template that was used. -/
theorem Table.IsCounted.countOf_eq {before after : Table Nat} {fs : List Fusion}
    (h : before.IsCounted fs after) {a : Atom}
    (ha : ∀ f ∈ fs, f.template.name.same (.atom a) = false) :
    after.countOf a = before.countOf a := by
  have hnone : (fs.countP fun f => f.template.name.same (.atom a)) = 0 :=
    List.countP_eq_zero.mpr fun f hf => by simp [ha f hf]
  rw [h a, hnone, Nat.add_zero]

namespace Pass

variable {c : Config} {heard : Bool} {g : Graph} {templates todo : List Template} {t : Template}
  {s s' : Pass} {index : Nat} {indices : List Nat}

/-- A visit counts the fusion that it makes, if it makes one. -/
theorem isCounted_of_visit (h : visit c heard t s index = .ok s') :
    s.fused.IsCounted (s.fusionAt t index).toList s'.fused := by
  intro a
  rcases visit_cases h with ⟨hnone, events, rfl⟩ | ⟨f, fused, events, hsome, hcount, rfl⟩
  · rw [hnone]
    rfl
  · obtain ⟨-, htemplate, -⟩ := fusionAt_eq_some hsome
    unfold count at hcount
    split at hcount
    next name hname =>
      cases hcount
      rw [hsome, Option.toList_some, List.countP_singleton, htemplate, hname, Value.same_atom]
      exact Table.countOf_insert s.fused name a
    next => cases hcount

theorem isCounted_of_visits (h : indices.foldlM (visit c heard t) s = .ok s') :
    s.fused.IsCounted (fusionsOver c heard t indices s) s'.fused := by
  induction indices generalizing s with
  | nil =>
    rw [List.foldlM_nil, pure_eq_ok] at h
    subst h
    exact fun _ => rfl
  | cons index indices ih =>
    rw [List.foldlM_cons, bind_eq_ok] at h
    obtain ⟨s₁, hvisit, h⟩ := h
    rw [fusionsOver, hvisit]
    exact (isCounted_of_visit hvisit).trans (ih h)

theorem isCounted_of_runTemplate (h : runTemplate c heard g s t = .ok s') :
    s.fused.IsCounted (fusionsBy c heard g t s) s'.fused := by
  rcases runTemplate_eq_ok h with ⟨hdisabled, rfl⟩ | ⟨hdisabled, candidates, hcandidates, h⟩
  · have hfused : (s.note c.debugs (.skipped t.name)).fused = s.fused := by
      unfold note
      split <;> rfl
    rw [fusionsBy, hdisabled, hfused]
    exact fun _ => rfl
  · rw [fusionsBy, hdisabled, hcandidates]
    exact isCounted_of_visits h

theorem isCounted_of_runTemplates (h : s.runTemplates c heard g todo = .ok s') :
    s.fused.IsCounted (fusionsOf c heard g todo s) s'.fused := by
  induction todo generalizing s with
  | nil =>
    rw [runTemplates, List.foldlM_nil, pure_eq_ok] at h
    subst h
    exact fun _ => rfl
  | cons t todo ih =>
    rw [runTemplates, List.foldlM_cons, bind_eq_ok] at h
    obtain ⟨s₁, hturn, h⟩ := h
    rw [fusionsOf, hturn]
    exact (isCounted_of_runTemplate hturn).trans (ih h)

end Pass

/-! ## What the counts tell -/

/-- The operators that the uses of some templates have taken away, as these are counted. -/
def Table.savedBy (fused : Table Nat) (templates : List Template) : Nat :=
  totalOf (fun t => fused.countAt t.name * (t.depth - 1)) templates

/-- The names of some templates are all different. -/
def Template.AreNamedApart (templates : List Template) : Prop :=
  templates.Pairwise fun t u => t.name.same u.name = false

instance (templates : List Template) : Decidable (Template.AreNamedApart templates) :=
  inferInstanceAs (Decidable (templates.Pairwise fun t u => t.name.same u.name = false))

/-- Among templates that are named apart a name picks out one of them. -/
theorem Template.AreNamedApart.totalOf_eq {templates : List Template} (number : Template → Nat)
    (h : AreNamedApart templates) (hnames : ∀ t ∈ templates, ∃ a, t.name = .atom a)
    {u : Template} (hu : u ∈ templates) :
    totalOf (fun t => if u.name.same t.name then number t else 0) templates = number u := by
  induction templates with
  | nil => cases hu
  | cons t templates ih =>
    obtain ⟨hfirst, hrest⟩ := List.pairwise_cons.mp h
    rw [totalOf]
    rcases List.mem_cons.mp hu with rfl | hu
    · obtain ⟨a, ha⟩ := hnames u (by simp)
      rw [totalOf_eq_zero fun t ht => if_neg (by simp [hfirst t ht]), ha]
      simp
    · obtain ⟨a, ha⟩ := hnames t (by simp)
      obtain ⟨b, hb⟩ := hnames u (by simp [hu])
      have hother : u.name.same t.name = false := by
        have hsame := hfirst u hu
        rw [ha, hb, Value.same_atom] at hsame
        rw [ha, hb, Value.same_atom, Atom.same_comm, hsame]
      rw [hother, ih hrest (fun t ht => hnames t (by simp [ht])) hu]
      simp

/-- Fusions are counted either way, one by one or template by template. -/
theorem Template.AreNamedApart.totalOf_countP {templates : List Template}
    (number : Template → Nat) (h : AreNamedApart templates)
    (hnames : ∀ t ∈ templates, ∃ a, t.name = .atom a) {fs : List Fusion}
    (hfs : ∀ f ∈ fs, f.template ∈ templates) :
    totalOf (fun t => (fs.countP fun f => f.template.name.same t.name) * number t) templates
      = totalOf (fun f => number f.template) fs := by
  induction fs with
  | nil => exact totalOf_eq_zero fun t _ => Nat.zero_mul _
  | cons f fs ih =>
    have hsplit : ∀ t ∈ templates,
        ((f :: fs).countP fun f => f.template.name.same t.name) * number t
        = (fs.countP fun f => f.template.name.same t.name) * number t
          + if f.template.name.same t.name then number t else 0 := by
      intro t _
      rw [List.countP_cons, Nat.add_mul]
      split <;> simp
    rw [totalOf_congr hsplit, totalOf_add, ih fun f hf => hfs f (by simp [hf]),
      h.totalOf_eq number hnames (hfs f (by simp)), totalOf]
    omega

/-- Uses of templates that are counted tell the operators that they took away. -/
theorem Table.IsCounted.savedBy {templates : List Template} {before after : Table Nat}
    {fs : List Fusion} (h : before.IsCounted fs after) (hapart : Template.AreNamedApart templates)
    (hnames : ∀ t ∈ templates, ∃ a, t.name = .atom a)
    (hfs : ∀ f ∈ fs, f.template ∈ templates) :
    after.savedBy templates
      = before.savedBy templates + totalOf (fun f => f.template.depth - 1) fs := by
  rw [← hapart.totalOf_countP (fun t => t.depth - 1) hnames hfs, Table.savedBy, Table.savedBy,
    ← totalOf_add]
  refine totalOf_congr fun t ht => ?_
  obtain ⟨a, ha⟩ := hnames t ht
  rw [ha, ← Nat.add_mul]
  congr 1
  exact h a

/-! ## What is absorbed -/

/-- Fusions have absorbed nodes of an arena, none of them twice, and each fusion as many as its
template has levels below the root. -/
structure IsAbsorbedBy (size : Nat) (fs : List Fusion) (removed : List Nat) : Prop where
  nodup : removed.Nodup
  range : ∀ i ∈ removed, i < size
  length : removed.length = totalOf (fun f => f.template.depth - 1) fs

/-- A fusion by the rules with a template without branches absorbs a path of live nodes. -/
theorem IsAbsorbedBy.step {a₀ a : Arena} {tail : Nat → Nat} {removed : List Nat}
    {fs : List Fusion} {c : Config} {g : Graph} {templates : List Template} {f : Fusion}
    (h : IsAbsorbedBy a₀.size fs removed) (hlive : Live a₀ tail a removed)
    (hlinked : a₀.WellLinked) (hlinear : f.template.root.isLinear = true) (hbefore : f.before = a)
    (hvalid : f.IsValid c g templates removed) :
    IsAbsorbedBy a₀.size (fs ++ [f]) (Pass.absorbedWith removed f) := by
  obtain ⟨first, rest, hchain, hp, -, hnodup⟩ := hlive.exists_path hlinked hlinear hbefore hvalid
  have hnew : ∀ m ∈ f.made.absorbed, m ∉ removed := fun m hm =>
    (hlive.live_of_mem_absorbed hlinked hlinear hbefore hvalid hm).1
  rw [hlive.absorbedWith_eq hlinked hlinear hbefore hvalid]
  constructor
  · refine List.nodup_append.mpr ⟨h.nodup, (List.nodup_cons.mp hnodup).2, ?_⟩
    rintro i hi m hm rfl
    exact hnew i hm hi
  · intro i hi
    rcases List.mem_append.mp hi with hi | hi
    · exact h.range i hi
    · obtain ⟨op, hop, -⟩ := hp.mem_type (List.mem_cons_of_mem _ hi)
      rw [← hlive.size]
      exact Arena.lt_size_of_op? hop
  · have hdepth : f.template.depth = rest.length + 1 := by
      rw [Template.depth, hchain, Pattern.depth_chain]
    rw [List.length_append, h.length, totalOf_append, hp.length_eq, totalOf, totalOf, hdepth]
    omega

/-- What is not absorbed and what is make up the whole. -/
theorem IsAbsorbedBy.length_survivorsOf {size : Nat} {fs : List Fusion} {removed : List Nat}
    (h : IsAbsorbedBy size fs removed) :
    (survivorsOf removed size).length + removed.length = size := by
  have hperm : ((List.range size).filter (· ∈ removed)).Perm removed := by
    refine (List.perm_ext_iff_of_nodup (List.nodup_range.filter _) h.nodup).mpr fun i => ?_
    rw [List.mem_filter, List.mem_range, decide_eq_true_iff]
    exact and_iff_right_of_imp (h.range i)
  have hsplit := List.length_eq_length_filter_add (l := List.range size) (· ∉ removed)
  rw [List.length_range] at hsplit
  simp only [decide_not, Bool.not_not] at hsplit
  rw [survivorsOf, ← hperm.length_eq]
  simp only [decide_not]
  omega

namespace Optimizer

variable {o : Optimizer} {g : Graph} {s : Pass}

/-- The fusions of a pass are counted. -/
theorem isCounted_of_fusePass (h : o.fusePass g = .ok s) :
    o.stats.fused.IsCounted (o.fusionsIn g) s.fused := by
  unfold fusePass at h
  unfold fusionsIn
  split at h
  next hfuses =>
    rw [if_pos hfuses]
    exact Pass.isCounted_of_runTemplates h
  next hoff =>
    rw [if_neg hoff]
    cases h
    intro a
    unfold Pass.note
    split <;> rfl

/-- The fusions of a pass are with templates of the catalog. -/
theorem template_mem_of_mem_fusionsIn {f : Fusion} (hf : f ∈ o.fusionsIn g) :
    f.template ∈ o.catalog.templates := by
  obtain ⟨done, rest, hsplit⟩ := List.append_of_mem hf
  have hhistory := o.isHistory g
  rw [hsplit] at hhistory
  exact hhistory.next.2.template_mem

/-- The fusions of a pass over a linked graph absorb nodes one by one. -/
theorem isAbsorbedBy_of_fusePass (hlinear : ∀ t ∈ o.catalog.templates, t.root.isLinear = true)
    (hlinked : g.arena.WellLinked) (h : o.fusePass g = .ok s) :
    IsAbsorbedBy g.arena.size (o.fusionsIn g) s.removed ∧ s.arena.size = g.arena.size := by
  have hmotive := fusePass_induction
    (motive := fun fs a removed => IsAbsorbedBy g.arena.size fs removed ∧
      ∃ tail, Live g.arena tail a removed)
    (fun fs a removed f hstart hbefore hvalid => by
      obtain ⟨habsorbed, tail, hlive⟩ := hstart
      have hbranch := hlinear _ hvalid.template_mem
      exact ⟨habsorbed.step hlive hlinked hbranch hbefore hvalid, _,
        hlive.step hlinked hbranch hbefore hvalid⟩)
    ⟨⟨.nil, by simp, rfl⟩, id, Live.start g.arena⟩ h
  obtain ⟨habsorbed, tail, hlive⟩ := hmotive
  exact ⟨habsorbed, hlive.size⟩

end Optimizer

end TensorFusion
