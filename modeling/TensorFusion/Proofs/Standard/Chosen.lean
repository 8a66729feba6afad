import TensorFusion.Proofs.Standard.Idempotent

/-!
# Proofs — Standard — Chosen

A program rewritten at once. From each node the first template is chosen whose types can be followed
through the graph as it was built, over nodes with one consumer each; the nodes of a choice become
one operator, and nothing else changes. Which of the standard templates come first is of no account,
as long as an addition alone does not come before an addition with what follows it.
-/

namespace TensorFusion

/-! ## Choices -/

namespace Arena

mutual

/-- The nodes that a tree of types is followed over, from a node on. -/
def follow (a : Arena) : Pattern → Nat → Option (List Nat)
  | .node opType children, i =>
      if (a.op? i).any (·.opType.same opType) then
        (a.followBelow children (a.outputs i)).map (i :: ·)
      else none

/-- The nodes that the trees below a node are followed over, from its consumers on. A tree with
branches is not followed, and a node with several consumers is not passed. -/
def followBelow (a : Arena) : List Pattern → List Nat → Option (List Nat)
  | [], _ => some []
  | [child], [k] => a.follow child k
  | _, _ => none

end

/-- The first of some templates that can be followed from a node, and the nodes it is followed
over. -/
def chosenAt (a : Arena) (templates : List Template) (i : Nat) : Option (Template × List Nat) :=
  templates.findSome? fun t => (a.follow t.root i).map (t, ·)

end Arena

/-- The operator that stands for a chain: it has the inputs of the first and the outputs of the
last, each name once in a slot, and the attributes and parameters of all under their new names. -/
def Template.chainOp (t : Template) (first : Op) (rest : List Op) : Op where
  opType := t.fusedType
  inputs := first.inputs
  outputs := (rest.getLastD first).outputs.mapValues (appendNew [])
  attrs := .ofList (t.attrWrites (first :: rest))
  params := .ofList (t.paramWrites (first :: rest))

namespace Arena

/-- The nodes of the chosen paths, but for the first of each. -/
def swallowed (a : Arena) (templates : List Template) : List Nat :=
  (List.range a.size).flatMap fun i => ((a.chosenAt templates i).map (·.2.tail)).getD []

/-- What becomes of the operator at a node: where a path is chosen, the operator that stands for
it. -/
def rewriteAt (a : Arena) (templates : List Template) (i : Nat) : Option Op :=
  match a.chosenAt templates i with
  | some (t, path) => (a.op? i).map fun op => t.chainOp op (Walk.opsAt a path.tail)
  | none => a.op? i

/-- The operators once all chosen paths are replaced. -/
def rewrite (a : Arena) (templates : List Template) : List Op :=
  (survivorsOf (a.swallowed templates) a.size).filterMap (a.rewriteAt templates)

end Arena

/-- Whether a template is switched on. -/
def Config.enables (c : Config) (t : Template) : Bool := (c.disables t.name).toOption == some false

/-- The templates that are switched on, where fusion is. -/
def Config.enabled (c : Config) (templates : List Template) : List Template :=
  if c.fuses then templates.filter c.enables else []

/-! ## Following a chain -/

namespace Arena

variable {a : Arena} {first : Value} {rest : List Value} {i : Nat} {ks path : List Nat}

theorem follow_node_eq_some {children : List Pattern} :
    a.follow (.node first children) i = some path ↔
      (∃ op, a.op? i = some op ∧ op.opType.same first = true) ∧
      ∃ ks, a.followBelow children (a.outputs i) = some ks ∧ path = i :: ks := by
  rw [follow]
  cases hop : a.op? i with
  | none => simp
  | some op =>
    cases hType : op.opType.same first with
    | false => simp [hType]
    | true =>
      simp only [Option.any_some, hType, if_true, Option.map_eq_some_iff, Option.some.injEq,
        exists_eq_left', true_and]
      exact exists_congr fun ks => and_congr_right fun _ => eq_comm

theorem followBelow_singleton_eq_some {child : Pattern} :
    a.followBelow [child] ks = some path ↔ ∃ k, ks = [k] ∧ a.follow child k = some path := by
  match ks with
  | [] => simp [followBelow]
  | [k] => simp [followBelow]
  | k :: k' :: ks => simp [followBelow]

/-- A chain is followed over the nodes of a path. -/
theorem follow_chain_iff :
    a.follow (.chain first rest) i = some path ↔ ∃ ks, path = i :: ks ∧ a.Path first rest i ks := by
  induction rest generalizing first i path with
  | nil =>
    show a.follow (.node first []) i = some path ↔ _
    rw [follow_node_eq_some]
    constructor
    · rintro ⟨⟨op, hop, hType⟩, ks, hks, rfl⟩
      cases hks
      exact ⟨[], rfl, .last hop hType⟩
    · rintro ⟨ks, rfl, hp⟩
      cases hp with
      | last hop hType => exact ⟨⟨_, hop, hType⟩, [], rfl, rfl⟩
  | cons second rest ih =>
    show a.follow (.node first [.chain second rest]) i = some path ↔ _
    rw [follow_node_eq_some]
    constructor
    · rintro ⟨⟨op, hop, hType⟩, ks, hks, rfl⟩
      obtain ⟨k, hout, hfollow⟩ := followBelow_singleton_eq_some.mp hks
      obtain ⟨ks, rfl, hp⟩ := ih.mp hfollow
      exact ⟨_, rfl, .step hop hType hout hp⟩
    · rintro ⟨ks, rfl, hp⟩
      cases hp with
      | step hop hType hout hrest =>
        exact ⟨⟨_, hop, hType⟩, _, followBelow_singleton_eq_some.mpr
          ⟨_, hout, ih.mpr ⟨_, rfl, hrest⟩⟩, rfl⟩

end Arena

/-- What stands for a chain is what a fusion makes of it. -/
theorem Template.fusedOp_eq_chainOp (t : Template) (first : Op) (rest : List Op) :
    t.fusedOp first rest = t.chainOp first rest := by
  rw [fusedOp, chainOp, Slots.join_empty, merge_eq]

/-! ## The order of the templates -/

/-- A standard template is followed over a path of its types. -/
theorem Template.exists_path_of_follow {t : Template} (ht : t ∈ standard) {a : Arena} {i : Nat}
    {path : List Nat} (h : a.follow t.root i = some path) :
    ∃ first second rest ks, t.IsStandardChain first second rest ∧ path = i :: ks ∧
      a.Path (.text first) ((second :: rest).map Value.text) i ks := by
  obtain ⟨first, second, rest, hchain⟩ := exists_chain ht
  rw [hchain.root] at h
  obtain ⟨ks, hpath, hp⟩ := Arena.follow_chain_iff.mp h
  exact ⟨first, second, rest, ks, hchain, hpath, hp⟩

/-- A standard template that can be followed from a node goes by the types of the node and of its
one consumer. -/
theorem Template.types_of_follow {t : Template} (ht : t ∈ standard) {a : Arena} {i : Nat}
    {path : List Nat} (h : a.follow t.root i = some path) :
    (a.op? i).map (·.opType) = some t.root.opType ∧
    (a.outputs i).map (fun k => (a.op? k).map (·.opType))
      = t.root.children.map fun child => some child.opType := by
  obtain ⟨first, second, rest, ks, hchain, -, hp⟩ := exists_path_of_follow ht h
  rw [hchain.root]
  cases hp with
  | step hop hType hout hrest =>
    obtain ⟨op', hop', hType'⟩ := hrest.head
    rw [hop, Option.map_some, Value.eq_text_of_same hType, hout, List.map_singleton, hop',
      Option.map_some, Value.eq_text_of_same hType']
    cases rest <;> exact ⟨rfl, rfl⟩

/-- Only an addition alone and an addition with what follows it can both be followed from a
node. -/
theorem Template.eq_or_of_follow {t t' : Template} (ht : t ∈ standard) (ht' : t' ∈ standard)
    {a : Arena} {i : Nat} {path path' : List Nat} (h : a.follow t.root i = some path)
    (h' : a.follow t'.root i = some path') :
    t = t' ∨ (t = convAddNormRelu ∧ t' = convAdd) ∨ (t = convAdd ∧ t' = convAddNormRelu) := by
  obtain ⟨hroot, hchildren⟩ := types_of_follow ht h
  obtain ⟨hroot', hchildren'⟩ := types_of_follow ht' h'
  rw [hroot] at hroot'
  rw [hchildren] at hchildren'
  rcases mem_standard.mp ht with rfl | rfl | rfl | rfl <;>
    rcases mem_standard.mp ht' with rfl | rfl | rfl | rfl
  all_goals first
    | exact .inl rfl
    | exact .inr (.inl ⟨rfl, rfl⟩)
    | exact .inr (.inr ⟨rfl, rfl⟩)
    | simp [convAddNormRelu, convAdd, convNormRelu, depthwiseNormRelu, ofChain, Pattern.chain,
        Pattern.opType, Pattern.children, Pattern.leaf, Value.text] at hroot' hchildren'

/-- Among some templates an addition alone does not come before an addition with what follows
it. -/
def Template.KeepOrder (templates : List Template) : Prop :=
  templates.Pairwise fun t t' => ¬ (t = convAdd ∧ t' = convAddNormRelu)

/-- Templates are told apart by their names. -/
theorem Template.keepOrder_of_names {templates : List Template}
    (h : templates.Pairwise fun t t' => ¬ (t.name.same "conv_add" = true ∧
      t'.name.same "conv_add_batchnorm_relu" = true)) : KeepOrder templates :=
  h.imp fun hnames ⟨hadd, hnorm⟩ => hnames (by
    rw [hadd, hnorm]
    decide +kernel)

theorem Template.standard_keepOrder : KeepOrder standard := keepOrder_of_names (by
  decide +kernel)

/-- Standard templates choose alike in every order that keeps the additions in theirs. -/
theorem Arena.chosenAt_perm {a : Arena} {l l' : List Template}
    (hstandard : ∀ t ∈ l, t ∈ Template.standard) (hperm : l.Perm l')
    (horder : Template.KeepOrder l) (horder' : Template.KeepOrder l') (i : Nat) :
    a.chosenAt l i = a.chosenAt l' i := by
  have hmem : ∀ {l : List Template} {choice : Template × List Nat},
      choice ∈ l.filterMap (fun t => (a.follow t.root i).map (t, ·)) →
      choice.1 ∈ l ∧ a.follow choice.1.root i = some choice.2 := by
    intro l choice h
    obtain ⟨t, ht, hfollow⟩ := List.mem_filterMap.mp h
    obtain ⟨path, hpath, rfl⟩ := Option.map_eq_some_iff.mp hfollow
    exact ⟨ht, hpath⟩
  have hpairwise : ∀ {l : List Template}, Template.KeepOrder l →
      (l.filterMap fun t => (a.follow t.root i).map (t, ·)).Pairwise fun x y =>
        ¬ (x.1 = .convAdd ∧ y.1 = .convAddNormRelu) := by
    intro l h
    refine List.Pairwise.filterMap _ (fun t t' hne x hx y hy => ?_) h
    obtain ⟨path, -, rfl⟩ := Option.map_eq_some_iff.mp hx
    obtain ⟨path', -, rfl⟩ := Option.map_eq_some_iff.mp hy
    exact hne
  rw [chosenAt, chosenAt, ← List.head?_filterMap, ← List.head?_filterMap]
  refine congrArg _ (List.Perm.eq_of_pairwise (fun x y hx hy hxy hyx => ?_) (hpairwise horder)
    (hpairwise horder') (hperm.filterMap _))
  obtain ⟨hx, hfollow⟩ := hmem hx
  obtain ⟨hy, hfollow'⟩ := hmem hy
  rcases Template.eq_or_of_follow (hstandard _ hx) (hstandard _ (hperm.mem_iff.mpr hy)) hfollow
    hfollow' with heq | h | h
  · refine Prod.ext heq ?_
    rw [heq, hfollow'] at hfollow
    exact (Option.some.inj hfollow).symm
  · exact absurd h.symm hyx
  · exact absurd h hxy

end TensorFusion
