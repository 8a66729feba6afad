import Mathlib.Data.List.Basic
import TensorFusion.Graph.Match
import TensorFusion.Proofs.Graph.Edges
import TensorFusion.Proofs.Results

/-!
# Proofs — Graph — Path

A template without branches matches at a node just where a path begins: nodes of the types asked
for, each the only consumer of the one before it.
-/

namespace TensorFusion

/-- A path through an arena: from a node of the first type, over nodes of the types that follow. -/
inductive Arena.Path (a : Arena) : Value → List Value → Nat → List Nat → Prop where
  | last {first : Value} {i : Nat} {op : Op} (hop : a.op? i = some op)
      (hType : op.opType.same first = true) : Path a first [] i []
  | step {first second : Value} {rest : List Value} {i k : Nat} {ks : List Nat} {op : Op}
      (hop : a.op? i = some op) (hType : op.opType.same first = true) (hout : a.outputs i = [k])
      (hrest : Path a second rest k ks) : Path a first (second :: rest) i (k :: ks)

/-- The last node of a path. -/
def leafOf (i : Nat) (ks : List Nat) : Nat := ks.getLastD i

@[simp] theorem leafOf_nil (i : Nat) : leafOf i [] = i := rfl

@[simp] theorem leafOf_cons (i k : Nat) (ks : List Nat) : leafOf i (k :: ks) = leafOf k ks :=
  List.getLastD_cons ..

theorem leafOf_mem (i : Nat) (ks : List Nat) : leafOf i ks ∈ i :: ks := by
  induction ks generalizing i with
  | nil => simp
  | cons k ks ih =>
    rw [leafOf_cons]
    exact List.mem_cons_of_mem i (ih k)

theorem leafOf_mem_of_ne_nil {i : Nat} {ks : List Nat} (h : ks ≠ []) : leafOf i ks ∈ ks := by
  cases ks with
  | nil => exact absurd rfl h
  | cons k ks =>
    rw [leafOf_cons]
    exact leafOf_mem k ks

theorem le_leafOf {i : Nat} {ks : List Nat} (h : (i :: ks).Pairwise (· < ·)) {m : Nat}
    (hm : m ∈ i :: ks) : m ≤ leafOf i ks := by
  induction ks generalizing i with
  | nil => simpa using Nat.le_of_eq (List.mem_singleton.mp hm)
  | cons k ks ih =>
    obtain ⟨hik, hks⟩ := List.pairwise_cons.mp h
    rw [leafOf_cons]
    rcases List.mem_cons.mp hm with rfl | hm
    · exact Nat.le_of_lt (hik _ (leafOf_mem k ks))
    · exact ih hks hm

namespace Arena

theorem node_eq_ok {a : Arena} {i : Nat} {node : Node} :
    a.node i = .ok node ↔ a.node? i = some node := by
  unfold Arena.node
  cases a.node? i <;> simp

namespace Path

variable {a b : Arena} {first : Value} {rest : List Value} {i : Nat} {ks : List Nat}

theorem length_eq (h : a.Path first rest i ks) : ks.length = rest.length := by
  induction h with
  | last => rfl
  | step _ _ _ _ ih => simp [ih]

/-- The node that a path begins with is of the first type. -/
theorem head (h : a.Path first rest i ks) :
    ∃ op, a.op? i = some op ∧ op.opType.same first = true := by
  cases h with
  | last hop hType => exact ⟨_, hop, hType⟩
  | step hop hType _ _ => exact ⟨_, hop, hType⟩

/-- All nodes of a path are of types that are asked for. -/
theorem mem_type (h : a.Path first rest i ks) {m : Nat} (hm : m ∈ i :: ks) :
    ∃ op, a.op? m = some op ∧ ∃ t ∈ first :: rest, op.opType.same t = true := by
  induction h with
  | last hop hType =>
    rw [List.mem_singleton.mp hm]
    exact ⟨_, hop, _, by simp, hType⟩
  | step hop hType _ _ ih =>
    rcases List.mem_cons.mp hm with rfl | hm
    · exact ⟨_, hop, _, by simp, hType⟩
    · obtain ⟨op, hop, t, ht, hType⟩ := ih hm
      exact ⟨op, hop, t, List.mem_cons_of_mem _ ht, hType⟩

/-- The nodes behind the first are of the types that follow the first. -/
theorem mem_rest_type (h : a.Path first rest i ks) {m : Nat} (hm : m ∈ ks) :
    ∃ op, a.op? m = some op ∧ ∃ t ∈ rest, op.opType.same t = true := by
  cases h with
  | last => simp at hm
  | step _ _ _ hrest => exact hrest.mem_type hm

/-- The last node of a path is of the last type. -/
theorem leaf_type (h : a.Path first rest i ks) :
    ∃ op, a.op? (leafOf i ks) = some op ∧ op.opType.same (rest.getLastD first) = true := by
  induction h with
  | last hop hType => exact ⟨_, hop, hType⟩
  | step _ _ _ _ ih =>
    rw [leafOf_cons, List.getLastD_cons]
    exact ih

/-- Every node of a path but the last has one consumer, which is on the path. -/
theorem outputs_of_ne_leaf (h : a.Path first rest i ks) {m : Nat} (hm : m ∈ i :: ks)
    (hne : m ≠ leafOf i ks) : ∃ k ∈ ks, a.outputs m = [k] := by
  induction h with
  | last =>
    rw [List.mem_singleton.mp hm] at hne
    exact absurd rfl hne
  | @step _ _ _ _ k _ _ _ _ hout _ ih =>
    rcases List.mem_cons.mp hm with rfl | hm
    · exact ⟨k, by simp, hout⟩
    · rw [leafOf_cons] at hne
      obtain ⟨k', hk', hout'⟩ := ih hm hne
      exact ⟨k', List.mem_cons_of_mem _ hk', hout'⟩

/-- Every node of a path but the first is the one consumer of a node that is on the path. -/
theorem exists_producer (h : a.Path first rest i ks) {k : Nat} (hk : k ∈ ks) :
    ∃ m ∈ i :: ks, a.outputs m = [k] := by
  induction h with
  | last => cases hk
  | @step _ _ _ i k' _ _ _ _ hout _ ih =>
    rcases List.mem_cons.mp hk with rfl | hk
    · exact ⟨i, by simp, hout⟩
    · obtain ⟨m, hm, hout'⟩ := ih hk
      exact ⟨m, List.mem_cons_of_mem _ hm, hout'⟩

/-- Where edges lead forward, the nodes of a path are in ascending order. -/
theorem pairwise_lt (h : a.Path first rest i ks)
    (hforward : ∀ m ∈ i :: ks, ∀ k ∈ a.outputs m, m < k) : (i :: ks).Pairwise (· < ·) := by
  induction h with
  | last => simp
  | @step _ _ _ i k ks _ _ _ hout _ ih =>
    have hks := ih fun m hm => hforward m (List.mem_cons_of_mem _ hm)
    have hik : i < k := hforward i (by simp) k (by simp [hout])
    refine List.pairwise_cons.mpr ⟨fun m hm => ?_, hks⟩
    rcases List.mem_cons.mp hm with rfl | hm
    · exact hik
    · exact Nat.lt_trans hik ((List.pairwise_cons.mp hks).1 m hm)

/-- A path is a path in every arena that has the same operators on it and leads on as it does. -/
theorem congr (h : a.Path first rest i ks) (hop : ∀ m ∈ i :: ks, b.op? m = a.op? m)
    (hout : ∀ m ∈ i :: ks, ∀ k ∈ ks, a.outputs m = [k] → b.outputs m = [k]) :
    b.Path first rest i ks := by
  induction h with
  | last hop' hType => exact .last (by rw [hop _ (by simp), hop']) hType
  | step hop' hType hout' _ ih =>
    refine .step (by rw [hop _ (by simp), hop']) hType (hout _ (by simp) _ (by simp) hout') ?_
    exact ih (fun m hm => hop m (List.mem_cons_of_mem _ hm))
      fun m hm k hk => hout m (List.mem_cons_of_mem _ hm) k (List.mem_cons_of_mem _ hk)

end Path

end Arena

/-! ## Matching -/

theorem Pattern.eq_singleton_of_sameAll {ps : List Pattern} {q : Pattern}
    (h : sameAll ps [q] = true) : ∃ p, ps = [p] ∧ p.same q = true := by
  cases ps with
  | nil => simp [sameAll] at h
  | cons p ps =>
    cases ps with
    | nil => exact ⟨p, rfl, by simpa [sameAll] using h⟩
    | cons p' ps => simp [sameAll] at h

namespace Arena

variable {a : Arena} {first : Value} {rest : List Value} {i : Nat}

theorem path_of_typesBelow {shadow : Pattern} (h : a.typesBelow rest.length i = .ok shadow)
    (hsame : shadow.same (.chain first rest) = true) : ∃ ks, a.Path first rest i ks := by
  induction rest generalizing first i shadow with
  | nil =>
    simp only [List.length_nil, typesBelow, bind_eq_ok, pure_eq_ok, node_eq_ok] at h
    obtain ⟨node, hnode, rfl⟩ := h
    simp only [Pattern.leaf, Pattern.chain, Pattern.same, Bool.and_eq_true] at hsame
    exact ⟨[], .last (by simp [op?, hnode]) hsame.1⟩
  | cons second rest ih =>
    simp only [List.length_cons, typesBelow, bind_eq_ok, pure_eq_ok, node_eq_ok] at h
    obtain ⟨node, hnode, shadows, hshadows, rfl⟩ := h
    simp only [Pattern.chain, Pattern.same, Bool.and_eq_true] at hsame
    obtain ⟨hType, hsame⟩ := hsame
    -- The only tree below the root stands for the only consumer.
    obtain ⟨below, rfl, hsecond⟩ := Pattern.eq_singleton_of_sameAll hsame
    obtain ⟨k, hk, hbelow⟩ := eq_singleton_of_mapM hshadows
    obtain ⟨ks, hks⟩ := ih hbelow hsecond
    exact ⟨k :: ks, .step (by simp [op?, hnode]) hType (by simp [outputs, hnode, hk]) hks⟩

end Arena

theorem Pattern.depth_chain (first : Value) (rest : List Value) :
    (Pattern.chain first rest).depth = rest.length + 1 := by
  induction rest generalizing first with
  | nil => simp [Pattern.chain, Pattern.leaf, Pattern.depth, Pattern.deepest]
  | cons second rest ih =>
    simp only [Pattern.chain, Pattern.depth, Pattern.deepest, ih, List.length_cons]
    omega

/-- A template without branches that matches at a node finds a path there. -/
theorem Template.path_of_examine {t : Template} {first : Value} {rest : List Value}
    (ht : t.root = .chain first rest) {a : Arena} {i : Nat} {v : Verdict}
    (h : t.examine a i = .ok v) (hmatch : v.isMatch = true) : ∃ ks, a.Path first rest i ks := by
  simp only [Template.examine, bind_eq_ok] at h
  obtain ⟨node, -, h⟩ := h
  split at h
  · rw [bind_eq_ok] at h
    obtain ⟨shadow, hshadow, h⟩ := h
    rw [pure_eq_ok] at h
    subst h
    have hdepth : t.depth - 1 = rest.length := by
      rw [Template.depth, ht, Pattern.depth_chain]
      omega
    rw [Arena.typeTree, hdepth] at hshadow
    exact Arena.path_of_typesBelow hshadow (by rw [← ht]; exact hmatch)
  · rw [pure_eq_ok] at h
    subst h
    simp [Verdict.isMatch] at hmatch

/-- The tree of types that is grown along a path, as deep as the path, is the one that the path
goes along. -/
theorem Arena.typesBelow_of_path {a : Arena} {first : Value} {rest : List Value} {i : Nat}
    {ks : List Nat} (h : a.Path first rest i ks) : ∃ shadow,
    a.typesBelow rest.length i = .ok shadow ∧ shadow.same (.chain first rest) = true := by
  induction h with
  | @last _ i op hop hType =>
    refine ⟨.leaf op.opType, ?_, by simpa [Pattern.leaf, Pattern.chain, Pattern.same,
      Pattern.sameAll] using hType⟩
    simp only [List.length_nil, typesBelow, node_eq_ok.mpr (node?_of_op? hop), ok_bind]
    rfl
  | @step _ _ _ i k _ op hop hType hout _ ih =>
    obtain ⟨shadow, hshadow, hsame⟩ := ih
    refine ⟨.node op.opType [shadow], ?_, by simpa [Pattern.chain, Pattern.same,
      Pattern.sameAll, hType] using hsame⟩
    simp only [List.length_cons, typesBelow, node_eq_ok.mpr (node?_of_op? hop), ok_bind, hout,
      List.mapM_cons, hshadow, List.mapM_nil]
    rfl

/-- A template without branches matches where a path begins. -/
theorem Template.matchesAt_of_path {t : Template} {first : Value} {rest : List Value}
    (ht : t.root = .chain first rest) {a : Arena} {i : Nat} {ks : List Nat}
    (h : a.Path first rest i ks) : t.matchesAt a i = .ok true := by
  obtain ⟨op, hop, hType⟩ := h.head
  obtain ⟨shadow, hshadow, hsame⟩ := Arena.typesBelow_of_path h
  have htrigger : t.trigger = first := by
    rw [trigger, ht]
    cases rest <;> rfl
  have hdepth : t.depth - 1 = rest.length := by
    rw [Template.depth, ht, Pattern.depth_chain]
    omega
  rw [← hdepth] at hshadow
  simp only [matchesAt, examine, Arena.node_eq_ok.mpr (Arena.node?_of_op? hop), ok_bind, htrigger,
    hType, if_true, Arena.typeTree, hshadow]
  rw [ht, hsame]
  rfl

end TensorFusion
