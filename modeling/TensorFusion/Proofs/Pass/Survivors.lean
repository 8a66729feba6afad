import Mathlib.Data.List.Basic
import Mathlib.Data.List.Induction
import TensorFusion.Optimizer
import TensorFusion.Proofs.Graph.Edges

/-!
# Proofs — Pass — Survivors

The operators that a pass leaves, by their positions. They stand in the order of the first program,
so what comes before one of them in the result came before it at first.
-/

namespace TensorFusion

/-- The positions below a bound that are not absorbed, in order. -/
def survivorsOf (removed : List Nat) (bound : Nat) : List Nat :=
  (List.range bound).filter (· ∉ removed)

theorem mem_survivorsOf {removed : List Nat} {bound i : Nat} :
    i ∈ survivorsOf removed bound ↔ i < bound ∧ i ∉ removed := by
  simp [survivorsOf]

theorem survivorsOf_pairwise (removed : List Nat) (bound : Nat) :
    (survivorsOf removed bound).Pairwise (· < ·) :=
  List.Pairwise.filter _ List.pairwise_lt_range

private theorem zipIdx_filter_map {α β : Type} (f : α → β) (p : Nat → Bool) (as : List α) :
    (as.zipIdx.filter fun e => p e.2).map (fun e => f e.1)
      = ((List.range as.length).filter p).filterMap fun i => (as[i]?).map f := by
  -- From the end, since a new last element leaves the positions of the others as they are.
  induction as using List.reverseRecOn with
  | nil => rfl
  | append_singleton as a ih =>
    have hfront : ((List.range as.length).filter p).filterMap (fun i => ((as ++ [a])[i]?).map f)
        = ((List.range as.length).filter p).filterMap fun i => (as[i]?).map f := by
      refine List.filterMap_congr fun i hi => ?_
      have hlt : i < as.length := List.mem_range.mp (List.mem_filter.mp hi).1
      rw [List.getElem?_append_left hlt]
    rw [List.zipIdx_append, List.filter_append, List.map_append, ih, List.length_append,
      List.length_singleton, List.range_succ, List.filter_append, List.filterMap_append, hfront]
    by_cases hp : p as.length = true <;> simp [hp]

/-- The operators that are left stand at the positions that are left. -/
theorem Pass.survivors_eq (s : Pass) :
    s.survivors = (survivorsOf s.removed s.arena.size).filterMap s.arena.op? := by
  have h := zipIdx_filter_map Node.op (fun i => !s.removed.contains i) s.arena.nodes
  rw [Pass.survivors, h]
  simp only [survivorsOf, Arena.size]
  congr 1
  refine List.filter_congr fun i _ => ?_
  simp

/-- What comes before an operator in the result is what is left of what came before it. -/
theorem exists_position {removed : List Nat} {bound : Nat} {q : Nat → Option Op}
    {before after : List Op} {op : Op}
    (h : (survivorsOf removed bound).filterMap q = before ++ op :: after) :
    ∃ i, i < bound ∧ i ∉ removed ∧ q i = some op ∧
      ∀ j e, j < i → j ∉ removed → q j = some e → e ∈ before := by
  obtain ⟨front, rest, hsplit, hfront, hrest⟩ := List.filterMap_eq_append_iff.mp h
  obtain ⟨skipped, i, back, hsplit', hskipped, hi, -⟩ := List.filterMap_eq_cons_iff.mp hrest
  have hpositions : survivorsOf removed bound = (front ++ skipped) ++ i :: back := by
    rw [hsplit, hsplit', List.append_assoc]
  have hmem : i ∈ survivorsOf removed bound := by simp [hpositions]
  obtain ⟨hbound, hlive⟩ := mem_survivorsOf.mp hmem
  refine ⟨i, hbound, hlive, hi, fun j e hj hjlive hje => ?_⟩
  have hjmem : j ∈ survivorsOf removed bound := mem_survivorsOf.mpr ⟨by omega, hjlive⟩
  have hpairwise := survivorsOf_pairwise removed bound
  rw [hpositions] at hjmem hpairwise
  -- The positions are in ascending order, so the smaller one stands in front.
  rcases List.mem_append.mp hjmem with hjmem | hjmem
  · rcases List.mem_append.mp hjmem with hjmem | hjmem
    · rw [← hfront]
      exact List.mem_filterMap.mpr ⟨j, hjmem, hje⟩
    · rw [hskipped j hjmem] at hje
      cases hje
  · rcases List.mem_cons.mp hjmem with rfl | hjmem
    · omega
    · have hback := (List.pairwise_cons.mp (List.pairwise_append.mp hpairwise).2.1).1 j hjmem
      omega

/-- In an ascending list a smaller element comes first. -/
theorem lt_of_getElem?_lt {ks : List Nat} (h : ks.Pairwise (· < ·)) {x y i j : Nat}
    (hx : ks[x]? = some i) (hy : ks[y]? = some j) (hij : i < j) : x < y := by
  obtain ⟨hxlt, rfl⟩ := List.getElem?_eq_some_iff.mp hx
  obtain ⟨hylt, rfl⟩ := List.getElem?_eq_some_iff.mp hy
  rcases Nat.lt_trichotomy x y with hlt | rfl | hgt
  · exact hlt
  · omega
  · have := List.pairwise_iff_getElem.mp h y x hylt hxlt hgt
    omega

/-- In an ascending list an earlier element is smaller. -/
theorem lt_of_lt_getElem? {ks : List Nat} (h : ks.Pairwise (· < ·)) {x y i j : Nat}
    (hx : ks[x]? = some i) (hy : ks[y]? = some j) (hxy : x < y) : i < j := by
  obtain ⟨hxlt, rfl⟩ := List.getElem?_eq_some_iff.mp hx
  obtain ⟨hylt, rfl⟩ := List.getElem?_eq_some_iff.mp hy
  exact List.pairwise_iff_getElem.mp h x y hxlt hylt hxy

/-- Where every position has something, it stands in the order of the positions. -/
theorem getElem?_filterMap_of_forall {α : Type} {ks : List Nat} {q : Nat → Option α}
    (h : ∀ i ∈ ks, ∃ b, q i = some b) (x : Nat) : (ks.filterMap q)[x]? = ks[x]?.bind q := by
  induction ks generalizing x with
  | nil => simp
  | cons k ks ih =>
    obtain ⟨b, hb⟩ := h k (by simp)
    rw [List.filterMap_cons_some hb]
    cases x with
    | zero => simp [hb]
    | succ x => simpa using ih (fun i hi => h i (by simp [hi])) x

theorem Arena.getElem?_survivors (a : Arena) (removed : List Nat) (x : Nat) :
    ((survivorsOf removed a.size).filterMap a.op?)[x]?
      = (survivorsOf removed a.size)[x]?.bind a.op? :=
  getElem?_filterMap_of_forall (fun _ hi => op?_of_lt (mem_survivorsOf.mp hi).1) x

theorem Arena.length_survivors (a : Arena) (removed : List Nat) :
    ((survivorsOf removed a.size).filterMap a.op?).length
      = (survivorsOf removed a.size).length := by
  have hall : ∀ i ∈ survivorsOf removed a.size, (a.op? i).isSome = true := fun i hi => by
    obtain ⟨op, hop⟩ := op?_of_lt (mem_survivorsOf.mp hi).1
    rw [hop]
    rfl
  rw [List.length_filterMap_eq_countP, List.countP_eq_length]
  exact hall

end TensorFusion
