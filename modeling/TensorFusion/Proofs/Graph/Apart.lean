import TensorFusion.Proofs.Graph.Part
import TensorFusion.Proofs.Pass.Survivors

/-!
# Proofs — Graph — Apart

The graph of some of the operators of a program, where the others write nothing that they read and
read nothing that they write. It is the part of the graph of the whole program.
-/

namespace TensorFusion

/-- The operators on a side, in order. -/
def opsOn (side : Nat → Bool) (ops : List Op) : List Op :=
  (positionsOf side ops.length).filterMap fun i => ops[i]?

/-- No operator reads what an operator on the other side writes. -/
def IsApart (r : Registry) (side : Nat → Bool) (ops : List Op) : Prop :=
  ∀ i j op op', ops[i]? = some op → ops[j]? = some op' → side i ≠ side j →
    ∀ n ∈ r.reads op, r.writesName op' n = false

section Apart

variable {r : Registry} {side : Nat → Bool} {ops : List Op} {i : Nat}

theorem IsApart.not (h : IsApart r side ops) : IsApart r (fun i => !side i) ops :=
  fun i j op op' hop hop' hne => h i j op op' hop hop' fun heq => hne (by simp [heq])

theorem length_opsOn : (opsOn side ops).length = placeOf side ops.length := by
  have hall : ∀ i ∈ positionsOf side ops.length, (ops[i]?).isSome = true := fun i hi => by
    rw [List.getElem?_eq_getElem (mem_positionsOf.mp hi).1]
    rfl
  rw [opsOn, List.length_filterMap_eq_countP, List.countP_eq_length.mpr hall, placeOf]

theorem getElem?_opsOn (hi : side i = true) : (opsOn side ops)[placeOf side i]? = ops[i]? := by
  rcases Nat.lt_or_ge i ops.length with hlt | hge
  · have hsome : ∀ i ∈ positionsOf side ops.length, ∃ op, ops[i]? = some op := fun i hi =>
      ⟨_, List.getElem?_eq_getElem (mem_positionsOf.mp hi).1⟩
    rw [opsOn, getElem?_filterMap_of_forall hsome, getElem?_positionsOf hi hlt]
    rfl
  · rw [List.getElem?_eq_none_iff.mpr hge, List.getElem?_eq_none_iff, length_opsOn]
    exact placeOf_le hge

/-! ## Edges -/

/-- A name that is written on one side only has its last writer there. -/
theorem lastWriter_opsOn {name : Value}
    (hother : ∀ j op, ops[j]? = some op → side j = false → r.writesName op name = false) (k : Nat) :
    lastWriter r (opsOn side ops) name (placeOf side k)
      = (lastWriter r ops name k).map (placeOf side) := by
  induction k with
  | zero => rfl
  | succ k ih =>
    rw [placeOf_succ]
    by_cases hk : side k = true
    · rw [if_pos hk, lastWriter, lastWriter, getElem?_opsOn hk, ih]
      split <;> rfl
    · have hnot : ((ops[k]?).any fun op => r.writesName op name) = false := by
        cases hop : ops[k]? with
        | none => rfl
        | some op => exact hother k op hop (by simpa using hk)
      rw [if_neg hk, lastWriter, hnot]
      simpa using ih

/-- The producers of an operator are on its side. -/
theorem IsApart.side_of_mem_producersOf (h : IsApart r side ops) {k : Nat}
    (hi : i ∈ producersOf r ops k) : side i = side k := by
  unfold producersOf at hi
  split at hi
  next op hop =>
    obtain ⟨n, hn, hwriter⟩ := List.mem_filterMap.mp hi
    obtain ⟨-, ⟨op', hop', hwrites⟩, -⟩ := lastWriter_eq_some_iff.mp hwriter
    by_contra hne
    rw [h k i op op' hop hop' (fun heq => hne heq.symm) n hn] at hwrites
    cases hwrites
  next => cases hi

theorem IsApart.producersOf_opsOn (h : IsApart r side ops) (hi : side i = true) :
    producersOf r (opsOn side ops) (placeOf side i) = (producersOf r ops i).map (placeOf side) := by
  cases hop : ops[i]? with
  | none => simp [producersOf, getElem?_opsOn hi, hop]
  | some op =>
    rw [producersOf_eq hop, producersOf_eq ((getElem?_opsOn hi).trans hop), List.map_filterMap]
    refine List.filterMap_congr fun n hn => ?_
    refine lastWriter_opsOn (fun j op' hop' hj => ?_) i
    exact h i j op op' hop hop' (by simp [hi, hj]) n hn

/-- Each producer is counted as often under its number. -/
theorem count_map_placeOf {ks : List Nat} (hi : side i = true) (hks : ∀ k ∈ ks, side k = true) :
    (ks.map (placeOf side)).count (placeOf side i) = ks.count i := by
  rw [List.count, List.count, List.countP_map]
  refine List.countP_congr fun k hk => ?_
  have hiff : placeOf side k = placeOf side i ↔ k = i :=
    ⟨placeOf_inj (hks k hk) hi, fun heq => heq ▸ rfl⟩
  simp [hiff]

theorem IsApart.consumersOf_opsOn (h : IsApart r side ops) (hi : side i = true) (k : Nat) :
    consumersOf r (opsOn side ops) (placeOf side k) (placeOf side i)
      = (consumersOf r ops k i).map (placeOf side) := by
  induction k with
  | zero => rfl
  | succ k ih =>
    rw [placeOf_succ, consumersOf_succ, List.map_append, List.map_replicate]
    by_cases hk : side k = true
    · have hcount : (producersOf r (opsOn side ops) (placeOf side k)).count (placeOf side i)
          = (producersOf r ops k).count i := by
        rw [h.producersOf_opsOn hk]
        exact count_map_placeOf hi fun j hj => (h.side_of_mem_producersOf hj).trans hk
      rw [if_pos hk, consumersOf_succ, ih, hcount]
    · have hcount : (producersOf r ops k).count i = 0 := List.count_eq_zero.mpr fun hmem =>
        hk ((h.side_of_mem_producersOf hmem).symm.trans hi)
      rw [if_neg hk, hcount, Nat.add_zero, ih]
      simp

/-! ## The graph -/

variable {g g' : Graph}

theorem IsApart.splits (h : IsApart r side ops) (hg : g.IsOf r ops) : g.arena.Splits side where
  outputs := fun i k hk => (h.side_of_mem_producersOf (hg.mem_outputs.mp hk)).symm
  inputs := fun k i hi => by
    rw [hg.inputs] at hi
    exact h.side_of_mem_producersOf hi

/-- The graph of the operators on a side is the part of the graph of them all. -/
theorem IsApart.isPart (h : IsApart r side ops) (hg : g.IsOf r ops)
    (hg' : g'.IsOf r (opsOn side ops)) : g.arena.IsPart side g'.arena where
  size := by rw [hg'.size, hg.size, length_opsOn]
  op? := fun i hi => by rw [hg'.op?, hg.op?, getElem?_opsOn hi]
  inputs := fun i hi => by rw [hg'.inputs, hg.inputs, h.producersOf_opsOn hi]
  outputs := fun i hi => by rw [hg'.outputs, hg.outputs, length_opsOn, h.consumersOf_opsOn hi]

/-- The candidates on a side are the candidates in the part, in the same order. -/
theorem Graph.IsOf.candidates_opsOn (hg : g.IsOf r ops) (hg' : g'.IsOf r (opsOn side ops))
    {v : Value} {candidates : List Nat} (h : g.candidates v = .ok candidates) :
    g'.candidates v = .ok ((candidates.filter side).map (placeOf side)) := by
  cases v with
  | list items => cases h
  | map entries => cases h
  | atom a =>
    have hgroup : ∀ k, (List.range (placeOf side k)).filter
          (fun x => ((opsOn side ops)[x]?).any (·.opType.same (.atom a)))
        = (((List.range k).filter fun i => (ops[i]?).any (·.opType.same (.atom a))).filter
          side).map (placeOf side) := by
      intro k
      induction k with
      | zero => rfl
      | succ k ih =>
        rw [placeOf_succ, List.range_succ, List.filter_append, List.filter_append, List.map_append]
        by_cases hk : side k = true
        · rw [if_pos hk, List.range_succ, List.filter_append, ih]
          by_cases hType : (ops[k]?).any (·.opType.same (.atom a)) = true <;>
            simp [getElem?_opsOn hk, hType, hk]
        · rw [if_neg hk, Nat.add_zero, ih]
          by_cases hType : (ops[k]?).any (·.opType.same (.atom a)) = true <;>
            simp [hType, hk]
    cases h
    rw [candidates, hg'.groups, hg.groups, length_opsOn, hgroup]

end Apart

end TensorFusion
