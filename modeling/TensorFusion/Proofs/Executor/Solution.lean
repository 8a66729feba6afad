import TensorFusion.Proofs.Executor.Interpreter

/-!
# Proofs — Executor — Solution

Running operators as solving equations. Where the parameters are given from the start, an operator
is an equation between two names, and a run that writes each name once ends in a scope in which all
equations hold. From such a solution a run is found again, of any operators whose equations hold in
it, as long as each finds its input. All this holds for tensors and for their shapes alike.
-/

namespace TensorFusion

variable {α : Type} {I : Interpreter α}

/-! ## Equations -/

/-- The equation of an operator between two names holds in a scope. -/
structure Op.Solved (I : Interpreter α) (feeds T : Scope α) (op : Op) (n b : Atom) : Prop where
  source : op.source = .ok (.atom n)
  target : op.target = .ok (.atom b)
  value : ∃ x y, Table.get? T n = some x ∧ I.compute op feeds x = .ok y ∧
    Table.get? T b = some y

/-- A scope holds what was given and what some operators have put out, and nothing else. -/
def Scope.Fills (feeds : Scope α) (ops : List Op) (S : Scope α) : Prop :=
  ∀ b, (Table.get? S b).isSome ↔ (Table.get? feeds b).isSome ∨ ∃ op ∈ ops, op.Stores b

/-- A scope in which the equations of all operators hold, each of which finds its input. -/
structure Solution (I : Interpreter α) (feeds : Scope α) (ops : List Op) (T : Scope α) :
    Prop where
  within : feeds.Within T
  solved : ∀ (i : Nat) (op : Op), ops[i]? = some op → ∃ n b, op.Solved I feeds T n b ∧
    ((Table.get? feeds n).isSome ∨ ∃ w < i, ∃ e : Op, ops[w]? = some e ∧ e.Stores n)

variable {feeds S T : Scope α} {ops done : List Op} {op : Op} {n b : Atom}

theorem Op.Solved.mono (h : op.Solved I feeds S n b) (hle : S.Within T) :
    op.Solved I feeds T n b where
  source := h.source
  target := h.target
  value := by
    obtain ⟨x, y, hx, hy, hb⟩ := h.value
    exact ⟨x, y, hle n x hx, hy, hle b y hb⟩

theorem Scope.Fills.start (feeds : Scope α) : Scope.Fills feeds [] feeds := by
  simp [Fills]

theorem Scope.Fills.insert (h : Scope.Fills feeds done S) (htarget : op.target = .ok (.atom b))
    (y : α) : Scope.Fills feeds (done ++ [op]) (Table.insert S b y) := by
  intro c
  have hstores : op.Stores c ↔ b.same c = true := by
    constructor
    · intro h
      obtain ⟨b', hb', hsame⟩ := h
      rw [htarget] at hb'
      cases hb'
      exact hsame
    · exact fun hsame => ⟨b, htarget, hsame⟩
  simp only [Table.get?_insert, List.mem_append, List.mem_singleton, or_and_right, exists_or,
    exists_eq_left, hstores, ← or_assoc, ← h c]
  split
  next hsame => simp [hsame]
  next hsame => simp [hsame]

/-! ## From a run to a solution and back -/

/-- A solution is one of one more operator if it holds the equation of that, and the input is given
or put out before. -/
theorem Solution.concat (h : Solution I feeds done S) (hle : S.Within T)
    (hsolved : op.Solved I feeds T n b)
    (hsource : (Table.get? feeds n).isSome ∨ ∃ e ∈ done, e.Stores n) :
    Solution I feeds (done ++ [op]) T := by
  refine ⟨h.within.trans hle, fun i op' hop' => ?_⟩
  rcases Nat.lt_trichotomy i done.length with hi | rfl | hi
  · rw [List.getElem?_append_left hi] at hop'
    obtain ⟨n', b', hsolved', hsource'⟩ := h.solved i op' hop'
    refine ⟨n', b', hsolved'.mono hle, hsource'.imp_right ?_⟩
    intro hwriter
    obtain ⟨w, hw, e, he, hputs⟩ := hwriter
    exact ⟨w, hw, e, by rwa [List.getElem?_append_left (by omega)], hputs⟩
  · rw [List.getElem?_concat_length] at hop'
    cases hop'
    refine ⟨n, b, hsolved, hsource.imp_right ?_⟩
    intro hwriter
    obtain ⟨e, he, hputs⟩ := hwriter
    obtain ⟨w, hw⟩ := List.mem_iff_getElem?.mp he
    have hlt : w < done.length := (List.getElem?_eq_some_iff.mp hw).1
    exact ⟨w, hlt, e, by rwa [List.getElem?_append_left hlt], hputs⟩
  · rw [List.getElem?_eq_none (by rw [List.length_append]; exact hi)] at hop'
    cases hop'

/-- A run that writes each name once, and no name that is given, ends in a solution. -/
theorem Solution.of_run (hfed : ∀ op ∈ ops, op.IsFed feeds)
    (hfresh : ∀ op ∈ ops, ∀ b, op.Stores b → Table.get? feeds b = none)
    (honce : ops.Pairwise fun e e' => ∀ b, e.Stores b → ¬ e'.Stores b)
    (h : ops.foldlM I.step feeds = .ok T) :
    Solution I feeds ops T ∧ Scope.Fills feeds ops T := by
  refine foldlM_induction
    (motive := fun done S => Solution I feeds done S ∧ Scope.Fills feeds done S)
    ⟨⟨.refl feeds, by simp⟩, .start feeds⟩ (fun done op rest S S' hsplit hdone hrun => ?_) h
  obtain ⟨hsolution, hfills⟩ := hdone
  obtain ⟨n, b, x, y, hn, hb, hx, hy, rfl⟩ := I.step_eq_ok.mp hrun
  have hmem : op ∈ ops := by simp [hsplit]
  have hstores : op.Stores b := ⟨b, hb, Atom.same_refl b⟩
  -- The name is new, so nothing that is known is written over.
  have hnew : Table.get? S b = none := by
    rw [← Option.not_isSome_iff_eq_none, hfills b, hfresh op hmem b hstores]
    intro hfilled
    rcases hfilled with hgiven | ⟨e, he, hputs⟩
    · cases hgiven
    · rw [hsplit] at honce
      exact (List.pairwise_append.mp honce).2.2 e he op (by simp) b hputs hstores
  have hle : S.Within (Table.insert S b y) := .of_new hnew y
  have hsolved : op.Solved I feeds (Table.insert S b y) n b := {
    source := hn
    target := hb
    value := ⟨x, y, hle n x hx, I.compute_of_isFed (hfed op hmem) hsolution.within hy,
      by rw [Table.get?_insert, if_pos (Atom.same_refl b)]⟩ }
  exact ⟨hsolution.concat hle hsolved ((hfills n).mp (by rw [hx]; rfl)), hfills.insert hb y⟩

/-- Operators run on what is given to an end within every solution of their equations. -/
theorem Solution.run_total (h : Solution I feeds ops T) :
    ∃ S, ops.foldlM I.step feeds = .ok S ∧
      S.Within T ∧ Scope.Fills feeds ops S := by
  have hrun : ∃ S, ops.foldlM I.step feeds = .ok S ∧
      feeds.Within S ∧ S.Within T ∧ Scope.Fills feeds ops S := by
    refine foldlM_total
      (motive := fun done S => feeds.Within S ∧ S.Within T ∧ Scope.Fills feeds done S)
      ⟨.refl feeds, h.within, .start feeds⟩ fun done op rest S hsplit hS => ?_
    obtain ⟨hfeeds, hle, hfills⟩ := hS
    have hop : ops[done.length]? = some op := by simp [hsplit]
    obtain ⟨n, b, hsolved, hsource⟩ := h.solved _ op hop
    obtain ⟨x, y, hx, hy, hb⟩ := hsolved.value
    -- The input was given or is put out by now, and the scope holds it as the solution does.
    have hn : Table.get? S n = some x := by
      have hsome : (Table.get? S n).isSome := by
        refine (hfills n).mpr (hsource.imp_right ?_)
        intro hwriter
        obtain ⟨w, hw, e, he, hputs⟩ := hwriter
        rw [hsplit, List.getElem?_append_left hw] at he
        exact ⟨e, List.mem_of_getElem? he, hputs⟩
      obtain ⟨x', hx'⟩ := Option.isSome_iff_exists.mp hsome
      rw [hx', ← hx, hle n x' hx']
    exact ⟨Table.insert S b y, I.step_eq_ok.mpr
      ⟨n, b, x, y, hsolved.source, hsolved.target, hn, I.compute_mono hfeeds hy, rfl⟩,
      hfeeds.into_insert h.within hb, hle.insert hb, hfills.insert hsolved.target y⟩
  obtain ⟨S, hS, -, hle, hfills⟩ := hrun
  exact ⟨S, hS, hle, hfills⟩

end TensorFusion
