import TensorFusion.Graph.Build
import TensorFusion.Proofs.Results
import TensorFusion.Proofs.Table

/-!
# Proofs — Declared

What an operator reads and writes in the slots that its type declares. These are the names that a
graph is built from; names in other slots and in parameters make no edges.
-/

namespace TensorFusion

/-- The names among some values. -/
def Value.atoms (values : List Value) : List Atom := values.filterMap Value.atom?

theorem Value.mem_atoms {values : List Value} {b : Atom} :
    b ∈ atoms values ↔ .atom b ∈ values := by
  simp only [atoms, List.mem_filterMap]
  constructor
  · intro h
    obtain ⟨v, hv, hatom⟩ := h
    cases v <;> cases hatom
    exact hv
  · exact fun h => ⟨_, h, rfl⟩

/-- The names that an operator reads in any slot of its inputs or its parameters. -/
def Op.operands (op : Op) : List Value := op.inputs.names ++ op.params.names

/-- Whether an operator puts out a name in any of its output slots. -/
def Op.putsOut (op : Op) (name : Atom) : Bool := op.outputs.names.any (·.same (.atom name))

namespace Registry

/-- The slots that a type declares; none where the type is unknown. -/
def slotsOfType (r : Registry) (opType : Value) : SlotKeys :=
  match r.lookup opType >>= Signature.slotKeys with
  | .ok slots => slots
  | .error _ => ⟨[], []⟩

/-- The slots that the type of an operator declares. -/
def slotsOf (r : Registry) (op : Op) : SlotKeys := r.slotsOfType op.opType

/-- The names that an operator reads in its declared input slots. -/
def reads (r : Registry) (op : Op) : List Value := Slots.select op.inputs (r.slotsOf op).inputs

/-- The names that an operator writes in its declared output slots. -/
def writes (r : Registry) (op : Op) : List Value := Slots.select op.outputs (r.slotsOf op).outputs

/-- The names that an operator reads in input slots that its type does not declare, and in its
parameters. -/
def otherReads (r : Registry) (op : Op) : List Value :=
  ((op.inputs.entries.filter fun e => !(r.slotsOf op).inputs.any (·.same e.1)).flatMap (·.2))
    ++ op.params.names

/-- Whether an operator reads a name in a declared input slot. -/
def readsName (r : Registry) (op : Op) (name : Value) : Bool := (r.reads op).any (·.same name)

/-- Whether an operator writes a name in a declared output slot. -/
def writesName (r : Registry) (op : Op) (name : Value) : Bool := (r.writes op).any (·.same name)

theorem writesName_iff {r : Registry} {op : Op} {name : Value} :
    r.writesName op name = true ↔ ∃ n ∈ r.writes op, n.same name = true := by
  simp [writesName]

theorem readsName_iff {r : Registry} {op : Op} {name : Value} :
    r.readsName op name = true ↔ ∃ n ∈ r.reads op, n.same name = true := by
  simp [readsName]

/-- What an operator reads, it reads in a declared slot or in another. -/
theorem mem_reads_or_otherReads {r : Registry} {op : Op} {name : Value}
    (h : name ∈ op.inputs.names) : name ∈ r.reads op ∨ name ∈ r.otherReads op := by
  obtain ⟨names, hnames, hname⟩ := List.mem_flatten.mp h
  obtain ⟨e, he, rfl⟩ := List.mem_map.mp hnames
  by_cases hdeclared : (r.slotsOf op).inputs.any (·.same e.1) = true
  · obtain ⟨slot, hslot, hsame⟩ := List.any_eq_true.mp hdeclared
    have hget : op.inputs.get? slot = some e.2 :=
      Table.lookup_of_mem op.inputs.distinct he (by rw [Atom.same_comm]; exact hsame)
    refine .inl (List.mem_flatMap.mpr ⟨slot, hslot, ?_⟩)
    rw [hget]
    exact hname
  · refine .inr (List.mem_append_left _ (List.mem_flatMap.mpr ⟨e, ?_, hname⟩))
    exact List.mem_filter.mpr ⟨he, by simpa using hdeclared⟩

/-- What an operator writes in a declared slot it puts out. -/
theorem putsOut_of_writesName {r : Registry} {op : Op} {name : Atom}
    (h : r.writesName op (.atom name) = true) : op.putsOut name = true := by
  obtain ⟨n, hn, hsame⟩ := writesName_iff.mp h
  obtain ⟨slot, -, hmem⟩ := List.mem_flatMap.mp hn
  refine List.any_eq_true.mpr ⟨n, ?_, hsame⟩
  cases hget : op.outputs.get? slot with
  | none => simp [hget] at hmem
  | some names =>
    rw [hget] at hmem
    exact Table.mem_names_iff.mpr ⟨slot, names, hget, hmem⟩

theorem slotsOf_eq {r : Registry} {op : Op} {signature : Signature} {slots : SlotKeys}
    (h : r.lookup op.opType = .ok signature) (h' : signature.slotKeys = .ok slots) :
    r.slotsOf op = slots := by
  simp only [slotsOf, slotsOfType, h, ok_bind, h']

/-- Operators whose types are all registered with slots that are keys are paired with the slots
that their types declare. -/
theorem zip_slots {r : Registry} {ops : List Op} {signatures : List Signature}
    {slots : List SlotKeys} (h : (ops.mapM fun op => r.lookup op.opType) = .ok signatures)
    (h' : signatures.mapM Signature.slotKeys = .ok slots) :
    ops.zip slots = ops.map fun op => (op, r.slotsOf op) := by
  induction ops generalizing signatures slots with
  | nil => rfl
  | cons op ops ih =>
    obtain ⟨signature, signatures', hsignature, hsignatures, rfl⟩ := mapM_cons_eq_ok.mp h
    obtain ⟨keys, slots', hkeys, hslots, rfl⟩ := mapM_cons_eq_ok.mp h'
    simp [slotsOf_eq hsignature hkeys, ih hsignatures hslots]

end Registry

/-! ## Last writers -/

/-- The position of the last operator before a position that writes a name. -/
def lastWriter (r : Registry) (ops : List Op) (name : Value) : Nat → Option Nat
  | 0 => none
  | k + 1 =>
      if (ops[k]?).any fun op => r.writesName op name then some k
      else lastWriter r ops name k

variable {r : Registry} {ops : List Op} {name : Value}

theorem lastWriter_lt {k w : Nat} (h : lastWriter r ops name k = some w) : w < k := by
  induction k with
  | zero => simp [lastWriter] at h
  | succ k ih =>
    rw [lastWriter] at h
    split at h
    · cases h
      omega
    · have := ih h
      omega

/-- A last writer writes the name, and nothing behind it does. -/
theorem lastWriter_eq_some_iff {k w : Nat} :
    lastWriter r ops name k = some w ↔
      w < k ∧ (∃ op, ops[w]? = some op ∧ r.writesName op name = true) ∧
      ∀ v op, w < v → v < k → ops[v]? = some op → r.writesName op name = false := by
  induction k with
  | zero => simp [lastWriter]
  | succ k ih =>
    rw [lastWriter]
    split
    next hk =>
      -- The operator next to the bound writes the name, so it is the last that does.
      simp only [Option.any_eq_true] at hk
      obtain ⟨op, hop, hwrites⟩ := hk
      constructor
      · rintro ⟨rfl⟩
        exact ⟨Nat.lt_succ_self _, ⟨op, hop, hwrites⟩, fun v _ hv hv' => by omega⟩
      · intro h
        obtain ⟨hw, -, hlast⟩ := h
        by_cases hwk : w = k
        · rw [hwk]
        · rw [hlast k op (by omega) (by omega) hop] at hwrites
          exact absurd hwrites (by simp)
    next hk =>
      -- It does not, so the last writer is the one that it was before.
      rw [ih]
      constructor
      · intro h
        obtain ⟨hw, hwriter, hlast⟩ := h
        refine ⟨by omega, hwriter, fun v op hv hv' hop => ?_⟩
        by_cases hvk : v = k
        · subst hvk
          simpa [hop] using hk
        · exact hlast v op hv (by omega) hop
      · intro h
        obtain ⟨hw, ⟨op, hop, hwrites⟩, hlast⟩ := h
        have hwk : w ≠ k := by
          rintro rfl
          simp [hop, hwrites] at hk
        exact ⟨by omega, ⟨op, hop, hwrites⟩,
          fun v op hv hv' hop => hlast v op hv (by omega) hop⟩

/-- Where a name is written before a position, it has a last writer. -/
theorem exists_lastWriter {k w : Nat} {op : Op} (hw : w < k) (hop : ops[w]? = some op)
    (hwrites : r.writesName op name = true) : ∃ v, lastWriter r ops name k = some v ∧ w ≤ v := by
  induction k with
  | zero => omega
  | succ k ih =>
    rw [lastWriter]
    split
    · exact ⟨k, rfl, by omega⟩
    next hk =>
      have hwk : w ≠ k := by
        rintro rfl
        simp [hop, hwrites] at hk
      exact ih (by omega)

/-- Where a name has no last writer, nothing before writes it. -/
theorem lastWriter_eq_none_iff {k : Nat} : lastWriter r ops name k = none ↔
    ∀ v op, v < k → ops[v]? = some op → r.writesName op name = false := by
  constructor
  · intro h v op hv hop
    rw [← Bool.not_eq_true]
    intro hwrites
    obtain ⟨w, hw, -⟩ := exists_lastWriter hv hop hwrites
    rw [h] at hw
    cases hw
  · intro h
    cases hw : lastWriter r ops name k with
    | none => rfl
    | some w =>
      obtain ⟨hwk, ⟨op, hop, hwrites⟩, -⟩ := lastWriter_eq_some_iff.mp hw
      rw [h w op hwk hop] at hwrites
      cases hwrites

/-- A name has one last writer in all its spellings. -/
theorem lastWriter_congr {a b : Atom} (h : a.same b = true) (k : Nat) :
    lastWriter r ops (.atom a) k = lastWriter r ops (.atom b) k := by
  have hsame : ∀ v : Value, v.same (.atom a) = v.same (.atom b) := fun v => by
    cases v with
    | atom c => simp [Atom.same, Atom.same_iff.mp h]
    | list items => simp [Value.same]
    | map entries => simp [Value.same]
  have hwrites : (fun op => r.writesName op (.atom a)) = fun op => r.writesName op (.atom b) := by
    funext op
    simp only [Registry.writesName, hsame]
  induction k with
  | zero => rfl
  | succ k ih => rw [lastWriter, lastWriter, hwrites, ih]

end TensorFusion
