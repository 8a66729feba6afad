import TensorFusion.Proofs.Graph.Fuse
import TensorFusion.Proofs.Table

/-!
# Proofs — Graph — Merge

What a fused operator has in its slots: attributes and parameters as the operators of the path write
them one after another, under their new names, and the output slots of the last operator with each
name once.
-/

namespace TensorFusion

/-! ## Attributes and parameters -/

/-- Entries under the names that a renaming gives. -/
def renamed {α : Type} (pairs : Renaming) (entries : List (Atom × α)) : List (Atom × α) :=
  entries.map fun e => (Template.renameIn pairs e.1, e.2)

/-- All attributes of some operators under their new names, in the order in which they are
written. -/
def Template.attrWrites (t : Template) (ops : List Op) : List (Atom × Value) :=
  ops.flatMap fun op => renamed (t.renaming op.opType) op.attrs.entries

/-- All parameters of some operators under their new names, in the order in which they are
written. -/
def Template.paramWrites (t : Template) (ops : List Op) : List (Atom × List Value) :=
  ops.flatMap fun op => renamed (t.renaming op.opType) op.params.entries

theorem Table.insertAll_append {α : Type} (t : Table α) (xs ys : List (Atom × α)) :
    t.insertAll (xs ++ ys) = (t.insertAll xs).insertAll ys := by
  simp [insertAll]

theorem Gathered.add_eq (pairs : Renaming) (g : Gathered) (op : Op) : g.add pairs op =
    ⟨g.attrs.insertAll (renamed pairs op.attrs.entries),
      g.params.insertAll (renamed pairs op.params.entries)⟩ := by
  simp [Gathered.add, Table.insertAll, renamed, List.foldl_map]

theorem Template.merge_eq (t : Template) (ops : List Op) :
    t.merge ops = ⟨.ofList (t.attrWrites ops), .ofList (t.paramWrites ops)⟩ := by
  suffices ∀ g : Gathered, ops.foldl (Gathered.addAs t) g =
      ⟨g.attrs.insertAll (t.attrWrites ops), g.params.insertAll (t.paramWrites ops)⟩ from this {}
  induction ops with
  | nil => exact fun g => rfl
  | cons op ops ih =>
    intro g
    rw [List.foldl_cons, ih, Gathered.addAs, Gathered.add_eq]
    simp only [attrWrites, paramWrites, List.flatMap_cons, Table.insertAll_append]

theorem Template.get?_attrs (t : Template) (ops : List Op) (key : Atom) :
    (t.merge ops).attrs.get? key = Table.lookup (t.attrWrites ops).reverse key := by
  rw [merge_eq, Table.get?_ofList]

theorem Template.get?_params (t : Template) (ops : List Op) (key : Atom) :
    (t.merge ops).params.get? key = Table.lookup (t.paramWrites ops).reverse key := by
  rw [merge_eq, Table.get?_ofList]

section Lookup

variable {α : Type} {t : Template} (entriesOf : Op → List (Atom × α)) {ops pre post : List Op}
  {op : Op} {key new : Atom}

/-- Nothing is found at a key that no operator writes. -/
theorem Template.lookup_writes_eq_none
    (h : ∀ op ∈ ops, ∀ e ∈ entriesOf op, (renameIn (t.renaming op.opType) e.1).same new = false) :
    Table.lookup (ops.flatMap fun op => renamed (t.renaming op.opType) (entriesOf op)).reverse new
      = none := by
  rw [Table.lookup_eq_none_iff]
  intro e he
  obtain ⟨op, hop, hmem⟩ := List.mem_flatMap.mp (List.mem_reverse.mp he)
  obtain ⟨e', he', rfl⟩ := List.mem_map.mp hmem
  exact h op hop e' he'

/-- At a key that no later operator writes, what an operator writes there is found. -/
theorem Template.lookup_writes (hdistinct : ((entriesOf op).map fun e => e.1.key).Nodup)
    (hown : ∀ e ∈ entriesOf op, (renameIn (t.renaming op.opType) e.1).same new = e.1.same key)
    (hpost : ∀ op ∈ post, ∀ e ∈ entriesOf op,
      (renameIn (t.renaming op.opType) e.1).same new = false) :
    Table.lookup ((pre ++ op :: post).flatMap fun op =>
        renamed (t.renaming op.opType) (entriesOf op)).reverse new
      = (Table.lookup (entriesOf op) key).or (Table.lookup (pre.flatMap fun op =>
        renamed (t.renaming op.opType) (entriesOf op)).reverse new) := by
  have hop : Table.lookup (renamed (t.renaming op.opType) (entriesOf op)).reverse new
      = Table.lookup (entriesOf op) key := by
    rw [renamed, ← List.map_reverse, Table.lookup_map, Table.lookup_reverse hdistinct]
    exact fun e he => hown e (List.mem_reverse.mp he)
  rw [List.flatMap_append, List.flatMap_cons, List.reverse_append, List.reverse_append,
    Table.lookup_append, Table.lookup_append, lookup_writes_eq_none entriesOf hpost, hop,
    Option.none_or]

end Lookup

/-- A parameter of a fused operator is one of an operator that was fused. -/
theorem Template.exists_of_mem_params {t : Template} {ops : List Op} {name : Value}
    (h : name ∈ (t.merge ops).params.names) : ∃ op ∈ ops, name ∈ op.params.names := by
  obtain ⟨key, names, hkey, hname⟩ := Table.mem_names_iff.mp h
  rw [get?_params] at hkey
  obtain ⟨k, hmem, -⟩ := Table.mem_of_lookup hkey
  obtain ⟨op, hop, hentry⟩ := List.mem_flatMap.mp (List.mem_reverse.mp hmem)
  obtain ⟨e, he, heq⟩ := List.mem_map.mp hentry
  cases heq
  exact ⟨op, hop, List.mem_flatten.mpr ⟨e.2, List.mem_map_of_mem he, hname⟩⟩

/-! ## Output slots -/

theorem Value.atom_of_same_atom {v : Value} {a : Atom} (h : v.same (.atom a) = true) :
    ∃ b, v = .atom b ∧ b.same a = true := by
  cases v with
  | atom b => exact ⟨b, rfl, by simpa using h⟩
  | list items => simp [Value.same] at h
  | map entries => simp [Value.same] at h

theorem Value.same_trans_atom {v w : Value} {a : Atom} (h : v.same w = true)
    (h' : w.same (.atom a) = true) : v.same (.atom a) = true := by
  obtain ⟨b, rfl, hb⟩ := atom_of_same_atom h'
  obtain ⟨c, rfl, hc⟩ := atom_of_same_atom h
  simpa using Atom.same_trans hc hb

theorem appendNew_cons (names : List Value) (name : Value) (more : List Value) :
    appendNew names (name :: more)
      = appendNew (if names.any (·.same name) then names else names ++ [name]) more := rfl

/-- The names that are there stay in front. -/
theorem exists_appendNew_eq (names more : List Value) :
    ∃ added, appendNew names more = names ++ added := by
  induction more generalizing names with
  | nil => exact ⟨[], (List.append_nil names).symm⟩
  | cons name more ih =>
    obtain ⟨added, hadded⟩ := ih (if names.any (·.same name) then names else names ++ [name])
    rw [appendNew_cons, hadded]
    split
    · exact ⟨added, rfl⟩
    · exact ⟨name :: added, by simp⟩

/-- No name comes from elsewhere. -/
theorem mem_of_mem_appendNew {names more : List Value} {n : Value} (h : n ∈ appendNew names more) :
    n ∈ names ∨ n ∈ more := by
  induction more generalizing names with
  | nil => exact .inl h
  | cons name more ih =>
    rw [appendNew_cons] at h
    rcases ih h with h | h
    · split at h
      · exact .inl h
      · rcases List.mem_append.mp h with h | h
        · exact .inl h
        · exact .inr (List.mem_singleton.mp h ▸ List.mem_cons_self ..)
    · exact .inr (List.mem_cons_of_mem _ h)

/-- Each name is kept, if not in every spelling. -/
theorem any_same_appendNew (names more : List Value) (a : Atom) :
    (appendNew names more).any (·.same (.atom a))
      = (names.any (·.same (.atom a)) || more.any (·.same (.atom a))) := by
  induction more generalizing names with
  | nil => simp [appendNew]
  | cons name more ih =>
    rw [appendNew_cons, ih]
    split
    next hthere =>
      -- The name is left out, but another spelling of it is there.
      obtain ⟨m, hm, hsame⟩ := List.any_eq_true.mp hthere
      by_cases hname : name.same (.atom a) = true
      · have hany : names.any (·.same (.atom a)) = true :=
          List.any_eq_true.mpr ⟨m, hm, Value.same_trans_atom hsame hname⟩
        simp [hany]
      · simp [hname]
    next => simp [Bool.or_assoc]

/-- Slots joined one after another, at keys that are all different and not yet there, are added
behind the others. -/
theorem Slots.entries_foldl_join {entries : List (Atom × List Value)} (slots : Slots)
    (hdistinct : (entries.map fun e => e.1.key).Nodup)
    (hfree : ∀ e ∈ entries, slots.get? e.1 = none) :
    (entries.foldl (fun slots e => Table.insert slots e.1
      (appendNew ((Table.get? slots e.1).getD []) e.2)) slots).entries
    = slots.entries ++ entries.map fun e => (e.1, appendNew [] e.2) := by
  induction entries generalizing slots with
  | nil => exact (List.append_nil _).symm
  | cons e rest ih =>
    obtain ⟨k, v⟩ := e
    obtain ⟨hhead, hrest⟩ := List.nodup_cons.mp hdistinct
    have hk : slots.get? k = none := hfree (k, v) (by simp)
    have hother : ∀ e ∈ rest, k.key ≠ e.1.key := fun e he hkey =>
      hhead (List.mem_map.mpr ⟨e, he, hkey.symm⟩)
    have hfree' : ∀ e ∈ rest, (slots.insert k (appendNew [] v)).get? e.1 = none := fun e he => by
      rw [Table.get?_insert, if_neg (mt Atom.same_iff.mp (hother e he))]
      exact hfree e (List.mem_cons_of_mem _ he)
    have hinsert : (slots.insert k (appendNew [] v)).entries
        = slots.entries ++ [(k, appendNew [] v)] := Table.assign_of_lookup_none hk _
    rw [List.foldl_cons, hk, Option.getD_none, ih _ hrest hfree', hinsert, List.append_assoc]
    rfl

/-- The slots of an operator, joined to none, are its slots with each name once. -/
theorem Slots.join_empty (more : Slots) : Slots.join {} more = more.mapValues (appendNew []) :=
  Table.ext (entries_foldl_join {} more.distinct fun _ _ => rfl)

theorem Slots.get?_join_empty (more : Slots) (key : Atom) :
    (Slots.join {} more).get? key = (more.get? key).map (appendNew []) := by
  rw [join_empty, Table.get?_mapValues]

/-- The slots of an operator, joined to none, put out the same names. -/
theorem Slots.any_names_join_empty (more : Slots) (a : Atom) :
    (Slots.join {} more).names.any (·.same (.atom a)) = more.names.any (·.same (.atom a)) := by
  rw [Bool.eq_iff_iff, List.any_eq_true, List.any_eq_true]
  have hslot : ∀ names : List Value, (∃ n ∈ appendNew [] names, n.same (.atom a) = true) ↔
      ∃ n ∈ names, n.same (.atom a) = true := fun names => by
    have h := any_same_appendNew [] names a
    rw [List.any_nil, Bool.false_or, Bool.eq_iff_iff, List.any_eq_true, List.any_eq_true] at h
    exact h
  constructor
  · intro h
    obtain ⟨n, hn, hsame⟩ := h
    obtain ⟨key, names, hkey, hname⟩ := Table.mem_names_iff.mp hn
    rw [get?_join_empty, Option.map_eq_some_iff] at hkey
    obtain ⟨names', hkey', rfl⟩ := hkey
    obtain ⟨m, hm, hmsame⟩ := (hslot names').mp ⟨n, hname, hsame⟩
    exact ⟨m, Table.mem_names_iff.mpr ⟨key, names', hkey', hm⟩, hmsame⟩
  · intro h
    obtain ⟨n, hn, hsame⟩ := h
    obtain ⟨key, names, hkey, hname⟩ := Table.mem_names_iff.mp hn
    obtain ⟨m, hm, hmsame⟩ := (hslot names).mpr ⟨n, hname, hsame⟩
    refine ⟨m, Table.mem_names_iff.mpr ⟨key, appendNew [] names, ?_, hm⟩, hmsame⟩
    rw [get?_join_empty, hkey]
    rfl

end TensorFusion
