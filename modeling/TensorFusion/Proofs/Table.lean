import TensorFusion.Program.Basic

/-!
# Proofs — Table

Reading back what was written to a table. Of several writes to one key the last one counts, so a
table written from a list is read like the list from its end.
-/

namespace TensorFusion.Table

variable {α β : Type}

theorem lookup_append (xs ys : List (Atom × α)) (key : Atom) :
    lookup (xs ++ ys) key = (lookup xs key).or (lookup ys key) := by
  induction xs with
  | nil => rfl
  | cons x xs ih =>
    obtain ⟨k, v⟩ := x
    simp only [List.cons_append, lookup, ih]
    by_cases h : k.same key = true <;> simp [h]

theorem lookup_eq_none_iff {entries : List (Atom × α)} {key : Atom} :
    lookup entries key = none ↔ ∀ e ∈ entries, e.1.same key = false := by
  induction entries with
  | nil => simp [lookup]
  | cons e rest ih =>
    obtain ⟨k, v⟩ := e
    by_cases h : k.same key = true <;> simp [lookup, h, ih]

theorem mem_of_lookup {entries : List (Atom × α)} {key : Atom} {v : α}
    (h : lookup entries key = some v) : ∃ k, (k, v) ∈ entries ∧ k.same key = true := by
  induction entries with
  | nil => simp [lookup] at h
  | cons e rest ih =>
    obtain ⟨k, w⟩ := e
    by_cases hk : k.same key = true
    · rw [lookup, if_pos hk] at h
      cases h
      exact ⟨k, by simp, hk⟩
    · rw [lookup, if_neg hk] at h
      obtain ⟨k', hmem, hk'⟩ := ih h
      exact ⟨k', List.mem_cons_of_mem _ hmem, hk'⟩

/-- What is found at a key is the first that was entered there. -/
theorem lookup_eq_some_iff {entries : List (Atom × α)} {key : Atom} {v : α} :
    lookup entries key = some v ↔ ∃ xs k ys, entries = xs ++ (k, v) :: ys ∧
      k.same key = true ∧ ∀ e ∈ xs, e.1.same key = false := by
  constructor
  · intro h
    induction entries with
    | nil => simp [lookup] at h
    | cons e rest ih =>
      obtain ⟨k, w⟩ := e
      by_cases hk : k.same key = true
      · rw [lookup, if_pos hk] at h
        cases h
        exact ⟨[], k, rest, rfl, hk, by simp⟩
      · rw [lookup, if_neg hk] at h
        obtain ⟨xs, k', ys, rfl, hk', hxs⟩ := ih h
        refine ⟨(k, w) :: xs, k', ys, rfl, hk', fun e he => ?_⟩
        rcases List.mem_cons.mp he with rfl | he
        · simpa using hk
        · exact hxs e he
  · intro h
    obtain ⟨xs, k, ys, rfl, hk, hxs⟩ := h
    rw [lookup_append, lookup_eq_none_iff.mpr hxs, Option.none_or, lookup, if_pos hk]

/-- What is assigned to a key that is there takes the place of what is found there. -/
theorem assign_of_lookup_some {entries : List (Atom × α)} {key : Atom} {v : α}
    (h : lookup entries key = some v) (value : α) : ∃ xs k ys, entries = xs ++ (k, v) :: ys ∧
      k.same key = true ∧ assign entries key value = xs ++ (k, value) :: ys := by
  induction entries with
  | nil => simp [lookup] at h
  | cons e rest ih =>
    obtain ⟨k, w⟩ := e
    rw [assign]
    by_cases hk : k.same key = true
    · rw [lookup, if_pos hk] at h
      cases h
      exact ⟨[], k, rest, rfl, hk, if_pos hk⟩
    · rw [lookup, if_neg hk] at h
      obtain ⟨xs, k', ys, rfl, hk', hassign⟩ := ih h
      exact ⟨(k, w) :: xs, k', ys, rfl, hk', by rw [if_neg hk, hassign]; rfl⟩

/-- Of keys that are all different each one is found. -/
theorem lookup_of_mem {entries : List (Atom × α)} {key k : Atom} {v : α}
    (hdistinct : (entries.map fun e => e.1.key).Nodup) (h : (k, v) ∈ entries)
    (hk : k.same key = true) : lookup entries key = some v := by
  induction entries with
  | nil => simp at h
  | cons e rest ih =>
    obtain ⟨k', w⟩ := e
    obtain ⟨hhead, hrest⟩ := List.nodup_cons.mp hdistinct
    rcases List.mem_cons.mp h with heq | h
    · cases heq
      rw [lookup, if_pos hk]
    · rw [lookup, if_neg, ih hrest h]
      -- The head has another key, or the key would stand twice.
      intro hk'
      refine hhead (List.mem_map.mpr ⟨(k, v), h, ?_⟩)
      exact (Atom.same_iff.mp hk).trans (Atom.same_iff.mp hk').symm

/-- Keys that are all different are found from both ends alike. -/
theorem lookup_reverse {entries : List (Atom × α)}
    (hdistinct : (entries.map fun e => e.1.key).Nodup) (key : Atom) :
    lookup entries.reverse key = lookup entries key := by
  have hreverse : (entries.reverse.map fun e => e.1.key).Nodup := by
    rw [List.map_reverse]
    exact List.pairwise_reverse.mpr (hdistinct.imp Ne.symm)
  cases h : lookup entries key with
  | none =>
    rw [lookup_eq_none_iff] at h ⊢
    exact fun e he => h e (List.mem_reverse.mp he)
  | some v =>
    obtain ⟨k, hmem, hk⟩ := mem_of_lookup h
    exact lookup_of_mem hreverse (List.mem_reverse.mpr hmem) hk

/-- Renamed keys are found under the new name where the old ones were found under the old. -/
theorem lookup_map {entries : List (Atom × α)} {rename : Atom → Atom} {key source : Atom}
    (h : ∀ e ∈ entries, (rename e.1).same key = e.1.same source) :
    lookup (entries.map fun e => (rename e.1, e.2)) key = lookup entries source := by
  induction entries with
  | nil => rfl
  | cons e rest ih =>
    obtain ⟨k, v⟩ := e
    have hrest := ih fun e' he' => h e' (List.mem_cons_of_mem _ he')
    simp only [List.map_cons, lookup, h (k, v) (by simp), hrest]

/-- A value is found under every spelling of its key. -/
theorem get?_congr (t : Table α) {a b : Atom} (h : a.same b = true) : t.get? a = t.get? b := by
  have hsame : ∀ k : Atom, k.same a = k.same b := fun k => by
    rw [Atom.same, Atom.same, Atom.same_iff.mp h]
  unfold get?
  induction t.entries with
  | nil => rfl
  | cons e rest ih => rw [lookup, lookup, hsame, ih]

theorem get?_mapValues {β : Type} (f : α → β) (t : Table α) (key : Atom) :
    (t.mapValues f).get? key = (t.get? key).map f := by
  show lookup (t.entries.map fun e => (e.1, f e.2)) key = (lookup t.entries key).map f
  induction t.entries with
  | nil => rfl
  | cons e rest ih =>
    rw [List.map_cons, lookup, lookup, ih]
    split <;> rfl

theorem mapValues_insert (f : α → β) (t : Table α) (key : Atom) (x : α) :
    (t.insert key x).mapValues f = (t.mapValues f).insert key (f x) := by
  refine ext ?_
  show (assign t.entries key x).map (fun e => (e.1, f e.2))
    = assign (t.entries.map fun e => (e.1, f e.2)) key (f x)
  induction t.entries with
  | nil => rfl
  | cons e rest ih =>
    rw [List.map_cons, assign, assign]
    split
    · rfl
    · rw [List.map_cons, ih]

theorem get?_insertAll (t : Table α) (entries : List (Atom × α)) (key : Atom) :
    (t.insertAll entries).get? key = (lookup entries.reverse key).or (t.get? key) := by
  induction entries generalizing t with
  | nil => rfl
  | cons e rest ih =>
    -- What is written later is written over, so the end of the list is asked first.
    have hstep : t.insertAll (e :: rest) = (t.insert e.1 e.2).insertAll rest := rfl
    rw [hstep, ih, get?_insert, List.reverse_cons, lookup_append, Option.or_assoc]
    by_cases h : e.1.same key = true <;> simp [lookup, h]

theorem get?_ofList (entries : List (Atom × α)) (key : Atom) :
    (ofList entries).get? key = lookup entries.reverse key := by
  rw [ofList, get?_insertAll, get?_empty, Option.or_none]

theorem entries_insert {t : Table α} {key : Atom} (h : ∀ e ∈ t.entries, e.1.same key = false)
    (value : α) : (t.insert key value).entries = t.entries ++ [(key, value)] :=
  assign_of_lookup_none (lookup_eq_none_iff.mpr h) value

theorem entries_insertAll {t : Table α} {entries : List (Atom × α)}
    (h : ((t.entries ++ entries).map fun e => e.1.key).Nodup) :
    (t.insertAll entries).entries = t.entries ++ entries := by
  induction entries generalizing t with
  | nil => rw [List.append_nil]; rfl
  | cons e entries ih =>
    have hfresh : ∀ e' ∈ t.entries, e'.1.same e.1 = false := by
      intro e' he'
      rw [← Bool.not_eq_true, Atom.same_iff]
      intro hkey
      rw [List.map_append, List.nodup_append] at h
      exact h.2.2 _ (List.mem_map_of_mem he') _ (by simp) hkey
    have hinsert := entries_insert hfresh e.2
    have hstep : t.insertAll (e :: entries) = (t.insert e.1 e.2).insertAll entries := rfl
    rw [hstep, ih (by simpa [hinsert] using h), hinsert, List.append_assoc, List.singleton_append]

/-- Writing the entries of a table in their order gives the table. -/
theorem ofList_entries (t : Table α) : ofList t.entries = t :=
  ext (entries_insertAll t.distinct)

theorem mem_values_iff {t : Table α} {v : α} : v ∈ t.values ↔ ∃ key, t.get? key = some v := by
  constructor
  · intro h
    obtain ⟨⟨k, w⟩, hmem, rfl⟩ := List.mem_map.mp h
    exact ⟨k, lookup_of_mem t.distinct hmem (Atom.same_refl k)⟩
  · intro h
    obtain ⟨key, h⟩ := h
    obtain ⟨k, hmem, -⟩ := mem_of_lookup h
    exact List.mem_map.mpr ⟨(k, v), hmem, rfl⟩

theorem mem_names_iff {slots : Slots} {name : Value} :
    name ∈ slots.names ↔ ∃ key names, slots.get? key = some names ∧ name ∈ names := by
  simp only [names, List.mem_flatten, mem_values_iff]
  constructor
  · intro h
    obtain ⟨names, ⟨key, hkey⟩, hname⟩ := h
    exact ⟨key, names, hkey, hname⟩
  · intro h
    obtain ⟨key, names, hkey, hname⟩ := h
    exact ⟨names, ⟨key, hkey⟩, hname⟩

/-- A table that is written from a list has the values that are not written over. -/
theorem mem_values_ofList_iff {entries : List (Atom × α)} {v : α} :
    v ∈ (ofList entries).values ↔ ∃ xs k ys, entries = xs ++ (k, v) :: ys ∧
      ∀ e ∈ ys, e.1.same k = false := by
  simp only [mem_values_iff, get?_ofList, lookup_eq_some_iff]
  constructor
  · intro h
    obtain ⟨key, xs, k, ys, heq, hk, hxs⟩ := h
    refine ⟨ys.reverse, k, xs.reverse, by simpa using congrArg List.reverse heq, fun e he => ?_⟩
    rw [← hxs e (List.mem_reverse.mp he), Atom.same, Atom.same, Atom.same_iff.mp hk]
  · intro h
    obtain ⟨xs, k, ys, rfl, hys⟩ := h
    refine ⟨k, ys.reverse, k, xs.reverse, by simp, Atom.same_refl k, fun e he => ?_⟩
    exact hys e (List.mem_reverse.mp he)

/-! ## Tables of one kind of entries -/

/-- The keys of a table are of one kind, and its values are of another. -/
def Holds (keys : Atom → Prop) (values : α → Prop) (t : Table α) : Prop :=
  ∀ e ∈ t.entries, keys e.1 ∧ values e.2

section Holds

variable {keys : Atom → Prop} {values : α → Prop} {t : Table α} {entries : List (Atom × α)}
  {key : Atom} {value : α}

theorem holds_empty : Holds (α := α) keys values {} := nofun

theorem holds_assign (h : ∀ e ∈ entries, keys e.1 ∧ values e.2) (hkey : keys key)
    (hvalue : values value) : ∀ e ∈ assign entries key value, keys e.1 ∧ values e.2 := by
  induction entries with
  | nil =>
    intro e he
    rw [assign, List.mem_singleton] at he
    rw [he]
    exact ⟨hkey, hvalue⟩
  | cons e entries ih =>
    have hfirst := h e (by simp)
    have hrest : ∀ f ∈ entries, keys f.1 ∧ values f.2 := fun f hf => h f (by simp [hf])
    intro f hf
    rw [assign] at hf
    split at hf
    · rcases List.mem_cons.mp hf with rfl | hf
      · exact ⟨hfirst.1, hvalue⟩
      · exact hrest f hf
    · rcases List.mem_cons.mp hf with rfl | hf
      · exact hfirst
      · exact ih hrest f hf

/-- Writing an entry of that kind keeps it so. -/
theorem Holds.insert (h : t.Holds keys values) (hkey : keys key) (hvalue : values value) :
    (t.insert key value).Holds keys values := holds_assign h hkey hvalue

theorem Holds.insertAll (h : t.Holds keys values)
    (hentries : ∀ e ∈ entries, keys e.1 ∧ values e.2) :
    (t.insertAll entries).Holds keys values := by
  induction entries generalizing t with
  | nil => exact h
  | cons e entries ih =>
    have hfirst := hentries e (by simp)
    exact ih (h.insert hfirst.1 hfirst.2) fun f hf => hentries f (by simp [hf])

theorem holds_ofList (hentries : ∀ e ∈ entries, keys e.1 ∧ values e.2) :
    (ofList entries).Holds keys values := holds_empty.insertAll hentries

theorem Holds.get? (h : t.Holds keys values) (hget : t.get? key = some value) : values value := by
  obtain ⟨k, hmem, -⟩ := mem_of_lookup hget
  exact (h _ hmem).2

end Holds

end TensorFusion.Table
