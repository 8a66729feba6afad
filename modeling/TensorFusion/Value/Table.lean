import TensorFusion.Value.Basic

/-!
# Value — Table

Maps from atoms that keep the order of first insertion. Writing to a key that is present replaces
the value and leaves the key at its place.
-/

namespace TensorFusion

/-- Entries in order of first insertion, no two of them with the same key. -/
structure Table (α : Type) where
  entries : List (Atom × α) := []
  distinct : (entries.map fun e => e.1.key).Nodup := by exact List.nodup_nil

namespace Table

variable {α β : Type}

instance : Inhabited (Table α) := ⟨{}⟩

@[ext] theorem ext {s t : Table α} (h : s.entries = t.entries) : s = t := by
  cases s
  cases t
  cases h
  rfl

def lookup : List (Atom × α) → Atom → Option α
  | [], _ => none
  | (k, v) :: rest, key => if k.same key then some v else lookup rest key

/-- Replaces the value of the first entry with the given key, or adds an entry at the end. -/
def assign : List (Atom × α) → Atom → α → List (Atom × α)
  | [], key, value => [(key, value)]
  | (k, v) :: rest, key, value =>
      if k.same key then (k, value) :: rest else (k, v) :: assign rest key value

/-- A key that is assigned takes the place of the same key, or comes last. -/
theorem mem_keys_assign {entries : List (Atom × α)} {key k : Atom} {value : α}
    (h : k ∈ (assign entries key value).map fun e => e.1.key) :
    k = key.key ∨ k ∈ entries.map fun e => e.1.key := by
  induction entries with
  | nil => simpa [assign] using h
  | cons e rest ih =>
    obtain ⟨k', v⟩ := e
    by_cases hk : k'.same key = true
    · simp only [assign, hk, if_true, List.map_cons, List.mem_cons] at h
      simp only [List.map_cons, List.mem_cons]
      exact .inr h
    · simp only [assign, hk, Bool.false_eq_true, if_false, List.map_cons, List.mem_cons] at h
      rcases h with h | h
      · exact .inr (by simp [h])
      · rcases ih h with h | h
        · exact .inl h
        · exact .inr (by simp [h])

theorem distinct_assign {entries : List (Atom × α)}
    (h : (entries.map fun e => e.1.key).Nodup) (key : Atom) (value : α) :
    ((assign entries key value).map fun e => e.1.key).Nodup := by
  induction entries with
  | nil => simp [assign]
  | cons e rest ih =>
    obtain ⟨k, v⟩ := e
    simp only [List.map_cons, List.nodup_cons] at h
    by_cases hk : k.same key = true
    · simpa [assign, hk] using h
    · simp only [assign, hk, Bool.false_eq_true, if_false, List.map_cons, List.nodup_cons]
      refine ⟨fun hmem => ?_, ih h.2⟩
      rcases mem_keys_assign hmem with hkey | hrest
      · exact hk (Atom.same_iff.mpr hkey)
      · exact h.1 hrest

def get? (t : Table α) (key : Atom) : Option α := lookup t.entries key

def insert (t : Table α) (key : Atom) (value : α) : Table α :=
  ⟨assign t.entries key value, distinct_assign t.distinct key value⟩

def contains (t : Table α) (key : Atom) : Bool := (t.get? key).isSome

def size (t : Table α) : Nat := t.entries.length

def keys (t : Table α) : List Atom := t.entries.map (·.1)

def values (t : Table α) : List α := t.entries.map (·.2)

def insertAll (t : Table α) (entries : List (Atom × α)) : Table α :=
  entries.foldl (fun t e => t.insert e.1 e.2) t

/-- The table that holds the last value written at each key. -/
def ofList (entries : List (Atom × α)) : Table α := insertAll {} entries

def mapValues (f : α → β) (t : Table α) : Table β :=
  ⟨t.entries.map fun e => (e.1, f e.2), by simpa [Function.comp_def] using t.distinct⟩

theorem lookup_assign (entries : List (Atom × α)) (key key' : Atom) (value : α) :
    lookup (assign entries key value) key'
      = if key.same key' then some value else lookup entries key' := by
  induction entries with
  | nil => simp [assign, lookup]
  | cons e rest ih =>
    obtain ⟨k, v⟩ := e
    by_cases hk : k.same key = true
    · have hsame : k.same key' = key.same key' := by
        rw [Atom.same_iff] at hk
        simp [Atom.same, hk]
      by_cases hk' : key.same key' = true
      · simp [assign, lookup, hk, hsame, hk']
      · simp [assign, lookup, hk, hsame, hk']
    · by_cases hk' : k.same key' = true
      · have : key.same key' = false := by
          rw [← Bool.not_eq_true]
          intro h
          exact hk (Atom.same_trans hk' (by rw [Atom.same_comm]; exact h))
        simp [assign, lookup, hk, hk', this]
      · simp [assign, lookup, hk, hk', ih]

theorem get?_insert (t : Table α) (key key' : Atom) (value : α) :
    (t.insert key value).get? key' = if key.same key' then some value else t.get? key' :=
  lookup_assign t.entries key key' value

@[simp] theorem get?_empty (key : Atom) : ({} : Table α).get? key = none := rfl

theorem assign_of_lookup_none {entries : List (Atom × α)} {key : Atom}
    (h : lookup entries key = none) (value : α) :
    assign entries key value = entries ++ [(key, value)] := by
  induction entries with
  | nil => rfl
  | cons e rest ih =>
    obtain ⟨k, v⟩ := e
    by_cases hk : k.same key = true
    · simp [lookup, hk] at h
    · simp only [lookup, hk] at h
      simp [assign, hk, ih (by simpa using h)]

end Table

end TensorFusion
