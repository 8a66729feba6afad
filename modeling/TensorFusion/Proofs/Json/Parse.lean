import TensorFusion.Json.Reader
import TensorFusion.Proofs.Json.Scan
import TensorFusion.Proofs.Results
import TensorFusion.Proofs.Table

/-!
# Proofs — Json — Parse

What a reader makes of the tokens of a value. They are read as the value, wherever a value may
stand; so a written value reads back as it was.
-/

namespace TensorFusion.Json

theorem intercalate_cons {α : Type} (sep : α) (part : List α) (parts : List (List α)) :
    [sep].intercalate (part :: parts) = part ++ parts.flatMap (sep :: ·) := by
  induction parts generalizing part with
  | nil => simp
  | cons next parts ih =>
    rw [List.intercalate_cons_cons, ih, List.flatMap_cons, List.append_assoc,
      List.singleton_append, List.cons_append]

namespace Reading

/-- Where a value may stand. -/
def AwaitsValue (need : Need) : Prop := need = .value ∨ need = .firstItem

/-- Where the key of an entry may stand. -/
def AwaitsKey (need : Need) : Prop := need = .key ∨ need = .firstKey

section Steps

variable {need : Need} {frames : List Frame}

theorem step_of_awaitsValue (h : AwaitsValue need) (token : Token) (htoken : token ≠ .closeList) :
    step ⟨frames, need⟩ token = begin frames token := by
  rcases h with rfl | rfl
  · rfl
  · cases token <;> first | rfl | exact absurd rfl htoken

theorem step_key (h : AwaitsKey need) {key : Atom} (hkey : key.points?.isSome = true) :
    step ⟨frames, need⟩ (.atom key) = .ok ⟨frames, .colon key⟩ := by
  rcases h with rfl | rfl <;> simp [step, takeKey, hkey]

theorem step_openList (h : AwaitsValue need) :
    step ⟨frames, need⟩ .openList = .ok ⟨.list [] :: frames, .firstItem⟩ := by
  rw [step_of_awaitsValue h .openList nofun, begin]

theorem step_openMap (h : AwaitsValue need) :
    step ⟨frames, need⟩ .openMap = .ok ⟨.map {} :: frames, .firstKey⟩ := by
  rw [step_of_awaitsValue h .openMap nofun, begin]

end Steps

mutual

/-- The tokens of a value deliver the value. -/
theorem foldlM_tokensOf : (v : Value) → v.IsReadable → (frames : List Frame) → (need : Need) →
    AwaitsValue need → (tokensOf v).foldlM step ⟨frames, need⟩ = deliver v frames
  | .atom a, _, frames, need, hneed => by
    rw [tokensOf, List.foldlM_cons, step_of_awaitsValue hneed (.atom a) nofun, begin]
    exact bind_pure _
  | .list [], _, frames, need, hneed => by
    rw [tokensOf, List.cons_append, List.foldlM_cons, step_openList hneed, ok_bind]
    exact bind_pure _
  | .list (v :: items), .list h, frames, need, hneed => by
    have hfirst : (tokensOf v).foldlM step ⟨.list [] :: frames, .firstItem⟩
        = .ok ⟨.list [v] :: frames, .more⟩ :=
      foldlM_tokensOf v (h v (by simp)) _ _ (.inr rfl)
    rw [tokensOf, itemTokens, intercalate_cons, List.cons_append, List.foldlM_cons,
      step_openList hneed, ok_bind, List.foldlM_append, List.foldlM_append, hfirst,
      ok_bind, foldlM_moreItems items (fun w hw => h w (by simp [hw])) _ _, ok_bind]
    have hclose : step ⟨.list (items.reverse ++ [v]) :: frames, .more⟩ .closeList
        = deliver (.list (v :: items)) frames := by
      show deliver (.list (items.reverse ++ [v]).reverse) frames = _
      rw [List.reverse_append, List.reverse_reverse]
      rfl
    rw [List.foldlM_cons, hclose]
    exact bind_pure _
  | .map [], _, frames, need, hneed => by
    rw [tokensOf, List.cons_append, List.foldlM_cons, step_openMap hneed, ok_bind]
    exact bind_pure _
  | .map (e :: entries), .map distinct keys h, frames, need, hneed => by
    rw [tokensOf, entriesTokens, intercalate_cons, List.cons_append, List.foldlM_cons,
      step_openMap hneed, ok_bind, List.foldlM_append, List.foldlM_append,
      foldlM_entryTokens e (keys e (by simp)).2 (h e (by simp)) {} _ _ (.inr rfl),
      ok_bind, foldlM_moreEntries entries (fun f hf => keys f (by simp [hf]))
        (fun f hf => h f (by simp [hf])) _ _, ok_bind]
    have hentries : ((Table.insert {} e.1 e.2).insertAll entries).entries = e :: entries :=
      Table.entries_insertAll (t := {}) distinct
    have hclose : step ⟨.map ((Table.insert {} e.1 e.2).insertAll entries) :: frames, .more⟩
        .closeMap = deliver (.map (e :: entries)) frames := by
      show deliver (.map ((Table.insert {} e.1 e.2).insertAll entries).entries) frames = _
      rw [hentries]
    rw [List.foldlM_cons, hclose]
    exact bind_pure _

/-- The tokens of further items add them to a list. -/
theorem foldlM_moreItems : (items : List Value) → (∀ v ∈ items, v.IsReadable) →
    (seen : List Value) → (frames : List Frame) →
    ((itemTokens items).flatMap (Token.comma :: ·)).foldlM step ⟨.list seen :: frames, .more⟩
      = .ok ⟨.list (items.reverse ++ seen) :: frames, .more⟩
  | [], _, _, _ => rfl
  | v :: items, h, seen, frames => by
    have hcomma : step ⟨.list seen :: frames, .more⟩ .comma
        = .ok ⟨.list seen :: frames, .value⟩ := rfl
    have hvalue : (tokensOf v).foldlM step ⟨.list seen :: frames, .value⟩
        = .ok ⟨.list (v :: seen) :: frames, .more⟩ :=
      foldlM_tokensOf v (h v (by simp)) _ _ (.inl rfl)
    rw [itemTokens, List.flatMap_cons, List.cons_append, List.foldlM_cons, hcomma, ok_bind,
      List.foldlM_append, hvalue, ok_bind,
      foldlM_moreItems items (fun w hw => h w (by simp [hw])) _ _, List.reverse_cons,
      List.append_assoc, List.singleton_append]

/-- The tokens of an entry write it to a map. -/
theorem foldlM_entryTokens : (e : Atom × Value) → e.1.points?.isSome = true → e.2.IsReadable →
    (t : Table Value) → (frames : List Frame) → (need : Need) → AwaitsKey need →
    (entryTokens e).foldlM step ⟨.map t :: frames, need⟩
      = .ok ⟨.map (t.insert e.1 e.2) :: frames, .more⟩
  | (k, v), hkey, h, t, frames, need, hneed => by
    have hcolon : step ⟨.map t :: frames, .colon k⟩ .colon
        = .ok ⟨.entry t k :: frames, .value⟩ := rfl
    rw [entryTokens, List.foldlM_cons, step_key hneed hkey, ok_bind, List.foldlM_cons, hcolon,
      ok_bind, foldlM_tokensOf v h _ _ (.inl rfl)]
    rfl

/-- The tokens of further entries write them to a map. -/
theorem foldlM_moreEntries : (entries : List (Atom × Value)) →
    (∀ e ∈ entries, e.1.IsKey) → (∀ e ∈ entries, e.2.IsReadable) → (t : Table Value) →
    (frames : List Frame) →
    ((entriesTokens entries).flatMap (Token.comma :: ·)).foldlM step ⟨.map t :: frames, .more⟩
      = .ok ⟨.map (t.insertAll entries) :: frames, .more⟩
  | [], _, _, _, _ => rfl
  | e :: entries, keys, h, t, frames => by
    have hcomma : step ⟨.map t :: frames, .more⟩ .comma = .ok ⟨.map t :: frames, .key⟩ := rfl
    rw [entriesTokens, List.flatMap_cons, List.cons_append, List.foldlM_cons, hcomma, ok_bind,
      List.foldlM_append,
      foldlM_entryTokens e (keys e (by simp)).2 (h e (by simp)) t _ _ (.inl rfl),
      ok_bind, foldlM_moreEntries entries (fun f hf => keys f (by simp [hf]))
        (fun f hf => h f (by simp [hf])) _ _]
    rfl

end

end Reading

/-- A written value reads back as it was. -/
theorem read_write {v : Value} (h : v.IsReadable) : read (write v) = .ok v := by
  have hparse : (tokensOf v).foldlM Reading.step {} = .ok { need := .nothing v } :=
    Reading.foldlM_tokensOf v h [] .value (.inl rfl)
  rw [read, parse, tokenize_write h, hparse]
  rfl

end TensorFusion.Json
