import TensorFusion.Graph.Arena

/-!
# Proofs — Results

When a computation that may fail comes to a result: its steps come to theirs. A loop keeps what each
of its steps keeps, also where it is looked at together with other loops. Two computations go alike
if their steps do: both come to results, which are related, or both stop.
-/

namespace TensorFusion

variable {ε α β σ : Type}

theorem bind_eq_ok {x : Except ε α} {f : α → Except ε β} {b : β} :
    x >>= f = .ok b ↔ ∃ a, x = .ok a ∧ f a = .ok b := by
  cases x with
  | error e => simp [bind, Except.bind]
  | ok a => simp [bind, Except.bind]

theorem ok_bind (a : α) (f : α → Except ε β) : Except.ok a >>= f = f a := rfl

theorem pure_eq_ok {a b : α} : (pure a : Except ε α) = .ok b ↔ a = b := by
  simp [pure, Except.pure]

theorem isOk_iff {x : Except ε α} : x.isOk = true ↔ ∃ a, x = .ok a := by
  cases x with
  | error e => simp [Except.isOk, Except.toBool]
  | ok a => simp [Except.isOk, Except.toBool]

theorem exists_ok_of_isOk {x : Except ε α} (h : x.isOk = true) : ∃ a, x = .ok a := isOk_iff.mp h

theorem eq_ok_of_toOption {x : Except ε α} {a : α} (h : x.toOption = some a) : x = .ok a := by
  cases x with
  | error e => cases h
  | ok b => rw [Option.some.inj h]

theorem mapError_eq_ok {ε' : Type} {g : ε → ε'} {x : Except ε α} {a : α} :
    x.mapError g = .ok a ↔ x = .ok a := by
  cases x with
  | error e => exact ⟨nofun, nofun⟩
  | ok b =>
    constructor <;> intro h <;> cases h <;> rfl

theorem ok_mapError {ε' : Type} (a : α) (g : ε → ε') : (Except.ok a).mapError g = .ok a := rfl

theorem before_eq_ok {s : σ} {x : Except Error α} {a : α} :
    Interrupted.before s x = .ok a ↔ x = .ok a := mapError_eq_ok

theorem before_ok (s : σ) (a : α) : Interrupted.before s (.ok a) = .ok a := rfl

theorem mapM_cons_eq_ok {f : α → Except ε β} {a : α} {as : List α} {bs : List β} :
    (a :: as).mapM f = .ok bs ↔ ∃ b bs', f a = .ok b ∧ as.mapM f = .ok bs' ∧ bs = b :: bs' := by
  simp only [List.mapM_cons, bind_eq_ok, pure_eq_ok]
  constructor
  · intro h
    obtain ⟨b, hb, bs', hbs', rfl⟩ := h
    exact ⟨b, bs', hb, hbs', rfl⟩
  · intro h
    obtain ⟨b, bs', hb, hbs', rfl⟩ := h
    exact ⟨b, hb, bs', hbs', rfl⟩

theorem mapM_congr {f g : α → Except ε β} {as : List α} (h : ∀ a ∈ as, f a = g a) :
    as.mapM f = as.mapM g := by
  induction as with
  | nil => rfl
  | cons a as ih =>
    rw [List.mapM_cons, List.mapM_cons, h a (by simp), ih fun a' ha' => h a' (by simp [ha'])]

/-- A single result is the result of a single element. -/
theorem eq_singleton_of_mapM {f : α → Except ε β} {as : List α} {b : β}
    (h : as.mapM f = .ok [b]) : ∃ a, as = [a] ∧ f a = .ok b := by
  cases as with
  | nil =>
    rw [List.mapM_nil, pure_eq_ok] at h
    cases h
  | cons a as =>
    obtain ⟨b', bs, hb, hbs, heq⟩ := mapM_cons_eq_ok.mp h
    cases heq
    cases as with
    | nil => exact ⟨a, rfl, hb⟩
    | cons a' as =>
      obtain ⟨_, _, _, _, heq⟩ := mapM_cons_eq_ok.mp hbs
      cases heq

/-- Where all single results are there, so is the list of them. -/
theorem mapM_total {f : α → Except ε β} {as : List α} (h : ∀ a ∈ as, ∃ b, f a = .ok b) :
    ∃ bs, as.mapM f = .ok bs := by
  induction as with
  | nil => exact ⟨[], rfl⟩
  | cons a as ih =>
    obtain ⟨b, hb⟩ := h a (by simp)
    obtain ⟨bs, hbs⟩ := ih fun a' ha' => h a' (by simp [ha'])
    exact ⟨b :: bs, mapM_cons_eq_ok.mpr ⟨b, bs, hb, hbs, rfl⟩⟩

/-- Where each element comes back from what was made of it, so does the list. -/
theorem mapM_map_eq_ok {f : α → Except ε β} {g : β → α} {bs : List β}
    (h : ∀ b ∈ bs, f (g b) = .ok b) : (bs.map g).mapM f = .ok bs := by
  induction bs with
  | nil => rfl
  | cons b bs ih =>
    refine mapM_cons_eq_ok.mpr ⟨b, bs, h b (by simp), ih fun b' hb' => h b' (by simp [hb']), rfl⟩

/-- What stands in a list of results is a single result. -/
theorem exists_of_mem_mapM {f : α → Except ε β} {as : List α} {bs : List β}
    (h : as.mapM f = .ok bs) {b : β} (hb : b ∈ bs) : ∃ a ∈ as, f a = .ok b := by
  induction as generalizing bs with
  | nil =>
    rw [List.mapM_nil, pure_eq_ok] at h
    subst h
    simp at hb
  | cons a as ih =>
    obtain ⟨b', bs', hb', hbs', rfl⟩ := mapM_cons_eq_ok.mp h
    rcases List.mem_cons.mp hb with rfl | hb
    · exact ⟨a, by simp, hb'⟩
    · obtain ⟨a', ha', hfa'⟩ := ih hbs' hb
      exact ⟨a', List.mem_cons_of_mem _ ha', hfa'⟩

/-- Where a second function makes something of each first result, its loop makes it of the list. -/
theorem mapM_eq_ok_map {γ : Type} {f : α → Except ε β} {g : α → Except ε γ} {r : β → γ}
    {as : List α} {bs : List β} (h : as.mapM f = .ok bs)
    (step : ∀ a ∈ as, ∀ b, f a = .ok b → g a = .ok (r b)) : as.mapM g = .ok (bs.map r) := by
  induction as generalizing bs with
  | nil =>
    cases h
    rfl
  | cons a as ih =>
    obtain ⟨b, bs, hb, hbs, rfl⟩ := mapM_cons_eq_ok.mp h
    have hrest := ih hbs fun a' ha' => step a' (List.mem_cons_of_mem a ha')
    exact mapM_cons_eq_ok.mpr ⟨r b, bs.map r, step a (by simp) b hb, hrest, rfl⟩

/-- Where a list of results is there, so are all single results. -/
theorem exists_of_mapM {f : α → Except ε β} {as : List α} {bs : List β}
    (h : as.mapM f = .ok bs) {a : α} (ha : a ∈ as) : ∃ b ∈ bs, f a = .ok b := by
  induction as generalizing bs with
  | nil => simp at ha
  | cons a' as ih =>
    obtain ⟨b', bs', hb', hbs', rfl⟩ := mapM_cons_eq_ok.mp h
    rcases List.mem_cons.mp ha with rfl | ha
    · exact ⟨b', by simp, hb'⟩
    · obtain ⟨b, hb, hab⟩ := ih hbs' ha
      exact ⟨b, List.mem_cons_of_mem _ hb, hab⟩

/-- Where a loop comes to a result, so has each of its steps. -/
theorem exists_of_foldlM {f : σ → α → Except ε σ} {as : List α} {s s' : σ}
    (h : as.foldlM f s = .ok s') {a : α} (ha : a ∈ as) : ∃ s₁ s₂, f s₁ a = .ok s₂ := by
  induction as generalizing s with
  | nil => simp at ha
  | cons a' as ih =>
    rw [List.foldlM_cons, bind_eq_ok] at h
    obtain ⟨s₁, hfirst, h⟩ := h
    rcases List.mem_cons.mp ha with rfl | ha
    · exact ⟨s, s₁, hfirst⟩
    · exact ih h ha

/-- What each step of a loop keeps, the loop keeps. It may speak of what was gone through. -/
theorem foldlM_induction {motive : List α → σ → Prop} {f : σ → α → Except ε σ}
    {as : List α} {s s' : σ} (start : motive [] s)
    (step : ∀ done a rest s s', as = done ++ a :: rest → motive done s → f s a = .ok s' →
      motive (done ++ [a]) s')
    (h : as.foldlM f s = .ok s') : motive as s' := by
  -- The induction is on what is still to come; what was gone through grows along with it.
  suffices ∀ (rest done : List α) (s s' : σ), as = done ++ rest → motive done s →
      rest.foldlM f s = .ok s' → motive (done ++ rest) s' by
    simpa using this as [] s s' rfl start h
  intro rest
  induction rest with
  | nil =>
    intro done s s' _ hs h
    rw [List.foldlM_nil, pure_eq_ok] at h
    subst h
    simpa using hs
  | cons a rest ih =>
    intro done s s' has hs h
    rw [List.foldlM_cons, bind_eq_ok] at h
    obtain ⟨s₁, h₁, h⟩ := h
    have hs₁ := step done a rest s s₁ has hs h₁
    simpa using ih (done ++ [a]) s₁ s' (by simpa using has) hs₁ h

/-- A loop whose steps all come to results comes to one. -/
theorem foldlM_total {motive : List α → σ → Prop} {f : σ → α → Except ε σ} {as : List α}
    {s : σ} (start : motive [] s)
    (step : ∀ done a rest s, as = done ++ a :: rest → motive done s →
      ∃ s', f s a = .ok s' ∧ motive (done ++ [a]) s') :
    ∃ s', as.foldlM f s = .ok s' ∧ motive as s' := by
  suffices ∀ (rest done : List α) (s : σ), as = done ++ rest → motive done s →
      ∃ s', rest.foldlM f s = .ok s' ∧ motive (done ++ rest) s' by
    simpa using this as [] s rfl start
  intro rest
  induction rest with
  | nil =>
    intro done s _ hs
    rw [List.append_nil]
    exact ⟨s, rfl, hs⟩
  | cons a rest ih =>
    intro done s has hs
    obtain ⟨s₁, hstep, hs₁⟩ := step done a rest s has hs
    rw [List.foldlM_cons, hstep, ok_bind]
    simpa using ih (done ++ [a]) s₁ (by simpa using has) hs₁

/-- Three computations go together. The first comes to a result just where both others do, and then
the results are related. -/
inductive Joint {γ : Type} (rel : α → β → γ → Prop) :
    Except ε α → Except ε β → Except ε γ → Prop where
  | ok {a : α} {b : β} {c : γ} (h : rel a b c) : Joint rel (.ok a) (.ok b) (.ok c)
  | left {e e₁ : ε} {z : Except ε γ} : Joint rel (.error e) (.error e₁) z
  | right {e e₂ : ε} {y : Except ε β} : Joint rel (.error e) y (.error e₂)

namespace Joint

variable {α' β' γ γ' : Type} {rel : α → β → γ → Prop} {rel' : α' → β' → γ' → Prop}
  {x : Except ε α} {y : Except ε β} {z : Except ε γ}

theorem exists_of_isOk (h : Joint rel x y z) (hx : x.isOk = true) :
    ∃ a b c, x = .ok a ∧ y = .ok b ∧ z = .ok c ∧ rel a b c := by
  cases h with
  | ok h => exact ⟨_, _, _, rfl, rfl, rfl, h⟩
  | left => cases hx
  | right => cases hx

theorem isOk_iff (h : Joint rel x y z) : x.isOk = true ↔ y.isOk = true ∧ z.isOk = true := by
  cases h with
  | ok h => exact ⟨fun _ => ⟨rfl, rfl⟩, fun _ => rfl⟩
  | left => exact ⟨nofun, fun h => nomatch h.1⟩
  | right => exact ⟨nofun, fun h => nomatch h.2⟩

theorem swap (h : Joint rel x y z) : Joint (fun a c b => rel a b c) x z y := by
  cases h with
  | ok h => exact .ok h
  | left => exact .right
  | right => exact .left

theorem mono {rel' : α → β → γ → Prop} (h : Joint rel x y z)
    (hrel : ∀ a b c, rel a b c → rel' a b c) : Joint rel' x y z := by
  cases h with
  | ok h => exact .ok (hrel _ _ _ h)
  | left => exact .left
  | right => exact .right

/-- One computation, made three times, goes together with itself. -/
theorem same (x : Except ε α) : Joint (fun a b c => b = a ∧ c = a) x x x := by
  cases x with
  | ok a => exact .ok ⟨rfl, rfl⟩
  | error e => exact .left

theorem bind {f : α → Except ε α'} {f₁ : β → Except ε β'} {f₂ : γ → Except ε γ'}
    (h : Joint rel x y z) (hf : ∀ a b c, rel a b c → Joint rel' (f a) (f₁ b) (f₂ c)) :
    Joint rel' (x >>= f) (y >>= f₁) (z >>= f₂) := by
  cases h with
  | ok h => exact hf _ _ _ h
  | left => exact .left
  | right => exact .right

theorem before {x : Except Error α} {y : Except Error β} {z : Except Error γ}
    (h : Joint rel x y z) (s s₁ s₂ : σ) : Joint rel (Interrupted.before s x)
      (Interrupted.before s₁ y) (Interrupted.before s₂ z) := by
  cases h with
  | ok h => exact .ok h
  | left => exact .left
  | right => exact .right

/-- Loops whose steps go together go together. -/
theorem foldlM {κ : Type} {f : α → κ → Except ε α} {f₁ : β → κ → Except ε β}
    {f₂ : γ → κ → Except ε γ} {ks : List κ} {a : α} {b : β} {c : γ} (start : rel a b c)
    (step : ∀ k ∈ ks, ∀ a b c, rel a b c → Joint rel (f a k) (f₁ b k) (f₂ c k)) :
    Joint rel (ks.foldlM f a) (ks.foldlM f₁ b) (ks.foldlM f₂ c) := by
  induction ks generalizing a b c with
  | nil => exact .ok start
  | cons k ks ih =>
    rw [List.foldlM_cons, List.foldlM_cons, List.foldlM_cons]
    refine (step k (by simp) a b c start).bind fun a b c h => ?_
    exact ih h fun k' hk' => step k' (by simp [hk'])

/-- A loop goes together with two that share its steps between them. -/
theorem foldlM_filter {κ κ' : Type} {f : α → κ → Except ε α} {f₁ : β → κ' → Except ε β}
    {f₂ : γ → κ' → Except ε γ} {side : κ → Bool} {place place' : κ → κ'} {ks : List κ}
    {a : α} {b : β} {c : γ} (start : rel a b c)
    (stepLeft : ∀ k ∈ ks, side k = true → ∀ a b c, rel a b c →
      Joint rel (f a k) (f₁ b (place k)) (.ok c))
    (stepRight : ∀ k ∈ ks, side k = false → ∀ a b c, rel a b c →
      Joint rel (f a k) (.ok b) (f₂ c (place' k))) :
    Joint rel (ks.foldlM f a) (((ks.filter side).map place).foldlM f₁ b)
      (((ks.filter fun k => !side k).map place').foldlM f₂ c) := by
  induction ks generalizing a b c with
  | nil => exact .ok start
  | cons k ks ih =>
    have hrest := fun a b c (h : rel a b c) => ih h (fun k' hk' => stepLeft k' (by simp [hk']))
      fun k' hk' => stepRight k' (by simp [hk'])
    cases hside : side k with
    | true =>
      rw [List.foldlM_cons, List.filter_cons_of_pos hside, List.filter_cons_of_neg (by simp [hside]),
        List.map_cons, List.foldlM_cons]
      exact (stepLeft k (by simp) hside a b c start).bind hrest
    | false =>
      rw [List.foldlM_cons, List.filter_cons_of_neg (by simp [hside]),
        List.filter_cons_of_pos (by simp [hside]), List.map_cons, List.foldlM_cons]
      exact (stepRight k (by simp) hside a b c start).bind hrest

end Joint

/-- Two computations go alike. Both come to results, which are related, or both stop, with errors
that are related. -/
inductive Alike {ε' : Type} (bad : ε → ε' → Prop) (good : α → β → Prop) :
    Except ε α → Except ε' β → Prop where
  | ok {a : α} {b : β} (h : good a b) : Alike bad good (.ok a) (.ok b)
  | error {e : ε} {e' : ε'} (h : bad e e') : Alike bad good (.error e) (.error e')

/-- Two stops with the same error, in states that are related. -/
def Interrupted.Alike {σ' : Type} (related : σ → σ' → Prop) (stop : Interrupted σ)
    (stop' : Interrupted σ') : Prop :=
  stop'.error = stop.error ∧ related stop.state stop'.state

namespace Alike

variable {ε' α' β' σ' : Type} {bad : ε → ε' → Prop} {good : α → β → Prop}
  {good' : α' → β' → Prop} {x : Except ε α} {y : Except ε' β}

theorem refl (x : Except ε α) : Alike Eq Eq x x := by
  cases x with
  | ok a => exact .ok rfl
  | error e => exact .error rfl

theorem ok_or_error (h : Alike bad good x y) : (∃ a b, x = .ok a ∧ y = .ok b ∧ good a b) ∨
    ∃ e e', x = .error e ∧ y = .error e' ∧ bad e e' := by
  cases h with
  | ok h => exact .inl ⟨_, _, rfl, rfl, h⟩
  | error h => exact .inr ⟨_, _, rfl, rfl, h⟩

theorem bind {f : α → Except ε α'} {f' : β → Except ε' β'} (h : Alike bad good x y)
    (hf : ∀ a b, good a b → Alike bad good' (f a) (f' b)) :
    Alike bad good' (x >>= f) (y >>= f') := by
  cases h with
  | ok h => exact hf _ _ h
  | error h => exact .error h

theorem mapError {δ δ' : Type} {bad' : δ → δ' → Prop} {g : ε → δ} {g' : ε' → δ'}
    (h : Alike bad good x y) (hbad : ∀ e e', bad e e' → bad' (g e) (g' e')) :
    Alike bad' good (x.mapError g) (y.mapError g') := by
  cases h with
  | ok h => exact .ok h
  | error h => exact .error (hbad _ _ h)

theorem before {related : σ → σ' → Prop} {s : σ} {s' : σ'} {x : Except Error α}
    {y : Except Error β} (h : Alike Eq good x y) (hs : related s s') :
    Alike (Interrupted.Alike related) good (Interrupted.before s x) (Interrupted.before s' y) :=
  h.mapError fun _ _ herror => ⟨herror.symm, hs⟩

/-- Loops whose steps go alike go alike. -/
theorem foldlM {κ κ' : Type} {place : κ → κ'} {f : α → κ → Except ε α}
    {f' : β → κ' → Except ε' β} {ks : List κ} {a : α} {b : β} (start : good a b)
    (step : ∀ k ∈ ks, ∀ a b, good a b → Alike bad good (f a k) (f' b (place k))) :
    Alike bad good (ks.foldlM f a) ((ks.map place).foldlM f' b) := by
  induction ks generalizing a b with
  | nil => exact .ok start
  | cons k ks ih =>
    rw [List.map_cons, List.foldlM_cons, List.foldlM_cons]
    refine (step k (by simp) a b start).bind fun a b h => ?_
    exact ih h fun k' hk' => step k' (by simp [hk'])

/-- Two loops over the same elements. -/
theorem foldlM_same {κ : Type} {f : α → κ → Except ε α} {f' : β → κ → Except ε' β} {ks : List κ}
    {a : α} {b : β} (start : good a b)
    (step : ∀ k ∈ ks, ∀ a b, good a b → Alike bad good (f a k) (f' b k)) :
    Alike bad good (ks.foldlM f a) (ks.foldlM f' b) := by
  have h : Alike bad good (ks.foldlM f a) ((ks.map id).foldlM f' b) := foldlM start step
  rwa [List.map_id] at h

end Alike

end TensorFusion
