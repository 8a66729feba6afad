import TensorFusion.Proofs.Json.Parse

/-!
# Proofs — Json — Readings

What a reader can give. The atoms of a text are ones that a document can hold, and what is read into
a container stays readable; so each value that is read is one that can be written.
-/

namespace TensorFusion.Json

/-! ## Tokens -/

def Token.IsReadable : Token → Prop
  | .atom a => a.IsReadable
  | _ => True

section Tokens

variable {digits word : List Char} {scan : Scan} {points : List Nat} {unit point : Nat}

/-- A number has no more digits than it is written with. -/
theorem natOfDigits_lt (h : ∀ c ∈ digits, c.isDigit = true) :
    Literal.natOfDigits digits < 10 ^ digits.length := by
  show Nat.ofDigitChars 10 digits 0 < 10 ^ digits.length
  induction digits with
  | nil => exact Nat.one_pos
  | cons c digits ih =>
    have hrest := ih fun d hd => h d (by simp [hd])
    have hc : c.toNat ≤ 57 := by
      have hdigit := h c (by simp)
      simp only [Char.isDigit, Bool.and_eq_true, decide_eq_true_eq] at hdigit
      exact hdigit.2
    have hfirst : 10 ^ digits.length * (c.toNat - 48) ≤ 10 ^ digits.length * 9 :=
      Nat.mul_le_mul_left _ (by omega)
    have hzero : '0'.toNat = 48 := rfl
    rw [Nat.ofDigitChars_cons, Nat.ofDigitChars_eq_ofDigitChars_zero, List.length_cons,
      Nat.pow_succ, Nat.mul_zero, Nat.zero_add, hzero]
    omega

theorem isReadable_int {n : Int} (h : n.natAbs < 10 ^ Literal.maxDigits) :
    (Atom.int n).IsReadable := by
  show (Nat.toDigits 10 n.natAbs).length ≤ Literal.maxDigits
  rwa [Nat.length_toDigits_le_iff (by decide) (by decide)]

theorem isReadable_bodyToken (s : Bool) (body : List Char) : (bodyToken s body).IsReadable := by
  have hdigits : ∀ c ∈ body.takeWhile Char.isDigit, c.isDigit = true := fun c hc =>
    List.all_eq_true.mp List.all_takeWhile c hc
  have hlt := natOfDigits_lt hdigits
  rw [bodyToken]
  dsimp only
  generalize body.takeWhile Char.isDigit = whole at *
  split
  · trivial
  split
  · split
    next d _ => exact d.isCanonical_toBinary64
    next => trivial
  split
  · trivial
  next hlength =>
    have hmax : 10 ^ whole.length ≤ 10 ^ Literal.maxDigits :=
      Nat.pow_le_pow_right (by decide) (Nat.not_lt.mp hlength)
    split
    · apply isReadable_int
      split <;> omega
    · trivial

theorem isReadable_wordToken (word : List Char) : (wordToken word).IsReadable := by
  have hnumber : (numberToken word).IsReadable := by
    unfold numberToken
    split
    next s body _ => exact isReadable_bodyToken s body
  rw [wordToken]
  split
  · trivial
  · trivial
  · trivial
  · exact rfl
  · trivial
  · trivial
  · exact hnumber

/-- The code points that a scan holds are spelled. -/
def Scan.IsSound : Scan → Prop
  | .string points | .escape points => Points.AreSpelled points.reverse
  | .code points digits value =>
      Points.AreSpelled points.reverse ∧ digits ≤ 3 ∧ value < 16 ^ digits
  | _ => True

theorem isSound_start (c : Char) :
    (∀ t ∈ (Scan.start c).1, t.IsReadable) ∧ (Scan.start c).2.IsSound := by
  rw [Scan.start]
  split
  next token hmark =>
    refine ⟨fun t ht => ?_, trivial⟩
    rw [List.mem_singleton.mp ht]
    unfold mark? at hmark
    split at hmark <;> cases hmark <;> trivial
  next =>
    split_ifs
    · exact ⟨List.forall_mem_nil _, trivial⟩
    · exact ⟨List.forall_mem_nil _, List.forall_mem_nil _, .nil⟩
    · exact ⟨List.forall_mem_nil _, trivial⟩

theorem areSpelled_cons (h : Points.AreSpelled points.reverse) (hrange : point < 0x110000)
    (hjoined : ∀ first ∈ points.head?,
      ¬ (Points.isFirstHalf first = true ∧ Points.isSecondHalf point = true)) :
    Points.AreSpelled (point :: points).reverse := by
  rw [List.reverse_cons]
  refine ⟨fun p hp => ?_, List.isChain_append.mpr ⟨h.joined, .singleton point, ?_⟩⟩
  · rcases List.mem_append.mp hp with hp | hp
    · exact h.inRange p hp
    · rwa [List.mem_singleton.mp hp]
  · intro first hfirst second hsecond
    rw [List.getLast?_reverse] at hfirst
    cases hsecond
    exact hjoined first hfirst

theorem areSpelled_cons_char (h : Points.AreSpelled points.reverse) (c : Char) :
    Points.AreSpelled (c.toNat :: points).reverse := by
  refine areSpelled_cons h (Points.toNat_lt c) fun first _ hpair => ?_
  have := Points.isHalf_of_isSecondHalf hpair.2
  rw [Points.isHalf_toNat] at this
  cases this

/-- A code unit that is added to code points that are spelled leaves them so. -/
theorem areSpelled_addUnit (h : Points.AreSpelled points.reverse) (hunit : unit < 0x10000) :
    Points.AreSpelled (Scan.addUnit unit points).reverse := by
  cases points with
  | nil =>
    have hrange : unit < 0x110000 := by omega
    exact areSpelled_cons h hrange (by simp)
  | cons first points =>
    rw [Scan.addUnit]
    split
    next hpair =>
      rw [List.reverse_cons] at h
      have hrest : Points.AreSpelled points.reverse :=
        ⟨fun p hp => h.inRange p (by simp [hp]), (List.isChain_append.mp h.joined).1⟩
      simp only [Points.isFirstHalf, Points.isSecondHalf, Bool.and_eq_true,
        decide_eq_true_eq] at hpair
      have hjoin : 0x10000 ≤ Points.join first unit ∧ Points.join first unit < 0x110000 := by
        unfold Points.join
        omega
      refine areSpelled_cons hrest hjoin.2 fun _ _ hnone => ?_
      have hsecond := hnone.2
      simp only [Points.isSecondHalf, Bool.and_eq_true, decide_eq_true_eq] at hsecond
      omega
    next hpair =>
      refine areSpelled_cons h (by omega) fun first' hfirst' => ?_
      cases hfirst'
      rwa [← Bool.and_eq_true]

theorem hexDigit?_lt {c : Char} {d : Nat} (h : hexDigit? c = some d) : d < 16 := by
  rw [hexDigit?] at h
  split_ifs at h with hdigit hlower hupper
  · have hc : c.toNat ≤ 57 := by
      simp only [Char.isDigit, Bool.and_eq_true, decide_eq_true_eq] at hdigit
      exact hdigit.2
    cases h
    omega
  · have hc : c.toNat ≤ 102 := hlower.2
    cases h
    omega
  · have hc : c.toNat ≤ 70 := hupper.2
    cases h
    omega

/-- Each character that is scanned gives readable tokens and leaves a sound scan. -/
theorem isSound_step (h : scan.IsSound) (c : Char) :
    (∀ t ∈ (scan.step c).1, t.IsReadable) ∧ (scan.step c).2.IsSound := by
  cases scan with
  | idle => exact isSound_start c
  | word chars =>
    obtain ⟨htokens, hscan⟩ := isSound_start c
    rw [Scan.step]
    split
    · refine ⟨fun t ht => ?_, hscan⟩
      rcases List.mem_cons.mp ht with rfl | ht
      · exact isReadable_wordToken _
      · exact htokens t ht
    · exact ⟨List.forall_mem_nil _, trivial⟩
  | string points =>
    rw [Scan.step]
    split_ifs
    · refine ⟨fun t ht => ?_, trivial⟩
      rw [List.mem_singleton.mp ht]
      exact Atom.isReadable_ofPoints h
    · exact ⟨List.forall_mem_nil _, h⟩
    · exact ⟨by simp [Token.IsReadable], trivial⟩
    · exact ⟨List.forall_mem_nil _, areSpelled_cons_char h c⟩
  | escape points =>
    rw [Scan.step]
    split
    · exact ⟨List.forall_mem_nil _, h, by decide, by decide⟩
    · split
      next d _ => exact ⟨List.forall_mem_nil _, areSpelled_cons_char h d⟩
      next => exact ⟨by simp [Token.IsReadable], trivial⟩
  | code points digits value =>
    obtain ⟨hpoints, hdigits, hvalue⟩ := h
    rw [Scan.step]
    split
    next d hd =>
      have hlt := hexDigit?_lt hd
      have hnext : 16 * value + d < 16 ^ (digits + 1) := by
        rw [Nat.pow_succ]
        omega
      dsimp only
      split
      next hthree =>
        rw [hthree] at hnext
        exact ⟨List.forall_mem_nil _, areSpelled_addUnit hpoints hnext⟩
      next hthree => exact ⟨List.forall_mem_nil _, hpoints, by omega, hnext⟩
    next => exact ⟨by simp [Token.IsReadable], trivial⟩
  | lost => exact ⟨List.forall_mem_nil _, trivial⟩

/-- The atoms of a text are ones that a document can hold. -/
theorem isReadable_of_mem_tokensFrom {chars : List Char} (h : scan.IsSound) :
    ∀ t ∈ tokensFrom scan chars, t.IsReadable := by
  induction chars generalizing scan with
  | nil =>
    rw [tokensFrom, Scan.finish.eq_def]
    split
    · exact List.forall_mem_nil _
    · exact List.forall_mem_nil _
    · intro t ht
      rw [List.mem_singleton.mp ht]
      exact isReadable_wordToken _
    all_goals
      intro t ht
      rw [List.mem_singleton.mp ht]
      trivial
  | cons c chars ih =>
    obtain ⟨htokens, hscan⟩ := isSound_step h c
    intro t ht
    rw [tokensFrom, List.mem_append] at ht
    exact ht.elim (htokens t) (ih hscan t)

end Tokens

/-! ## Values -/

/-- What was read into an open container is readable. -/
def Frame.IsSound : Frame → Prop
  | .list items => ∀ v ∈ items, v.IsReadable
  | .map entries => entries.Holds Atom.IsKey Value.IsReadable
  | .entry entries key => entries.Holds Atom.IsKey Value.IsReadable ∧ key.IsKey

/-- What is needed next does not keep what was read. -/
def Need.KeepsNothing : Need → Prop
  | .colon _ | .nothing _ => False
  | _ => True

namespace Reading

structure IsSound (r : Reading) : Prop where
  frames : ∀ frame ∈ r.frames, frame.IsSound
  key : ∀ k, r.need = .colon k → k.IsKey
  result : ∀ v, r.need = .nothing v → v.IsReadable

section Steps

variable {r r' : Reading} {v : Value} {frames : List Frame} {token : Token} {need : Need}

theorem isSound_of_keepsNothing (h : ∀ frame ∈ frames, frame.IsSound) (hneed : need.KeepsNothing) :
    IsSound { need := need, frames := frames } where
  frames := h
  key := by
    rintro k rfl
    exact hneed.elim
  result := by
    rintro v rfl
    exact hneed.elim

theorem isSound_deliver (h : ∀ frame ∈ frames, frame.IsSound) (hv : v.IsReadable)
    (hr : deliver v frames = .ok r) : r.IsSound := by
  unfold deliver at hr
  split at hr
  · cases hr
    refine ⟨h, fun k hk => ?_, fun w hw => ?_⟩
    · cases hk
    · cases hw
      exact hv
  next items frames =>
    cases hr
    obtain ⟨hitems, hframes⟩ := List.forall_mem_cons.mp h
    have hall : ∀ w ∈ v :: items, w.IsReadable := List.forall_mem_cons.mpr ⟨hv, hitems⟩
    exact isSound_of_keepsNothing (List.forall_mem_cons.mpr ⟨hall, hframes⟩) trivial
  next entries key frames =>
    cases hr
    obtain ⟨⟨hentries, hkey⟩, hframes⟩ := List.forall_mem_cons.mp h
    exact isSound_of_keepsNothing
      (List.forall_mem_cons.mpr ⟨hentries.insert hkey hv, hframes⟩) trivial
  · cases hr

theorem isSound_begin (h : ∀ frame ∈ frames, frame.IsSound) (htoken : token.IsReadable)
    (hr : begin frames token = .ok r) : r.IsSound := by
  unfold begin at hr
  split at hr
  · exact isSound_deliver h (.atom htoken) hr
  · cases hr
    have hlist : Frame.IsSound (.list []) := List.forall_mem_nil _
    exact isSound_of_keepsNothing (List.forall_mem_cons.mpr ⟨hlist, h⟩) trivial
  · cases hr
    have hmap : Frame.IsSound (.map {}) := Table.holds_empty
    exact isSound_of_keepsNothing (List.forall_mem_cons.mpr ⟨hmap, h⟩) trivial
  · cases hr
  · cases hr

theorem isSound_endList (h : ∀ frame ∈ frames, frame.IsSound) (hr : endList frames = .ok r) :
    r.IsSound := by
  unfold endList at hr
  split at hr
  next items frames =>
    obtain ⟨hitems, hframes⟩ := List.forall_mem_cons.mp h
    exact isSound_deliver hframes (.list fun v hv => hitems v (List.mem_reverse.mp hv)) hr
  · cases hr

theorem isSound_endMap (h : ∀ frame ∈ frames, frame.IsSound) (hr : endMap frames = .ok r) :
    r.IsSound := by
  unfold endMap at hr
  split at hr
  next entries frames =>
    obtain ⟨hentries, hframes⟩ := List.forall_mem_cons.mp h
    exact isSound_deliver hframes (.map entries.distinct (fun e he => (hentries e he).1)
      fun e he => (hentries e he).2) hr
  · cases hr

theorem isSound_takeKey (h : ∀ frame ∈ frames, frame.IsSound) (htoken : token.IsReadable)
    (hr : takeKey frames token = .ok r) : r.IsSound := by
  unfold takeKey at hr
  split at hr
  next key =>
    split at hr
    next hkey =>
      cases hr
      refine ⟨h, fun k hk => ?_, fun w hw => ?_⟩
      · cases hk
        exact ⟨htoken, hkey⟩
      · cases hw
    · cases hr
  · cases hr

/-- A step on a readable token keeps a reading sound. -/
theorem isSound_step (h : r.IsSound) (htoken : token.IsReadable) (hr : r.step token = .ok r') :
    r'.IsSound := by
  unfold step at hr
  split at hr
  · exact isSound_begin h.frames htoken hr
  · exact isSound_endList h.frames hr
  · exact isSound_begin h.frames htoken hr
  · exact isSound_endMap h.frames hr
  · exact isSound_takeKey h.frames htoken hr
  · exact isSound_takeKey h.frames htoken hr
  next key hneed =>
    split at hr
    next entries frames hframes =>
      cases hr
      have hall := h.frames
      rw [hframes] at hall
      obtain ⟨hentries, hbehind⟩ := List.forall_mem_cons.mp hall
      exact isSound_of_keepsNothing
        (List.forall_mem_cons.mpr ⟨⟨hentries, h.key key hneed⟩, hbehind⟩) trivial
    · cases hr
  · exact isSound_endList h.frames hr
  · exact isSound_endMap h.frames hr
  · split at hr
    · cases hr
      exact isSound_of_keepsNothing h.frames trivial
    · cases hr
      exact isSound_of_keepsNothing h.frames trivial
    · cases hr
  · cases hr

end Steps

end Reading

/-- A value that is read from a text is one that a document can hold. -/
theorem isReadable_of_read {text : String} {v : Value} (h : read text = .ok v) : v.IsReadable := by
  rw [read, parse, bind_eq_ok] at h
  obtain ⟨r, hr, hfinish⟩ := h
  have htokens : ∀ t ∈ tokenize text, t.IsReadable := by
    rw [tokenize_eq]
    have hidle : Scan.IsSound .idle := trivial
    exact isReadable_of_mem_tokensFrom hidle
  have hstart : Reading.IsSound {} :=
    Reading.isSound_of_keepsNothing (List.forall_mem_nil _) trivial
  have hsound : r.IsSound := by
    refine foldlM_induction (motive := fun _ s => s.IsSound) hstart ?_ hr
    intro done t rest s s' hsplit hs hstep
    exact Reading.isSound_step hs (htokens t (by rw [hsplit]; simp)) hstep
  unfold Reading.finish at hfinish
  split at hfinish
  next w hneed =>
    cases hfinish
    exact hsound.result v hneed
  · cases hfinish

end TensorFusion.Json
