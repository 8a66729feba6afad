import Mathlib.Data.List.Forall2
import TensorFusion.Proofs.Json.Word

/-!
# Proofs — Json — Scan

What a scan makes of a written text. Each piece of the text gives its own tokens, wherever it
stands, as long as a word is not followed by more of a word: atoms one token each, line breaks none,
and a container the tokens of its parts between its marks.
-/

namespace TensorFusion.Json

/-- The tokens that a scan gives from some place on. -/
def tokensFrom : Scan → List Char → List Token
  | scan, [] => scan.finish
  | scan, c :: rest => (scan.step c).1 ++ tokensFrom (scan.step c).2 rest

theorem foldl_advance (chars : List Char) (tokens : List Token) (scan : Scan) :
    (chars.foldl Scan.advance (tokens, scan)).1.reverse
        ++ (chars.foldl Scan.advance (tokens, scan)).2.finish
      = tokens.reverse ++ tokensFrom scan chars := by
  induction chars generalizing tokens scan with
  | nil => rfl
  | cons c chars ih =>
    rw [List.foldl_cons, Scan.advance, ih, tokensFrom, List.reverse_append, List.reverse_reverse,
      List.append_assoc]

theorem tokenize_eq (text : String) : tokenize text = tokensFrom .idle text.toList := by
  rw [tokenize]
  exact foldl_advance text.toList [] .idle

section Idle

variable {c : Char} {rest word : List Char} {token : Token} {seen : List Char}

theorem tokensFrom_mark (h : mark? c = some token) (rest : List Char) :
    tokensFrom .idle (c :: rest) = token :: tokensFrom .idle rest := by
  simp [tokensFrom, Scan.step, Scan.start, h]

theorem tokensFrom_blank (h : isBlank c = true) (rest : List Char) :
    tokensFrom .idle (c :: rest) = tokensFrom .idle rest := by
  have hmark : mark? c = none := by
    simp only [isBlank, Bool.or_eq_true, decide_eq_true_eq] at h
    rcases h with ((rfl | rfl) | rfl) | rfl <;> rfl
  simp [tokensFrom, Scan.step, Scan.start, hmark, h]

/-- What may stand behind a word: nothing, or what ends it. -/
def EndsWord (rest : List Char) : Prop := ∀ c ∈ rest.head?, ¬ IsInner c

theorem tokensFrom_word (hword : ∀ c ∈ word, IsInner c) (hrest : EndsWord rest) :
    tokensFrom (.word seen) (word ++ rest)
      = wordToken (seen.reverse ++ word) :: tokensFrom .idle rest := by
  induction word generalizing seen with
  | nil =>
    cases rest with
    | nil => simp [tokensFrom, Scan.finish]
    | cons c rest =>
      have hends : ((mark? c).isSome || isBlank c || decide (c = '"')) = true := by
        have hc := hrest c rfl
        cases hmark : mark? c with
        | some token => simp
        | none =>
          cases hblank : isBlank c with
          | true => simp
          | false => simpa [IsInner, hmark, hblank] using hc
      simp [tokensFrom, Scan.step, hends]
  | cons c word ih =>
    obtain ⟨hmark, hblank, hquote⟩ := hword c (by simp)
    have hnext : Scan.step c (.word seen) = ([], .word (c :: seen)) := by
      simp [Scan.step, hmark, hblank, hquote]
    rw [List.cons_append, tokensFrom, hnext, ih fun d hd => hword d (by simp [hd])]
    simp

end Idle

/-! ## Strings -/

section Strings

variable {c : Char} {rest : List Char} {point : Nat} {points seen : List Nat}

/-- A number in four places of sixteen. -/
theorem hex_four {n : Nat} (h : n < 0x10000) : Points.hex n 4 =
    [(n / 16 / 16 / 16).digitChar, (n / 16 / 16 % 16).digitChar, (n / 16 % 16).digitChar,
      (n % 16).digitChar] := by
  have hstep (n places : Nat) : Points.hex n (places + 2)
      = Points.hex (n / 16) (places + 1) ++ [(n % 16).digitChar] := by
    rw [Points.hex, Points.hex, Nat.toDigits_eq_if (by decide)]
    split
    next hn =>
      rw [Nat.div_eq_of_lt hn, Nat.mod_eq_of_lt hn, Nat.toDigits_zero]
      simp [List.replicate_succ']
    next hn => simp
  have hone {n : Nat} (hn : n < 16) : Points.hex n 1 = [n.digitChar] := by
    rw [Points.hex, Nat.toDigits_of_lt_base hn]
    rfl
  rw [hstep n 2, hstep _ 1, hstep _ 0, hone (by omega)]
  rfl

theorem hexDigit?_digitChar {n : Nat} (h : n < 16) : hexDigit? n.digitChar = some n := by
  interval_cases n <;> rfl

/-- An escape by number gives its code unit. -/
theorem tokensFrom_unitEscape {unit : Nat} (h : unit < 0x10000) (rest : List Char) :
    tokensFrom (.string seen) (unitEscape unit ++ rest)
      = tokensFrom (.string (Scan.addUnit unit seen)) rest := by
  have hvalue : 16 * (16 * (16 * (unit / 16 / 16 / 16) + unit / 16 / 16 % 16) + unit / 16 % 16)
      + unit % 16 = unit := by omega
  have hfirst : hexDigit? (unit / 16 / 16 / 16).digitChar = some (unit / 16 / 16 / 16) :=
    hexDigit?_digitChar (by omega)
  have hother (n : Nat) : hexDigit? (n % 16).digitChar = some (n % 16) :=
    hexDigit?_digitChar (Nat.mod_lt n (by decide))
  rw [unitEscape, hex_four h]
  simp [tokensFrom, Scan.step, hfirst, hother, hvalue]

/-- A code unit that completes no pair is added as it is. -/
theorem addUnit_eq_cons {unit : Nat} (h : ∀ first ∈ seen.head?,
    ¬ (Points.isFirstHalf first = true ∧ Points.isSecondHalf unit = true)) :
    Scan.addUnit unit seen = unit :: seen := by
  cases seen with
  | nil => rfl
  | cons first seen =>
    rw [Scan.addUnit, if_neg]
    rw [Bool.and_eq_true]
    exact h first rfl

theorem tokensFrom_shortEscape {c d : Char} (h : shortEscape? c = some d) (rest : List Char) :
    tokensFrom (.string seen) (['\\', c] ++ rest)
      = tokensFrom (.string (d.toNat :: seen)) rest := by
  have hu : c ≠ 'u' := by
    rintro rfl
    cases h
  simp [tokensFrom, Scan.step, h, hu]

theorem tokensFrom_plain (h : 0x20 ≤ point ∧ point < 0x7f) (hquote : point ≠ 0x22)
    (hslash : point ≠ 0x5c) (rest : List Char) :
    tokensFrom (.string seen) ([Char.ofNat point] ++ rest)
      = tokensFrom (.string (point :: seen)) rest := by
  have hvalue : (Char.ofNat point).toNat = point := by
    rw [Char.ofNat, dif_pos (.inl (by omega))]
    rfl
  have hne {c : Char} (hc : point ≠ c.toNat) : Char.ofNat point ≠ c := by
    rintro rfl
    exact hc hvalue.symm
  have hstep : Scan.step (Char.ofNat point) (.string seen) = ([], .string (point :: seen)) := by
    rw [Scan.step, if_neg (hne (c := '"') hquote), if_neg (hne (c := '\\') hslash), hvalue,
      if_neg (by omega)]
  rw [List.singleton_append, tokensFrom, hstep]
  rfl

/-- A code point beyond the first plane is a pair of code units. -/
theorem tokensFrom_pair (hlow : 0x10000 ≤ point) (hhigh : point < 0x110000) (rest : List Char) :
    tokensFrom (.string seen) ((unitEscape (0xd800 + (point - 0x10000) / 0x400)
        ++ unitEscape (0xdc00 + (point - 0x10000) % 0x400)) ++ rest)
      = tokensFrom (.string (point :: seen)) rest := by
  generalize hfirst : 0xd800 + (point - 0x10000) / 0x400 = first
  generalize hsecond : 0xdc00 + (point - 0x10000) % 0x400 = second
  have hstarts : Points.isFirstHalf first = true := by
    simp only [Points.isFirstHalf, Bool.and_eq_true, decide_eq_true_eq]
    omega
  have hends : Points.isSecondHalf second = true := by
    simp only [Points.isSecondHalf, Bool.and_eq_true, decide_eq_true_eq]
    omega
  have hnone : Points.isSecondHalf first = false := by
    simp only [Points.isSecondHalf, Bool.and_eq_false_iff, decide_eq_false_iff_not]
    omega
  have hjoin : Points.join first second = point := by
    unfold Points.join
    omega
  have hadd : Scan.addUnit first seen = first :: seen := addUnit_eq_cons (by simp [hnone])
  have hpair : Scan.addUnit second (first :: seen) = point :: seen := by
    rw [Scan.addUnit, hstarts, hends, hjoin]
    rfl
  have hfirstUnit : first < 0x10000 := by omega
  have hsecondUnit : second < 0x10000 := by omega
  rw [List.append_assoc, tokensFrom_unitEscape hfirstUnit, tokensFrom_unitEscape hsecondUnit, hadd,
    hpair]

/-- An escaped code point gives itself. -/
theorem tokensFrom_escape (hrange : point < 0x110000) (hjoined : ∀ first ∈ seen.head?,
      ¬ (Points.isFirstHalf first = true ∧ Points.isSecondHalf point = true)) (rest : List Char) :
    tokensFrom (.string seen) (escape point ++ rest)
      = tokensFrom (.string (point :: seen)) rest := by
  rw [escape]
  split_ifs with hquote hslash hline hreturn htab hfeed hback hplain hunit
  · rw [hquote]
    exact tokensFrom_shortEscape (c := '"') rfl rest
  · rw [hslash]
    exact tokensFrom_shortEscape (c := '\\') rfl rest
  · rw [hline]
    exact tokensFrom_shortEscape (c := 'n') rfl rest
  · rw [hreturn]
    exact tokensFrom_shortEscape (c := 'r') rfl rest
  · rw [htab]
    exact tokensFrom_shortEscape (c := 't') rfl rest
  · rw [hfeed]
    exact tokensFrom_shortEscape (c := 'f') rfl rest
  · rw [hback]
    exact tokensFrom_shortEscape (c := 'b') rfl rest
  · exact tokensFrom_plain hplain hquote hslash rest
  · rw [tokensFrom_unitEscape hunit, addUnit_eq_cons hjoined]
  · exact tokensFrom_pair (Nat.not_lt.mp hunit) hrange rest

/-- Escaped code points give themselves. -/
theorem tokensFrom_points (h : Points.AreSpelled (seen.reverse ++ points)) (rest : List Char) :
    tokensFrom (.string seen) (points.flatMap escape ++ rest)
      = tokensFrom (.string (points.reverse ++ seen)) rest := by
  induction points generalizing seen with
  | nil => rfl
  | cons point points ih =>
    have hjoined : ∀ first ∈ seen.head?,
        ¬ (Points.isFirstHalf first = true ∧ Points.isSecondHalf point = true) := by
      intro first hfirst
      have hlast : first ∈ seen.reverse.getLast? := by rwa [List.getLast?_reverse]
      exact (List.isChain_append.mp h.joined).2.2 first hlast point rfl
    have hsplit : seen.reverse ++ point :: points = (point :: seen).reverse ++ points := by simp
    rw [hsplit] at h
    rw [List.flatMap_cons, List.append_assoc,
      tokensFrom_escape (h.inRange point (by simp)) hjoined, ih h, List.reverse_cons,
      List.append_assoc, List.singleton_append]

/-- A quoted text gives the atom of its code points. -/
theorem tokensFrom_quotePoints (h : Points.AreSpelled points) (rest : List Char) :
    tokensFrom .idle ((quotePoints points).toList ++ rest)
      = .atom (.ofPoints points) :: tokensFrom .idle rest := by
  have hopen : Scan.step '"' .idle = ([], .string []) := rfl
  have hclose : Scan.step '"' (.string points.reverse) = ([.atom (.ofPoints points)], .idle) := by
    rw [Scan.step, if_pos rfl, List.reverse_reverse]
  rw [quotePoints, String.toList_ofList, List.cons_append, List.cons_append, List.append_assoc,
    tokensFrom, hopen, List.nil_append, tokensFrom_points (by simpa using h), List.append_nil,
    List.singleton_append, tokensFrom, hclose]
  rfl

end Strings

/-! ## Written values -/

mutual

/-- The tokens of a value. -/
def tokensOf : Value → List Token
  | .atom a => [.atom a]
  | .list items => .openList :: [.comma].intercalate (itemTokens items) ++ [.closeList]
  | .map entries => .openMap :: [.comma].intercalate (entriesTokens entries) ++ [.closeMap]

def itemTokens : List Value → List (List Token)
  | [] => []
  | v :: vs => tokensOf v :: itemTokens vs

def entriesTokens : List (Atom × Value) → List (List Token)
  | [] => []
  | e :: es => entryTokens e :: entriesTokens es

def entryTokens : Atom × Value → List Token
  | (k, v) => .atom k :: .colon :: tokensOf v

end

/-- A piece of text gives some tokens, whatever stands behind it that ends a word. -/
def Spells (text : List Char) (tokens : List Token) : Prop :=
  ∀ rest, EndsWord rest → tokensFrom .idle (text ++ rest) = tokens ++ tokensFrom .idle rest

section Spelling

variable {text more : List Char} {tokens tokens' : List Token} {token : Token} {c : Char}
  {level : Nat}

theorem not_isInner_of_mark (h : mark? c = some token) : ¬ IsInner c := by
  rintro ⟨hnone, -⟩
  rw [h] at hnone
  cases hnone

theorem not_isInner_of_blank (h : isBlank c = true) : ¬ IsInner c := by
  rintro ⟨-, hnone, -⟩
  rw [h] at hnone
  cases hnone

theorem EndsWord.append (h : EndsWord more) {rest : List Char} (hrest : EndsWord rest) :
    EndsWord (more ++ rest) := by
  cases more with
  | nil => exact hrest
  | cons c more => exact h

theorem endsWord_cons (h : ¬ IsInner c) : EndsWord (c :: more) := by
  intro d hd
  cases hd
  exact h

theorem spells_nil : Spells [] [] := fun _ _ => rfl

/-- Pieces that spell their tokens spell them together. -/
theorem Spells.append (h : Spells text tokens) (hmore : Spells more tokens')
    (hends : EndsWord more) : Spells (text ++ more) (tokens ++ tokens') := by
  intro rest hrest
  rw [List.append_assoc, h (more ++ rest) (hends.append hrest), hmore rest hrest,
    List.append_assoc]

theorem Spells.mark (hmark : mark? c = some token) (h : Spells text tokens) :
    Spells (c :: text) (token :: tokens) := by
  intro rest hrest
  rw [List.cons_append, tokensFrom_mark hmark, h rest hrest, List.cons_append]

theorem Spells.blank (hblank : isBlank c = true) (h : Spells text tokens) :
    Spells (c :: text) tokens := by
  intro rest hrest
  rw [List.cons_append, tokensFrom_blank hblank, h rest hrest]

theorem Spells.blanks {n : Nat} (h : Spells text tokens) :
    Spells (List.replicate n ' ' ++ text) tokens := by
  induction n with
  | zero => exact h
  | succ n ih =>
    rw [List.replicate_succ, List.cons_append]
    exact ih.blank rfl

theorem toList_newline (level : Nat) :
    (newline level).toList = '\n' :: List.replicate (2 * level) ' ' := by
  simp [newline]

theorem Spells.newline (h : Spells text tokens) :
    Spells ((newline level).toList ++ text) tokens := by
  rw [toList_newline]
  exact h.blanks.blank rfl

theorem endsWord_newline : EndsWord ((newline level).toList ++ text) := by
  rw [toList_newline]
  exact endsWord_cons (not_isInner_of_blank rfl)

theorem spells_atomText {a : Atom} (h : a.IsReadable) (hpoints : a.points? = none) :
    Spells (atomText a).toList [.atom a] := by
  obtain ⟨hinner, hne, hreads⟩ := isWordOf_atomText h hpoints
  intro rest hrest
  obtain ⟨c, word, hword⟩ := List.exists_cons_of_ne_nil hne
  obtain ⟨hmark, hblank, hquote⟩ := hinner c (by simp [hword])
  have hstart : Scan.step c .idle = ([], .word [c]) := by
    simp [Scan.step, Scan.start, hmark, hblank, hquote]
  rw [hword, List.cons_append, tokensFrom, hstart, List.nil_append,
    tokensFrom_word (fun d hd => hinner d (by simp [hword, hd])) hrest, List.reverse_singleton,
    List.singleton_append, ← hword, hreads, List.singleton_append]

/-- A text is written in quotes. -/
theorem spells_quotePoints {a : Atom} {points : List Nat} (h : a.IsReadable)
    (hpoints : a.points? = some points) : Spells (quotePoints points).toList [.atom a] := by
  obtain ⟨ha, hspelled⟩ := h.ofPoints_eq hpoints
  intro rest _
  rw [tokensFrom_quotePoints hspelled, ha]
  rfl

theorem spells_atom {a : Atom} (h : a.IsReadable) : Spells (atomText a).toList [.atom a] := by
  cases hpoints : a.points? with
  | none => exact spells_atomText h hpoints
  | some points =>
    have htext : atomText a = quotePoints points := by
      cases a <;> cases hpoints <;> rfl
    rw [htext]
    exact spells_quotePoints h hpoints

theorem spells_key {a : Atom} (h : a.IsReadable) (hkey : a.points?.isSome = true) :
    Spells (keyText a).toList [.atom a] := by
  obtain ⟨points, hpoints⟩ := Option.isSome_iff_exists.mp hkey
  have htext : keyText a = quotePoints points := by
    cases a <;> cases hpoints <;> rfl
  rw [htext]
  exact spells_quotePoints h hpoints

/-- Lines joined by commas and line breaks spell what they spell one by one. -/
theorem spells_lines {lines : List (List Char)} {tokens : List (List Token)}
    (h : List.Forall₂ Spells lines tokens) :
    Spells ((',' :: (newline level).toList).intercalate lines) ([.comma].intercalate tokens) := by
  induction h with
  | nil => exact spells_nil
  | cons hline hlines ih =>
    cases hlines with
    | nil => simpa using hline
    | cons hnext hrest =>
      rw [List.intercalate_cons_cons, List.intercalate_cons_cons, List.append_assoc,
        List.append_assoc, List.cons_append]
      exact hline.append (ih.newline.mark rfl) (endsWord_cons (not_isInner_of_mark rfl))

/-- A block spells its lines between two marks. -/
theorem spells_block {opening closing : String} {lines : List String} {tokens : List (List Token)}
    {c d : Char} {start stop : Token} (hopening : opening.toList = [c]) (hc : mark? c = some start)
    (hclosing : closing.toList = [d]) (hd : mark? d = some stop)
    (h : List.Forall₂ Spells (lines.map String.toList) tokens) :
    Spells (block opening closing level lines).toList
      (start :: [.comma].intercalate tokens ++ [stop]) := by
  have hstop : Spells [d] [stop] := spells_nil.mark hd
  rw [block, List.cons_append]
  cases lines with
  | nil =>
    cases h
    rw [List.isEmpty_nil, if_pos rfl, String.toList_append, hopening, hclosing]
    exact hstop.mark hc
  | cons line lines =>
    have hlines : Spells ((',' :: (newline (level + 1)).toList).intercalate _) _ := spells_lines h
    have hcomma : ",".toList = [','] := rfl
    rw [List.isEmpty_cons, if_neg Bool.false_ne_true]
    simp only [String.toList_append, hopening, hclosing, hcomma, String.toList_intercalate,
      List.append_assoc, List.singleton_append]
    exact ((hlines.append hstop.newline endsWord_newline).newline).mark hc

end Spelling

mutual

/-- What is written of a value spells its tokens. -/
theorem spells_render (level : Nat) : (v : Value) → v.IsReadable →
    Spells (render level v).toList (tokensOf v)
  | .atom a, .atom h => by
    rw [render, tokensOf]
    exact spells_atom h
  | .list items, .list h => by
    rw [render, tokensOf]
    exact spells_block rfl rfl rfl rfl (spells_items (level + 1) items h)
  | .map entries, .map _ keys h => by
    rw [render, tokensOf]
    exact spells_block rfl rfl rfl rfl (spells_entries (level + 1) entries keys h)

theorem spells_items (level : Nat) : (items : List Value) → (∀ v ∈ items, v.IsReadable) →
    List.Forall₂ Spells ((renderItems level items).map String.toList) (itemTokens items)
  | [], _ => .nil
  | v :: items, h => by
    rw [renderItems, itemTokens, List.map_cons]
    exact .cons (spells_render level v (h v (by simp)))
      (spells_items level items fun w hw => h w (by simp [hw]))

theorem spells_entries (level : Nat) : (entries : List (Atom × Value)) →
    (∀ e ∈ entries, e.1.IsReadable ∧ e.1.points?.isSome = true) →
    (∀ e ∈ entries, e.2.IsReadable) →
    List.Forall₂ Spells ((renderEntries level entries).map String.toList) (entriesTokens entries)
  | [], _, _ => .nil
  | e :: entries, keys, h => by
    rw [renderEntries, entriesTokens, List.map_cons]
    exact .cons (spells_entry level e (keys e (by simp)) (h e (by simp)))
      (spells_entries level entries (fun f hf => keys f (by simp [hf]))
        fun f hf => h f (by simp [hf]))

theorem spells_entry (level : Nat) : (e : Atom × Value) →
    e.1.IsReadable ∧ e.1.points?.isSome = true → e.2.IsReadable →
    Spells (renderEntry level e).toList (entryTokens e)
  | (k, v), key, h => by
    rw [renderEntry, entryTokens, String.toList_append, String.toList_append, List.append_assoc]
    exact (spells_key key.1 key.2).append
      (((spells_render level v h).blank rfl).mark rfl) (endsWord_cons (not_isInner_of_mark rfl))

end

/-- The tokens of a written value are its own. -/
theorem tokenize_write {v : Value} (h : v.IsReadable) : tokenize (write v) = tokensOf v := by
  have hspells := spells_render 0 v h [] (by rintro c ⟨⟩)
  rw [List.append_nil, tokensFrom, Scan.finish, List.append_nil] at hspells
  rw [tokenize_eq, write, hspells]

end TensorFusion.Json
