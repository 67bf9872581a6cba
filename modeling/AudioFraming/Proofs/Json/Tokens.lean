import AudioFraming.Proofs.Json.Grammar

/-!
# Reading numerals and strings

A reader of a token takes off what the grammar allows, and whatever the grammar allows
is taken off. A string ends with its quote, so there the two directions make one
statement. A numeral has no end of its own: it is read as far as it goes, and so what
comes after it must not go on with it (`Ends`).
-/

namespace AudioFraming

namespace Json

variable {α β : Type}

/-- Readers are put together in this way. -/
theorem bind_eq_ok_iff {x : Except Fault α} {f : α → Except Fault β} {b : β} :
    x >>= f = .ok b ↔ ∃ a, x = .ok a ∧ f a = .ok b := by
  cases x with
  | error fault => exact ⟨nofun, nofun⟩
  | ok a => exact ⟨fun h => ⟨a, rfl, h⟩, fun ⟨_, ha, h⟩ => Except.ok.inj ha ▸ h⟩

theorem bind_of_ok {x : Except Fault α} {a : α} (h : x = .ok a) (f : α → Except Fault β) :
    x >>= f = f a := by
  rw [h]
  rfl

theorem map_eq_ok_iff {f : α → β} {x : Except Fault α} {b : β} :
    x.map f = .ok b ↔ ∃ a, x = .ok a ∧ f a = b := by
  cases x with
  | error fault => exact ⟨nofun, nofun⟩
  | ok a => exact ⟨fun h => ⟨a, rfl, Except.ok.inj h⟩, fun ⟨_, ha, h⟩ => by cases ha; exact h ▸ rfl⟩

/-! ## Numerals -/

/-- No digit stands in front. -/
def EndsDigits (rest : List Char) : Prop := ∀ c ∈ rest.head?, c.isDigit = false

/-- Nothing that could go on with a numeral stands in front. -/
def Ends (rest : List Char) : Prop :=
  ∀ c ∈ rest.head?, c.isDigit = false ∧ c ≠ '.' ∧ c ≠ 'e' ∧ c ≠ 'E'

theorem Ends.endsDigits {rest : List Char} (h : Ends rest) : EndsDigits rest :=
  fun c hc => (h c hc).1

theorem readDigits_eq_ok_iff {s digits rest : List Char} :
    readDigits s = .ok (digits, rest) ↔
      s = digits ++ rest ∧ digits ≠ [] ∧ AllDigits digits ∧ EndsDigits rest := by
  unfold readDigits
  rw [List.span_eq_takeWhile_dropWhile]
  constructor
  · intro h
    have hsplit : s = s.takeWhile Char.isDigit ++ s.dropWhile Char.isDigit :=
      List.takeWhile_append_dropWhile.symm
    have hdigits : AllDigits (s.takeWhile Char.isDigit) := fun _ => List.mem_takeWhile_imp
    have hends : EndsDigits (s.dropWhile Char.isDigit) := by
      intro c hc
      have := List.head?_dropWhile_not Char.isDigit s
      rwa [Option.mem_def.mp hc] at this
    generalize s.takeWhile Char.isDigit = taken at *
    generalize s.dropWhile Char.isDigit = left at *
    cases taken with
    | nil => cases left <;> cases h
    | cons d taken =>
      cases h
      exact ⟨hsplit, List.cons_ne_nil _ _, hdigits, hends⟩
  · rintro ⟨rfl, hne, hdigits, hends⟩
    have hrest : rest.takeWhile Char.isDigit = [] ∧ rest.dropWhile Char.isDigit = rest := by
      cases rest with
      | nil => exact ⟨rfl, rfl⟩
      | cons c rest =>
        have hc : c.isDigit = false := hends c rfl
        simp [hc]
    rw [List.takeWhile_append_of_pos hdigits, List.dropWhile_append_of_pos hdigits, hrest.1,
      hrest.2, List.append_nil]
    cases digits with
    | nil => exact absurd rfl hne
    | cons d digits => rfl

theorem readWhole_eq_readDigits {s : List Char} (h : s.head? ≠ some '0') :
    readWhole s = readDigits s := by
  cases s with
  | nil => rfl
  | cons c s =>
    have hc : c ≠ '0' := by simpa using h
    cases s <;> simp [readWhole, hc]

theorem whole_of_read {s whole rest : List Char} (h : readWhole s = .ok (whole, rest)) :
    s = whole ++ rest ∧ whole ≠ [] ∧ AllDigits whole ∧
      (whole.head? = some '0' → whole = ['0']) := by
  by_cases hzero : s.head? = some '0'
  · obtain ⟨s, rfl⟩ : ∃ t, s = '0' :: t := by
      cases s with
      | nil => cases hzero
      | cons c s => exact ⟨s, by simpa using hzero⟩
    have hread : whole = ['0'] ∧ s = rest := by
      cases s with
      | nil => cases h; exact ⟨rfl, rfl⟩
      | cons c s =>
        simp only [readWhole] at h
        split at h
        · cases h
        · cases h; exact ⟨rfl, rfl⟩
    obtain ⟨rfl, rfl⟩ := hread
    exact ⟨rfl, nofun, by simp [AllDigits], fun _ => rfl⟩
  · rw [readWhole_eq_readDigits hzero, readDigits_eq_ok_iff] at h
    obtain ⟨rfl, hne, hdigits, -⟩ := h
    refine ⟨rfl, hne, hdigits, fun hhead => absurd ?_ hzero⟩
    rw [List.head?_append, hhead]
    rfl

theorem readWhole_append {whole rest : List Char} (hne : whole ≠ []) (hdigits : AllDigits whole)
    (hzero : whole.head? = some '0' → whole = ['0']) (hends : EndsDigits rest) :
    readWhole (whole ++ rest) = .ok (whole, rest) := by
  by_cases hhead : whole.head? = some '0'
  · obtain rfl := hzero hhead
    cases rest with
    | nil => rfl
    | cons c rest =>
      have hc : c.isDigit = false := hends c rfl
      simp [readWhole, hc]
  · rw [readWhole_eq_readDigits, readDigits_eq_ok_iff]
    · exact ⟨rfl, hne, hdigits, hends⟩
    · rw [List.head?_append_of_ne_nil _ hne]
      exact hhead

/-- The point and the digits after it. -/
def fractionText (fraction : List Char) : List Char :=
  if fraction = [] then [] else '.' :: fraction

theorem fraction_of_read {s fraction rest : List Char}
    (h : readFraction s = .ok (fraction, rest)) :
    s = fractionText fraction ++ rest ∧ AllDigits fraction := by
  unfold readFraction at h
  split at h
  · obtain ⟨rfl, hne, hdigits, -⟩ := readDigits_eq_ok_iff.mp h
    exact ⟨by simp [fractionText, hne], hdigits⟩
  · cases h
    exact ⟨rfl, nofun⟩

theorem readFraction_append {fraction rest : List Char} (hdigits : AllDigits fraction)
    (hends : EndsDigits rest) (hpoint : rest.head? ≠ some '.') :
    readFraction (fractionText fraction ++ rest) = .ok (fraction, rest) := by
  by_cases hne : fraction = []
  · subst hne
    cases rest with
    | nil => rfl
    | cons c rest =>
      have hc : c ≠ '.' := by simpa using hpoint
      simp [fractionText, readFraction, hc]
  · simp [fractionText, hne, readFraction, readDigits_eq_ok_iff, hdigits, hends]

/-- The sign of an exponent. -/
def signText : ExponentSign → List Char
  | .absent => []
  | .plus => ['+']
  | .minus => ['-']

theorem exponent_text_eq (e : Exponent) :
    e.text = (if e.capital then 'E' else 'e') :: (signText e.sign ++ e.digits) := by
  cases hsign : e.sign <;> simp [Exponent.text, signText, hsign]

theorem sign_of_read {s rest : List Char} {sign : ExponentSign}
    (h : readExponentSign s = (sign, rest)) : s = signText sign ++ rest := by
  unfold readExponentSign at h
  split at h <;> cases h <;> rfl

theorem readExponentSign_append {s : List Char} (hs : ∀ c ∈ s.head?, c.isDigit = true)
    (sign : ExponentSign) : readExponentSign (signText sign ++ s) = (sign, s) := by
  cases sign with
  | plus => rfl
  | minus => rfl
  | absent =>
    cases s with
    | nil => rfl
    | cons c s =>
      have hc : c.isDigit = true := hs c rfl
      have hplus : c ≠ '+' := by rintro rfl; cases hc
      have hminus : c ≠ '-' := by rintro rfl; cases hc
      simp [signText, readExponentSign, hplus, hminus]

/-- The exponent, if there is one. -/
def exponentText (exponent : Option Exponent) : List Char := exponent.elim [] Exponent.text

theorem exponent_of_read {s rest : List Char} {exponent : Option Exponent}
    (h : readExponent s = .ok (exponent, rest)) :
    s = exponentText exponent ++ rest ∧
      ∀ e ∈ exponent, e.digits ≠ [] ∧ AllDigits e.digits := by
  cases s with
  | nil => cases h; exact ⟨rfl, nofun⟩
  | cons c s =>
    simp only [readExponent] at h
    split at h
    · rename_i hc
      cases hsign : readExponentSign s with
      | mk sign t =>
      rw [hsign] at h
      dsimp only at h
      split at h
      · cases h
      · rename_i digits left hread
        cases h
        obtain ⟨rfl, hne, hdigits, -⟩ := readDigits_eq_ok_iff.mp hread
        constructor
        · rw [sign_of_read hsign]
          rcases hc with rfl | rfl <;> simp [exponentText, exponent_text_eq]
        · rintro e ⟨rfl⟩
          exact ⟨hne, hdigits⟩
    · cases h
      exact ⟨rfl, nofun⟩

theorem readExponent_append {exponent : Option Exponent} {rest : List Char}
    (hdigits : ∀ e ∈ exponent, e.digits ≠ [] ∧ AllDigits e.digits) (hends : Ends rest) :
    readExponent (exponentText exponent ++ rest) = .ok (exponent, rest) := by
  cases exponent with
  | none =>
    cases rest with
    | nil => rfl
    | cons c rest =>
      obtain ⟨-, -, he, hE⟩ := hends c rfl
      simp [exponentText, readExponent, he, hE]
  | some e =>
    obtain ⟨hne, hall⟩ := hdigits e rfl
    have hread : readDigits (e.digits ++ rest) = .ok (e.digits, rest) :=
      readDigits_eq_ok_iff.mpr ⟨rfl, hne, hall, hends.endsDigits⟩
    have hsign : readExponentSign (signText e.sign ++ (e.digits ++ rest)) =
        (e.sign, e.digits ++ rest) := by
      apply readExponentSign_append
      rw [List.head?_append_of_ne_nil _ hne]
      exact fun c hc => hall c (List.mem_of_head? hc)
    obtain ⟨capital, sign, digits⟩ := e
    cases capital <;>
      simp [exponentText, exponent_text_eq, readExponent, hsign, hread]

/-- Takes off the sign of a numeral. -/
def readMinus : List Char → Bool × List Char
  | '-' :: s => (true, s)
  | s => (false, s)

def minusText (negative : Bool) : List Char := if negative then ['-'] else []

theorem minus_of_read {s rest : List Char} {negative : Bool}
    (h : readMinus s = (negative, rest)) : s = minusText negative ++ rest := by
  unfold readMinus at h
  split at h <;> cases h <;> rfl

theorem readMinus_append {s : List Char} (hs : ∀ c ∈ s.head?, c.isDigit = true)
    (negative : Bool) : readMinus (minusText negative ++ s) = (negative, s) := by
  cases negative with
  | true => rfl
  | false =>
    cases s with
    | nil => rfl
    | cons c s =>
      have hc : c.isDigit = true := hs c rfl
      have hminus : c ≠ '-' := by rintro rfl; cases hc
      simp [minusText, readMinus, hminus]

theorem numeral_text_eq (n : Numeral) :
    n.text = minusText n.negative ++
      (n.whole ++ (fractionText n.fraction ++ exponentText n.exponent)) := by
  simp [Numeral.text, minusText, fractionText, exponentText]

/-- A numeral is taken if it has a double. -/
def takeNumeral (n : Numeral) (rest : List Char) : Except Fault (Numeral × List Char) :=
  if n.isFinite then .ok (n, rest) else .error .malformed

theorem takeNumeral_eq_ok_iff {n m : Numeral} {rest left : List Char} :
    takeNumeral n rest = .ok (m, left) ↔ n = m ∧ rest = left ∧ n.isFinite = true := by
  unfold takeNumeral
  split <;> simp [*]

/-- A numeral is read part by part. -/
theorem readNumeral_eq (s : List Char) :
    readNumeral s = readWhole (readMinus s).2 >>= fun w => readFraction w.2 >>= fun r =>
      readExponent r.2 >>= fun x => takeNumeral ⟨(readMinus s).1, w.1, r.1, x.1⟩ x.2 := rfl

theorem fractionText_append_head (fraction rest : List Char) :
    ∀ c ∈ (fractionText fraction ++ rest).head?, c = '.' ∨ c ∈ rest.head? := by
  unfold fractionText
  split
  · exact fun c hc => Or.inr hc
  · rintro c ⟨rfl⟩
    exact Or.inl rfl

theorem exponentText_append_head (exponent : Option Exponent) (rest : List Char) :
    ∀ c ∈ (exponentText exponent ++ rest).head?, c = 'e' ∨ c = 'E' ∨ c ∈ rest.head? := by
  cases exponent with
  | none => exact fun c hc => Or.inr (Or.inr hc)
  | some e =>
    rw [exponentText, Option.elim_some, exponent_text_eq]
    rintro c ⟨rfl⟩
    cases e.capital
    · exact Or.inl rfl
    · exact Or.inr (Or.inl rfl)

/-- A numeral that has been read is well-formed and has a double. -/
theorem numeral_of_read {s rest : List Char} {n : Numeral} (h : readNumeral s = .ok (n, rest)) :
    s = n.text ++ rest ∧ n.WellFormed ∧ n.isFinite = true := by
  rw [readNumeral_eq] at h
  obtain ⟨⟨whole, u⟩, hwhole, h⟩ := bind_eq_ok_iff.mp h
  obtain ⟨⟨fraction, v⟩, hfraction, h⟩ := bind_eq_ok_iff.mp h
  obtain ⟨⟨exponent, w⟩, hexponent, h⟩ := bind_eq_ok_iff.mp h
  obtain ⟨rfl, rfl, hfinite⟩ := takeNumeral_eq_ok_iff.mp h
  have hminus : s = minusText (readMinus s).1 ++ (readMinus s).2 := minus_of_read rfl
  obtain ⟨htext, hne, hdigits, hzero⟩ := whole_of_read hwhole
  obtain ⟨rfl, hplaces⟩ := fraction_of_read hfraction
  obtain ⟨rfl, hpower⟩ := exponent_of_read hexponent
  refine ⟨?_, ⟨hne, hdigits, hzero, hplaces, hpower⟩, hfinite⟩
  rw [numeral_text_eq]
  simpa [htext] using hminus

section numeral

variable {n : Numeral} {rest : List Char}

theorem readNumeral_whole (hwell : n.WellFormed) (hends : EndsDigits rest) :
    readNumeral (minusText n.negative ++ (n.whole ++ rest)) =
      readFraction rest >>= fun r => readExponent r.2 >>= fun x =>
        takeNumeral ⟨n.negative, n.whole, r.1, x.1⟩ x.2 := by
  have hhead : ∀ c ∈ (n.whole ++ rest).head?, c.isDigit = true := by
    rw [List.head?_append_of_ne_nil _ hwell.whole_ne_nil]
    exact fun c hc => hwell.whole_digits c (List.mem_of_head? hc)
  rw [readNumeral_eq, readMinus_append hhead,
    readWhole_append hwell.whole_ne_nil hwell.whole_digits hwell.whole_eq_zero hends]
  rfl

theorem readNumeral_fraction (hwell : n.WellFormed) (hends : EndsDigits rest)
    (hpoint : rest.head? ≠ some '.') :
    readNumeral (minusText n.negative ++ (n.whole ++ (fractionText n.fraction ++ rest))) =
      readExponent rest >>= fun x =>
        takeNumeral ⟨n.negative, n.whole, n.fraction, x.1⟩ x.2 := by
  have hplaces : EndsDigits (fractionText n.fraction ++ rest) := by
    intro c hc
    rcases fractionText_append_head _ _ c hc with rfl | hrest
    · rfl
    · exact hends c hrest
  rw [readNumeral_whole hwell hplaces, readFraction_append hwell.fraction_digits hends hpoint]
  rfl

/-- A numeral is read as far as it goes, and then its double decides. -/
theorem readNumeral_text (hwell : n.WellFormed) (hends : Ends rest) :
    readNumeral (n.text ++ rest) = takeNumeral n rest := by
  have hpower : ∀ c ∈ (exponentText n.exponent ++ rest).head?, c.isDigit = false ∧ c ≠ '.' := by
    intro c hc
    rcases exponentText_append_head _ _ c hc with rfl | rfl | hrest
    · exact ⟨rfl, by decide⟩
    · exact ⟨rfl, by decide⟩
    · exact ⟨(hends c hrest).1, (hends c hrest).2.1⟩
  rw [numeral_text_eq]
  simp only [List.append_assoc]
  rw [readNumeral_fraction hwell (fun c hc => (hpower c hc).1) fun hpoint =>
    (hpower _ hpoint).2 rfl, readExponent_append hwell.exponent_digits hends]
  rfl

theorem readNumeral_self (hwell : n.WellFormed) : readNumeral n.text = takeNumeral n [] := by
  have hends : Ends [] := nofun
  simpa using readNumeral_text hwell hends

theorem readNumeral_append (hwell : n.WellFormed) (hfinite : n.isFinite = true)
    (hends : Ends rest) : readNumeral (n.text ++ rest) = .ok (n, rest) :=
  (readNumeral_text hwell hends).trans (if_pos hfinite)

end numeral

/-! ## Strings -/

theorem readUnit_eq_ok_iff {s rest : List Char} {unit : Nat} :
    readUnit s = .ok (unit, rest) ↔ ∃ w, s = w ++ rest ∧ IsUnit w unit := by
  constructor
  · intro h
    match s with
    | a :: b :: c :: d :: t =>
      simp only [readUnit] at h
      split at h
      · rename_i va vb vc vd ha hb hc hd
        cases h
        exact ⟨[a, b, c, d], rfl, [va, vb, vc, vd], rfl, by simp [ha, hb, hc, hd], by simp⟩
      · cases h
    | [] | [_] | [_, _] | [_, _, _] =>
      simp only [readUnit] at h
      split at h <;> cases h
  · rintro ⟨w, rfl, digits, hlength, hw, rfl⟩
    have hchars : w.length = 4 := by simpa [hlength] using congrArg List.length hw
    match w, digits, hchars, hlength, hw with
    | [a, b, c, d], [va, vb, vc, vd], _, _, hw =>
      obtain ⟨ha, hb, hc, hd⟩ : hexValue? a = some va ∧ hexValue? b = some vb ∧
          hexValue? c = some vc ∧ hexValue? d = some vd := by simpa using hw
      simp [readUnit, ha, hb, hc, hd]

theorem code_of_read {s rest : List Char} {c : Char} (h : readCode s = .ok (c, rest)) :
    ∃ w, s = w ++ rest ∧ CharSpelling ('\\' :: 'u' :: w) c := by
  obtain ⟨⟨unit, t⟩, hunit, hcode⟩ := bind_eq_ok_iff.mp h
  obtain ⟨w, rfl, hw⟩ := readUnit_eq_ok_iff.mp hunit
  dsimp only at hcode
  split at hcode
  · cases hcode
  · split at hcode
    · rename_i hnot hhigh
      split at hcode
      · cases hcode
      · cases hcode
      · obtain ⟨⟨low, u⟩, hunit, hpair⟩ := bind_eq_ok_iff.mp hcode
        obtain ⟨v, rfl, hv⟩ := readUnit_eq_ok_iff.mp hunit
        dsimp only at hpair
        split at hpair
        · rename_i hlow
          obtain ⟨rfl, rfl⟩ := Prod.mk.inj (Except.ok.inj hpair)
          exact ⟨w ++ '\\' :: 'u' :: v, by simp, .pair hw hv hhigh hlow⟩
        · cases hpair
      · cases hcode
    · rename_i hlow hhigh
      cases hcode
      exact ⟨w, rfl, .code hw (by omega)⟩

theorem readCode_append {w : List Char} {c : Char} (h : CharSpelling ('\\' :: 'u' :: w) c)
    (rest : List Char) : readCode (w ++ rest) = .ok (c, rest) := by
  cases h with
  | short h => simp [shortEscapes] at h
  | @code _ unit hw hplane =>
    have hread : readUnit (w ++ rest) = .ok (unit, rest) := readUnit_eq_ok_iff.mpr ⟨w, rfl, hw⟩
    have hlow : ¬(0xDC00 ≤ unit ∧ unit < 0xE000) := by omega
    have hhigh : ¬(0xD800 ≤ unit ∧ unit < 0xDC00) := by omega
    refine bind_eq_ok_iff.mpr ⟨_, hread, ?_⟩
    dsimp only
    rw [if_neg hlow, if_neg hhigh]
  | @pair w v high low hw hv hhigh hlow =>
    have hread : readUnit (w ++ ('\\' :: 'u' :: (v ++ rest))) =
        .ok (high, '\\' :: 'u' :: (v ++ rest)) := readUnit_eq_ok_iff.mpr ⟨w, rfl, hw⟩
    have hnext : readUnit (v ++ rest) = .ok (low, rest) := readUnit_eq_ok_iff.mpr ⟨v, rfl, hv⟩
    have hnot : ¬(0xDC00 ≤ high ∧ high < 0xE000) := by omega
    rw [List.append_assoc]
    refine bind_eq_ok_iff.mpr ⟨_, hread, ?_⟩
    dsimp only
    rw [if_neg hnot, if_pos hhigh]
    refine bind_eq_ok_iff.mpr ⟨_, hnext, ?_⟩
    dsimp only
    rw [if_pos hlow]

theorem escape_of_read {s rest : List Char} {c : Char} (h : readEscape s = .ok (c, rest)) :
    ∃ w, s = w ++ rest ∧ CharSpelling ('\\' :: w) c := by
  unfold readEscape at h
  split at h
  · cases h
  · obtain ⟨w, rfl, hw⟩ := code_of_read h
    exact ⟨'u' :: w, rfl, hw⟩
  all_goals cases h
  all_goals exact ⟨[_], rfl, .short (by simp [shortEscapes])⟩

theorem readEscape_append {w : List Char} {c : Char} (h : CharSpelling ('\\' :: w) c)
    (rest : List Char) : readEscape (w ++ rest) = .ok (c, rest) := by
  cases h with
  | plain _ _ hescape => exact absurd rfl hescape
  | short h =>
    simp only [shortEscapes, List.mem_cons, Prod.mk.injEq, List.not_mem_nil, or_false] at h
    rcases h with ⟨rfl, rfl⟩ | ⟨rfl, rfl⟩ | ⟨rfl, rfl⟩ | ⟨rfl, rfl⟩ | ⟨rfl, rfl⟩ | ⟨rfl, rfl⟩ |
      ⟨rfl, rfl⟩ | ⟨rfl, rfl⟩ <;> rfl
  | code hw hplane => exact readCode_append (.code hw hplane) rest
  | pair hw hv hhigh hlow => exact readCode_append (.pair hw hv hhigh hlow) rest

theorem readChars_escape (r : Char) (rounds s : List Char) :
    readChars (r :: rounds) ('\\' :: s) = (do
      let (c, s) ← readEscape s
      let (rest, s) ← readChars rounds s
      .ok (c :: rest, s)) := rfl

theorem readChars_plain {c : Char} (hquote : c ≠ '"') (hescape : c ≠ '\\') (r : Char)
    (rounds s : List Char) :
    readChars (r :: rounds) (c :: s) = if c.toNat < 32 then .error .malformed else
      (readChars rounds s).map fun (rest, s) => (c :: rest, s) := by
  rw [readChars]
  · split
    · rfl
    · cases readChars rounds s <;> rfl
  · exact hquote
  · exact hescape

theorem chars_of_read {rounds s cs rest : List Char} (h : readChars rounds s = .ok (cs, rest)) :
    ∃ body, s = body ++ '"' :: rest ∧ CharsSpelling body cs := by
  induction rounds generalizing s cs with
  | nil => cases h
  | cons r rounds ih =>
    match s with
    | [] => cases h
    | c :: s =>
      by_cases hquote : c = '"'
      · subst hquote
        cases h
        exact ⟨[], rfl, .nil⟩
      by_cases hescape : c = '\\'
      · subst hescape
        rw [readChars_escape] at h
        obtain ⟨⟨d, t⟩, hd, htail⟩ := bind_eq_ok_iff.mp h
        obtain ⟨⟨tail, u⟩, hread, hcons⟩ := bind_eq_ok_iff.mp htail
        cases hcons
        obtain ⟨w, rfl, hw⟩ := escape_of_read hd
        obtain ⟨body, rfl, hbody⟩ := ih hread
        exact ⟨'\\' :: w ++ body, by simp, .cons hw hbody⟩
      · rw [readChars_plain hquote hescape] at h
        split at h
        · cases h
        · rename_i hcontrol
          obtain ⟨⟨tail, u⟩, hread, hcons⟩ := map_eq_ok_iff.mp h
          cases hcons
          obtain ⟨body, rfl, hbody⟩ := ih hread
          exact ⟨[c] ++ body, rfl, .cons (.plain (Nat.le_of_not_lt hcontrol) hquote hescape) hbody⟩

theorem CharSpelling.plain_or_escape {w : List Char} {c : Char} (h : CharSpelling w c) :
    (w = [c] ∧ 32 ≤ c.toNat ∧ c ≠ '"' ∧ c ≠ '\\') ∨ ∃ v, w = '\\' :: v := by
  cases h with
  | plain hcontrol hquote hescape => exact Or.inl ⟨rfl, hcontrol, hquote, hescape⟩
  | short h => exact Or.inr ⟨_, rfl⟩
  | code hw h => exact Or.inr ⟨_, rfl⟩
  | pair hw hv hhigh hlow => exact Or.inr ⟨_, rfl⟩

/-- The way a character is written makes no difference to what is read after it. -/
theorem readChars_spelling {w : List Char} {c : Char} (h : CharSpelling w c) (r : Char)
    (rounds s : List Char) : readChars (r :: rounds) (w ++ s) =
      (readChars rounds s).map fun (rest, s) => (c :: rest, s) := by
  rcases h.plain_or_escape with ⟨rfl, hcontrol, hquote, hescape⟩ | ⟨v, rfl⟩
  · rw [List.singleton_append, readChars_plain hquote hescape, if_neg (Nat.not_lt.mpr hcontrol)]
  · rw [List.cons_append, readChars_escape, bind_of_ok (readEscape_append h s)]
    dsimp only
    cases readChars rounds s <;> rfl

theorem CharSpelling.length_pos {w : List Char} {c : Char} (h : CharSpelling w c) :
    0 < w.length := by
  cases h <;> exact Nat.succ_pos _

theorem readChars_append {rounds body cs : List Char} (h : CharsSpelling body cs)
    (hrounds : body.length < rounds.length) (rest : List Char) :
    readChars rounds (body ++ '"' :: rest) = .ok (cs, rest) := by
  induction h generalizing rounds with
  | nil =>
    cases rounds with
    | nil => cases hrounds
    | cons r rounds => rfl
  | @cons w s cs c hc h ih =>
    cases rounds with
    | nil => cases hrounds
    | cons r rounds =>
      have hpos := hc.length_pos
      rw [List.length_append, List.length_cons] at hrounds
      rw [List.append_assoc, readChars_spelling hc, ih (by omega)]
      rfl

/-- A string is read up to the quote that ends it, and no further. -/
theorem readString_eq_ok_iff {s rest : List Char} {text : String} :
    readString s = .ok (text, rest) ↔
      ∃ body cs, s = body ++ '"' :: rest ∧ CharsSpelling body cs ∧ text = String.ofList cs := by
  constructor
  · intro h
    obtain ⟨⟨cs, t⟩, hread, htext⟩ := bind_eq_ok_iff.mp h
    cases htext
    obtain ⟨body, rfl, hbody⟩ := chars_of_read hread
    exact ⟨body, cs, rfl, hbody, rfl⟩
  · rintro ⟨body, cs, rfl, hbody, rfl⟩
    have hread : readChars (body ++ '"' :: rest) (body ++ '"' :: rest) = .ok (cs, rest) :=
      readChars_append hbody (by simp) rest
    exact bind_eq_ok_iff.mpr ⟨_, hread, rfl⟩

end Json

end AudioFraming
