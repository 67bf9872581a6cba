import AudioFraming.Proofs.Json.Places

/-!
# Texts that are cut off

A reader of a value that is given a beginning of it comes to the end of the text: it
stops there, short of something, or it has read a numeral or a value that could go on
(`Exhausts`). It never finds fault with a character before the end. The one fault that a
cut can make is a numeral that is too large without the characters behind the cut
(`Stopped`).

Arrays and objects are left only at their closing character, and so a reader of one that
is cut off always stops.
-/

namespace AudioFraming

namespace Json

variable {α β γ : Type}

/-! ## Outcomes at the end of a text -/

/-- The reader has stopped at the end of the text, short of something, or with a numeral whose
double is infinite. -/
inductive Stopped (q : List Char) : Except Fault α → Prop
  | short (h : ¬EndsInfinite q) : Stopped q (.error .truncated)
  | infinite (h : EndsInfinite q) : Stopped q (.error .malformed)

/-- The reader has stopped at the end of the text, or has come there but for blanks. -/
inductive Exhausts (q : List Char) : Except Fault (α × List Char) → Prop
  | stopped {o : Except Fault (α × List Char)} (h : Stopped q o) : Exhausts q o
  | read {a : α} {rest : List Char} (hrest : Blank rest) (h : ¬EndsInfinite q) :
      Exhausts q (.ok (a, rest))

section outcomes

variable {q s : List Char}

theorem Stopped.bind {o : Except Fault α} (h : Stopped q o) (f : α → Except Fault β) :
    Stopped q (o >>= f) := by
  cases h with
  | short h => exact .short h
  | infinite h => exact .infinite h

theorem Stopped.map {o : Except Fault α} (h : Stopped q o) (f : α → β) : Stopped q (o.map f) := by
  cases h with
  | short h => exact .short h
  | infinite h => exact .infinite h

theorem Stopped.prepend {o : Except Fault α} (h : Stopped q o) (hs : place s = .plain []) :
    Stopped (s ++ q) o := by
  cases h with
  | short h => exact .short ((endsInfinite_append_iff hs).not.mpr h)
  | infinite h => exact .infinite ((endsInfinite_append_iff hs).mpr h)

theorem Stopped.of_blank (h : Blank q) : Stopped q (.error .truncated : Except Fault α) :=
  .short (settled_of_place (place_of_blank h)).2

theorem Exhausts.map {o : Except Fault (α × List Char)} (h : Exhausts q o) (f : α → β) :
    Exhausts q (o.map fun (a, s) => (f a, s)) := by
  cases h with
  | stopped h => exact .stopped (h.map _)
  | read hrest h => exact .read hrest h

theorem Exhausts.prepend {o : Except Fault (α × List Char)} (h : Exhausts q o)
    (hs : place s = .plain []) : Exhausts (s ++ q) o := by
  cases h with
  | stopped h => exact .stopped (h.prepend hs)
  | read hrest h => exact .read hrest ((endsInfinite_append_iff hs).not.mpr h)

end outcomes

/-! ## Strings and words -/

theorem utf8Size_of_hexValue? {c : Char} {n : Nat} (h : hexValue? c = some n) :
    c.utf8Size = 1 := by
  have hval : c.val ≤ 'f'.val := by
    unfold hexValue? at h
    split_ifs at h with hdigit hsmall hcapital
    · exact UInt32.le_trans hdigit.2 (by decide)
    · exact hsmall.2
    · exact UInt32.le_trans hcapital.2 (by decide)
  unfold Char.utf8Size
  exact if_pos (UInt32.le_trans hval (by decide))

theorem readUnit_cut {w r : List Char} {unit : Nat} (hw : IsUnit w unit) (hr : r <+: w)
    (hcut : r ≠ w) : readUnit r = .error .truncated := by
  obtain ⟨digits, hlength, hw, -⟩ := hw
  have hsize : ∀ c ∈ r, c.utf8Size = 1 := by
    intro c hc
    have hmem : hexValue? c ∈ digits.map some := hw ▸ List.mem_map_of_mem (hr.subset hc)
    obtain ⟨digit, -, hdigit⟩ := List.mem_map.mp hmem
    exact utf8Size_of_hexValue? hdigit.symm
  have hshort : r.length < 4 := by
    have hchars : w.length = 4 := by simpa [hlength] using congrArg List.length hw
    by_contra hlong
    exact hcut (hr.eq_of_length_le (by omega))
  match r, hshort with
  | [], _ => rfl
  | [a], _ => simp [readUnit, hsize a]
  | [a, b], _ => simp [readUnit, hsize a, hsize b]
  | [a, b, c], _ => simp [readUnit, hsize a, hsize b, hsize c]

theorem readCode_cut {w r : List Char} {c : Char} (h : CharSpelling ('\\' :: 'u' :: w) c)
    (hr : r <+: w) (hcut : r ≠ w) : readCode r = .error .truncated := by
  cases h with
  | short h => simp [shortEscapes] at h
  | code hw hplane => rw [readCode, readUnit_cut hw hr hcut]; rfl
  | @pair w v high low hw hv hhigh hlow =>
    have hnot : ¬(0xDC00 ≤ high ∧ high < 0xE000) := by omega
    have hread (t : List Char) : readUnit (w ++ t) = .ok (high, t) :=
      readUnit_eq_ok_iff.mpr ⟨w, rfl, hw⟩
    have hhalf {t : List Char} (ht : t <+: '\\' :: 'u' :: v) (hne : t ≠ '\\' :: 'u' :: v) :
        readCode (w ++ t) = .error .truncated := by
      rw [readCode, bind_of_ok (hread t)]
      dsimp only
      rw [if_neg hnot, if_pos hhigh]
      rcases List.prefix_cons_iff.mp ht with rfl | ⟨x, rfl, hx⟩
      · rfl
      rcases List.prefix_cons_iff.mp hx with rfl | ⟨y, rfl, hy⟩
      · rfl
      have hyv : y ≠ v := by
        rintro rfl
        exact hne rfl
      change (readUnit y >>= _) = _
      rw [readUnit_cut hv hy hyv]
      rfl
    rcases beginning_append hr with hrw | ⟨t, rfl, ht⟩
    · by_cases hwhole : r = w
      · have hnil := hhalf List.nil_prefix (List.cons_ne_nil _ _).symm
        rwa [hwhole, ← List.append_nil w]
      · rw [readCode, readUnit_cut hw hrw hwhole]
        rfl
    · refine hhalf ht ?_
      rintro rfl
      exact hcut rfl

theorem readEscape_cut {v r : List Char} {c : Char} (h : CharSpelling ('\\' :: v) c)
    (hr : r <+: v) (hcut : r ≠ v) : readEscape r = .error .truncated := by
  have hcode {w : List Char} (hw : CharSpelling ('\\' :: 'u' :: w) c) (hr : r <+: 'u' :: w)
      (hcut : r ≠ 'u' :: w) : readEscape r = .error .truncated := by
    rcases List.prefix_cons_iff.mp hr with rfl | ⟨t, rfl, ht⟩
    · rfl
    · exact readCode_cut hw ht fun hwhole => hcut (congrArg _ hwhole)
  cases h with
  | plain _ _ hescape => exact absurd rfl hescape
  | short h =>
    rcases List.prefix_cons_iff.mp hr with rfl | ⟨t, rfl, ht⟩
    · rfl
    · rw [List.prefix_nil.mp ht] at hcut
      exact absurd rfl hcut
  | code hw hplane => exact hcode (.code hw hplane) hr hcut
  | pair hw hv hhigh hlow => exact hcode (.pair hw hv hhigh hlow) hr hcut

theorem readChars_cut {body cs r : List Char} (h : CharsSpelling body cs) (hr : r <+: body)
    (rounds : List Char) : readChars rounds r = .error .truncated := by
  induction h generalizing r rounds with
  | nil =>
    rw [List.prefix_nil.mp hr]
    cases rounds <;> rfl
  | @cons w s cs c hc h ih =>
    cases rounds with
    | nil => rfl
    | cons x rounds =>
      rcases beginning_append hr with hrw | ⟨t, rfl, ht⟩
      · by_cases hwhole : r = w
        · rw [hwhole, ← List.append_nil w, readChars_spelling hc, ih List.nil_prefix]
          rfl
        rcases hc.plain_or_escape with ⟨rfl, -⟩ | ⟨v, rfl⟩
        · have hnil : r = [] :=
            (List.prefix_concat_iff.mp hrw).elim (absurd · hwhole) List.prefix_nil.mp
          rw [hnil]
          rfl
        · rcases List.prefix_cons_iff.mp hrw with rfl | ⟨u, rfl, hu⟩
          · rfl
          · rw [readChars_escape, readEscape_cut hc hu fun huv => hwhole (congrArg _ huv)]
            rfl
      · rw [readChars_spelling hc, ih ht]
        rfl

theorem readString_cut {body cs r : List Char} (h : CharsSpelling body cs) (hr : r <+: body) :
    readString r = .error .truncated := by
  rw [readString, readChars_cut h hr]
  rfl

theorem readWord_cut {word r : List Char} (hr : r <+: word) (hcut : r ≠ word) :
    readWord word r = .error .truncated := by
  induction word generalizing r with
  | nil => exact absurd (List.prefix_nil.mp hr) hcut
  | cons c word ih =>
    rcases List.prefix_cons_iff.mp hr with rfl | ⟨t, rfl, ht⟩
    · rfl
    · rw [readWord, if_pos rfl]
      exact ih ht fun hwhole => hcut (congrArg _ hwhole)

/-! ## Numerals -/

theorem fraction_cut {fraction r : List Char} (hdigits : AllDigits fraction)
    (hr : r <+: fractionText fraction) :
    (∃ places, AllDigits places ∧ r = fractionText places) ∨ r = ['.'] := by
  unfold fractionText at hr
  split at hr
  · exact Or.inl ⟨[], nofun, List.prefix_nil.mp hr⟩
  · rcases List.prefix_cons_iff.mp hr with rfl | ⟨t, rfl, ht⟩
    · exact Or.inl ⟨[], nofun, rfl⟩
    · by_cases hnil : t = []
      · exact Or.inr (by rw [hnil])
      · exact Or.inl ⟨t, hdigits.beginning ht, (if_neg hnil).symm⟩

theorem sign_cut {sign : ExponentSign} {r : List Char} (hr : r <+: signText sign) :
    ∃ sign, r = signText sign := by
  by_cases hwhole : r = signText sign
  · exact ⟨sign, hwhole⟩
  · have hnil : r = [] := by
      cases sign with
      | absent => exact List.prefix_nil.mp hr
      | plus => exact List.prefix_nil.mp ((List.prefix_concat_iff.mp hr).resolve_left hwhole)
      | minus => exact List.prefix_nil.mp ((List.prefix_concat_iff.mp hr).resolve_left hwhole)
    exact ⟨.absent, hnil⟩

/-- An exponent is short of its digits. -/
theorem readExponent_sign (capital : Bool) (sign : ExponentSign) :
    readExponent ((if capital then 'E' else 'e') :: signText sign) = .error .truncated := by
  cases capital <;> cases sign <;> rfl

theorem exponent_cut {exponent : Option Exponent} {r : List Char}
    (hdigits : ∀ e ∈ exponent, e.digits ≠ [] ∧ AllDigits e.digits)
    (hr : r <+: exponentText exponent) :
    (∃ power : Option Exponent, (∀ e ∈ power, e.digits ≠ [] ∧ AllDigits e.digits) ∧
      r = exponentText power) ∨ readExponent r = .error .truncated := by
  cases exponent with
  | none => exact Or.inl ⟨none, nofun, List.prefix_nil.mp hr⟩
  | some e =>
    rw [exponentText, Option.elim_some, exponent_text_eq] at hr
    rcases List.prefix_cons_iff.mp hr with rfl | ⟨t, rfl, ht⟩
    · exact Or.inl ⟨none, nofun, rfl⟩
    rcases beginning_append ht with hsign | ⟨digits, rfl, hall⟩
    · obtain ⟨sign, rfl⟩ := sign_cut hsign
      exact Or.inr (readExponent_sign _ _)
    by_cases hnil : digits = []
    · rw [hnil, List.append_nil]
      exact Or.inr (readExponent_sign _ _)
    · refine Or.inl ⟨some ⟨e.capital, e.sign, digits⟩, ?_, ?_⟩
      · rintro _ ⟨rfl⟩
        exact ⟨hnil, (hdigits e rfl).2.beginning hall⟩
      · rw [exponentText, Option.elim_some, exponent_text_eq]

/-- A numeral, or too short for one. -/
def NumeralSoFar (q : List Char) : Prop :=
  (∃ n : Numeral, n.WellFormed ∧ q = n.text) ∨ readNumeral q = .error .truncated

section numeral

variable {n : Numeral} {q : List Char}

theorem numeralSoFar_minus {negative : Bool} (hq : q <+: minusText negative) (hne : q ≠ []) :
    NumeralSoFar q := by
  cases negative with
  | false => exact absurd (List.prefix_nil.mp hq) hne
  | true =>
    rw [(List.prefix_concat_iff.mp hq).resolve_right (hne ∘ List.prefix_nil.mp)]
    exact Or.inr rfl

/-- A whole part that begins with a zero has no other beginnings. -/
theorem eq_zero_of_beginning (h : n.WellFormed) (hq : q <+: n.whole)
    (hzero : q.head? = some '0') : q = ['0'] := by
  obtain ⟨t, rfl⟩ := List.head?_eq_some_iff.mp hzero
  have hhead : n.whole.head? = some '0' := by
    obtain ⟨u, hu⟩ := hq
    rw [← hu]
    rfl
  rw [h.whole_eq_zero hhead] at hq
  rw [List.prefix_nil.mp (List.cons_prefix_cons.mp hq).2]

theorem numeralSoFar_whole (h : n.WellFormed) (hq : q <+: n.whole) (hne : q ≠ []) :
    NumeralSoFar (minusText n.negative ++ q) := by
  refine Or.inl ⟨{ negative := n.negative, whole := q }, ?_, ?_⟩
  · exact ⟨hne, h.whole_digits.beginning hq, eq_zero_of_beginning h hq, nofun, nofun⟩
  · simp [numeral_text_eq, fractionText, exponentText]

theorem numeralSoFar_fraction (h : n.WellFormed) (hq : q <+: fractionText n.fraction) :
    NumeralSoFar (minusText n.negative ++ (n.whole ++ q)) := by
  rcases fraction_cut h.fraction_digits hq with ⟨places, hplaces, rfl⟩ | rfl
  · refine Or.inl ⟨{ n with fraction := places, exponent := none }, ?_, ?_⟩
    · exact ⟨h.whole_ne_nil, h.whole_digits, h.whole_eq_zero, hplaces, nofun⟩
    · simp [numeral_text_eq, exponentText]
  · have hends : EndsDigits ['.'] := by simp [EndsDigits]
    exact Or.inr (readNumeral_whole h hends)

theorem numeralSoFar_exponent (h : n.WellFormed) (hq : q <+: exponentText n.exponent) :
    NumeralSoFar (minusText n.negative ++ (n.whole ++ (fractionText n.fraction ++ q))) := by
  rcases exponent_cut h.exponent_digits hq with ⟨power, hpower, rfl⟩ | hshort
  · refine Or.inl ⟨{ n with exponent := power }, ?_, ?_⟩
    · exact ⟨h.whole_ne_nil, h.whole_digits, h.whole_eq_zero, h.fraction_digits, hpower⟩
    · rw [numeral_text_eq]
  · have hhead : ∀ c ∈ q.head?, c = 'e' ∨ c = 'E' := by
      intro c hc
      obtain ⟨v, hv⟩ := hq
      have hmem : c ∈ (exponentText n.exponent ++ []).head? := by
        rw [List.append_nil, ← hv, List.head?_append, Option.mem_def.mp hc]
        rfl
      simpa using exponentText_append_head _ _ c hmem
    have hends : EndsDigits q := fun c hc => by rcases hhead c hc with rfl | rfl <;> rfl
    have hpoint : q.head? ≠ some '.' := fun hc => by simpa using hhead _ hc
    refine Or.inr ?_
    rw [readNumeral_fraction h hends hpoint, hshort]
    rfl

/-- The cut falls into one of the four parts of a numeral. -/
theorem numeralSoFar_beginning (h : n.WellFormed) (hq : q <+: n.text) (hne : q ≠ []) :
    NumeralSoFar q := by
  rw [numeral_text_eq] at hq
  rcases beginning_append hq with hminus | ⟨r, rfl, hr⟩
  · exact numeralSoFar_minus hminus hne
  rcases beginning_append hr with hwhole | ⟨t, rfl, ht⟩
  · by_cases hnil : r = []
    · rw [hnil, List.append_nil] at hne ⊢
      exact numeralSoFar_minus List.prefix_rfl hne
    · exact numeralSoFar_whole h hwhole hnil
  rcases beginning_append ht with hplaces | ⟨u, rfl, hu⟩
  · exact numeralSoFar_fraction h hplaces
  · exact numeralSoFar_exponent h hu

theorem exhausts_readNumeral (h : n.WellFormed) (hq : q <+: n.text) (hne : q ≠ []) :
    Exhausts q (readNumeral q) := by
  rcases numeralSoFar_beginning h hq hne with ⟨m, hm, rfl⟩ | hshort
  · rw [readNumeral_self hm, takeNumeral]
    split
    · rename_i hfinite
      refine .read Blank.nil fun hinfinite => ?_
      rw [(endsInfinite_numeral_iff hm).mp hinfinite] at hfinite
      cases hfinite
    · rename_i hinfinite
      exact .stopped (.infinite ((endsInfinite_numeral_iff hm).mpr (by simpa using hinfinite)))
  · rw [hshort]
    refine .stopped (.short ?_)
    rintro ⟨m, hm, -, hplace⟩
    rw [place_of_token (h.isToken.beginning hq)] at hplace
    rw [Place.plain.inj hplace, readNumeral_self hm, takeNumeral] at hshort
    split at hshort <;> cases hshort

end numeral

/-! ## Folds -/

/-- On a beginning of a part that it would decode, the reader comes to the end of the text. -/
structure Exhausting (part : List Char → α → Prop) (decode : α → Except Fault γ)
    (reader : Reader γ) : Prop where
  exhausts : ∀ {w a q g}, part w a → decode a = .ok g → q <+: w → Exhausts q (reader q)

/-- A step that takes parts comes to the end of a text that is cut off within a part. -/
structure TakesCut (part : List Char → α → Prop) (next : β → α → Except Fault β)
    (step : β → Reader β) : Prop extends Takes part next step where
  exhausting : ∀ acc, Exhausting part (next acc) (step acc)
  settled : ∀ w a, part w a → Settled w
  blank : ∀ acc s, Blank s → step acc s = .error .truncated

section fold

variable {part : List Char → α → Prop} {next : β → α → Except Fault β} {step : β → Reader β}
  {close : Char} {w q rounds : List Char} {acc acc' : β}

theorem stopped_foldUntil_part (h : TakesCut part next step) {a : α} (hpart : part w a)
    (ha : next acc a = .ok acc') (hq : q <+: w) (hrounds : q.length ≤ rounds.length) :
    Stopped q (foldUntil close step rounds acc q) := by
  cases rounds with
  | nil =>
    obtain rfl : q = [] := List.length_eq_zero_iff.mp (Nat.le_zero.mp hrounds)
    exact .of_blank Blank.nil
  | cons r rounds =>
    have hstep : Exhausts q (step acc q) := (h.exhausting acc).exhausts hpart ha hq
    unfold foldUntil
    generalize step acc q = o at hstep ⊢
    cases hstep with
    | stopped hstop => exact hstop.bind _
    | read hrest hfinite =>
      simp only [bind, Except.bind, skipBlanks_eq_nil hrest]
      exact .short hfinite

/-- The parts before the cut are taken in full. -/
theorem stopped_foldUntil (h : TakesCut part next step) {as : List α}
    (hparts : Separated part w as) (has : as.foldlM next acc = .ok acc') (hq : q <+: w)
    (hrounds : q.length ≤ rounds.length) : Stopped q (foldUntil close step rounds acc q) := by
  induction hparts generalizing q rounds acc with
  | last hpart =>
    obtain ⟨acc₁, ha, -⟩ := bind_eq_ok_iff.mp has
    exact stopped_foldUntil_part h hpart ha hq hrounds
  | @more w t a as hpart hrest ih =>
    obtain ⟨acc₁, ha, has⟩ := bind_eq_ok_iff.mp has
    rcases beginning_append_cons hq with hqw | ⟨r, rfl, hr⟩
    · exact stopped_foldUntil_part h hpart ha hqw hrounds
    · rw [List.length_append, List.length_cons] at hrounds
      cases rounds with
      | nil => cases hrounds
      | cons x rounds =>
        rw [List.length_cons] at hrounds
        have hstop : Stopped r (foldUntil close step rounds acc₁ r) := ih has hr (by omega)
        rw [foldUntil_cons h.toTakes hpart (Or.inl rfl), ha, List.append_cons]
        exact hstop.prepend ((h.settled _ _ hpart).place_append_mark rfl)

theorem stopped_foldUntil_parts (h : TakesCut part next step) {as : List α}
    (hparts : PartsSpelling part w as) (has : as.foldlM next acc = .ok acc') (hq : q <+: w) :
    Stopped q (foldUntil close step q acc q) := by
  cases hparts with
  | some hw => exact stopped_foldUntil h hw has hq le_rfl
  | none hw =>
    have hblank : Blank q := hw.beginning hq
    cases q with
    | nil => exact .of_blank hblank
    | cons c q =>
      rw [foldUntil, h.blank acc _ hblank]
      exact .of_blank hblank

/-- The closing character is not seen before the end. -/
theorem head?_ne_of_beginning (hopens : ∀ w a, part w a → Opens w)
    (hclose : close = ']' ∨ close = '}') {as : List α} (h : PartsSpelling part w as)
    (hq : q <+: w) : (skipBlanks q).head? ≠ some close := by
  have hnil {s : List Char} (hs : Blank s) : (skipBlanks s).head? ≠ some close := by
    rw [skipBlanks_eq_nil hs]
    exact nofun
  cases h with
  | none hw => exact hnil (hw.beginning hq)
  | some hw =>
    obtain ⟨before, s, hbefore, rfl, hs⟩ := hw.opens hopens
    rcases beginning_append hq with hqb | ⟨r, rfl, hr⟩
    · exact hnil (hbefore.beginning hqb)
    · obtain ⟨c, t, rfl, hstarts⟩ := hs
      rcases List.prefix_cons_iff.mp hr with rfl | ⟨u, rfl, -⟩
      · rw [List.append_nil]
        exact hnil hbefore
      · exact Opens.head?_ne ⟨before, c :: u, hbefore, rfl, c, u, rfl, hstarts⟩ hclose

end fold

/-! ## Values -/

section values

variable {inner : List Char → Json → Prop} {decode : Json → Except Fault γ} {reader : Reader γ}

/-- A reader that refuses all values has none that it would decode. -/
theorem exhausting_refuse {part : List Char → α → Prop} (fault : Fault) (reader : Reader γ) :
    Exhausting part (fun _ => .error fault) reader :=
  ⟨nofun⟩

theorem Exhausting.map {part : List Char → α → Prop} {decode : α → Except Fault γ}
    (h : Exhausting part decode reader) (f : γ → β) :
    Exhausting part (fun a => (decode a).map f)
      fun s => reader s >>= fun (g, s) => .ok (f g, s) where
  exhausts := by
    intro w a q b hpart hb hq
    obtain ⟨g, hg, -⟩ := map_eq_ok_iff.mp hb
    have hread := (h.exhausts hpart hg hq).map f
    cases hreader : reader q <;> rw [hreader] at hread <;> exact hread

/-- A decoder that skips blanks comes to the end if it does so within a value. -/
theorem Decodes.exhausting (h : Decodes inner decode reader)
    (hsettled : ∀ s v, inner s v → Settled s)
    (hskip : ∀ {before s}, Blank before → reader (before ++ s) = reader s)
    (hnil : reader [] = .error .truncated)
    (hcut : ∀ {body v r g}, inner body v → decode v = .ok g → r <+: body → r ≠ [] → r ≠ body →
      Exhausts r (reader r)) : Exhausting (Padded inner) decode reader where
  exhausts := by
    intro w v q g hw hg hq
    obtain @⟨before, body, after, _, hbefore, hv, hafter⟩ := hw
    have hblank {s : List Char} (hs : Blank s) : Exhausts s (reader s) := by
      have hread : reader s = .error .truncated := by
        rw [← hnil, ← hskip (s := []) hs, List.append_nil]
      exact hread ▸ .stopped (.of_blank hs)
    have hwhole {r : List Char} (hr : r <+: after) :
        Exhausts (before ++ (body ++ r)) (reader (before ++ (body ++ r))) := by
      have hrest : Blank r := hafter.beginning hr
      rw [h.complete hbefore hv (ends_of_blank hrest), hg]
      exact .read hrest (Padded.settled hsettled (.mk hbefore hv hrest)).2
    rcases beginning_append hq with hqb | ⟨t, rfl, ht⟩
    · exact hblank (hbefore.beginning hqb)
    rcases beginning_append ht with htb | ⟨r, rfl, hr⟩
    · by_cases htnil : t = []
      · rw [htnil, List.append_nil]
        exact hblank hbefore
      by_cases htwhole : t = body
      · simpa [htwhole] using hwhole List.nil_prefix
      · rw [hskip hbefore]
        exact (hcut hv hg htb htnil htwhole).prepend (place_of_blank hbefore)
    · exact hwhole hr

/-- The colon of a member and its value, with blanks around each. -/
inductive AfterKey (inner : List Char → Json → Prop) : List Char → Json → Prop
  | mk {before s : List Char} {v : Json} (hbefore : Blank before) (hv : Padded inner s v) :
      AfterKey inner (before ++ ':' :: s) v

theorem Exhausting.colon (h : Exhausting (Padded inner) decode reader) :
    Exhausting (AfterKey inner) decode fun s => readColon s >>= reader where
  exhausts := by
    intro w v q g hw hg hq
    obtain @⟨before, s, _, hbefore, hv⟩ := hw
    rcases beginning_append_cons hq with hqb | ⟨r, rfl, hr⟩
    · have hblank : Blank q := hbefore.beginning hqb
      have hcolon : readColon q = .error .truncated := by
        rw [readColon, skipBlanks_eq_nil hblank]
      rw [hcolon]
      exact .stopped (.of_blank hblank)
    · have hcolon : readColon (before ++ ':' :: r) = .ok r := by
        rw [readColon_eq_ok_iff, skipBlanks_append hbefore]
        rfl
      rw [hcolon, List.append_cons]
      refine (h.exhausts hv hg hr).prepend ?_
      exact (settled_of_place (place_of_blank hbefore)).place_append_mark rfl

theorem exhausting_memberStep {next : β → String × Json → Except Fault β}
    {step : β → String → Reader β} {acc : β}
    (h : ∀ key, Exhausting (AfterKey inner) (fun v => next acc (key, v)) (step acc key)) :
    Exhausting (MemberSpelling inner) (next acc) (memberStep step acc) where
  exhausts := by
    intro w m q g hm hg hq
    obtain @⟨before, key, middle, s, cs, v, hbefore, hkey, hmiddle, hv⟩ := hm
    rcases beginning_append_cons hq with hqb | ⟨r, rfl, hr⟩
    · have hblank : Blank q := hbefore.beginning hqb
      rw [memberStep, skipBlanks_eq_nil hblank]
      exact .stopped (.of_blank hblank)
    have hquote : skipBlanks (before ++ '"' :: r) = '"' :: r := by
      rw [skipBlanks_append hbefore]
      rfl
    rw [memberStep_of_quote step acc hquote]
    rcases beginning_append_cons hr with hrk | ⟨t, rfl, ht⟩
    · rw [readString_cut hkey hrk]
      have hstop : Stopped ('"' :: r) (.error .truncated : Except Fault (β × List Char)) :=
        .short (hkey.not_endsInfinite hrk)
      exact .stopped (hstop.prepend (place_of_blank hbefore))
    · rw [readString_eq_ok_iff.mpr ⟨key, cs, rfl, hkey, rfl⟩]
      have hplace : place (before ++ '"' :: (key ++ ['"'])) = .plain [] :=
        (place_append_of_plain (place_of_blank hbefore) _).trans hkey.place_string
      have hread := ((h _).exhausts (.mk hmiddle hv) hg ht).prepend hplace
      change Exhausts _ (step acc (String.ofList cs) t)
      simpa using hread

theorem takesCut_member {depth : Nat} {next : β → String × Json → Except Fault β}
    {step : β → String → Reader β}
    (htakes : Takes (MemberSpelling (Spells depth)) next (memberStep step))
    (h : ∀ acc key,
      Exhausting (AfterKey (Spells depth)) (fun v => next acc (key, v)) (step acc key)) :
    TakesCut (MemberSpelling (Spells depth)) next (memberStep step) where
  toTakes := htakes
  exhausting acc := exhausting_memberStep (h acc)
  settled _ _ := MemberSpelling.settled fun _ _ => Spells.settled
  blank acc s hs := by rw [memberStep, skipBlanks_eq_nil hs]

theorem stopped_readParts {part : List Char → α → Prop} {step : List α → Reader (List α)}
    {close : Char} (h : TakesCut part (fun found a => .ok (a :: found)) step)
    (hopens : ∀ w a, part w a → Opens w) (hclose : close = ']' ∨ close = '}')
    {w q : List Char} {as : List α} (hw : PartsSpelling part w as) (hq : q <+: w) :
    Stopped q (readParts close step q) := by
  unfold readParts
  rw [if_neg (head?_ne_of_beginning hopens hclose hw hq)]
  exact (stopped_foldUntil_parts h hw (foldlM_gather as []) hq).map _

/-- A string that is cut off is no value yet, and a numeral may be one. -/
theorem exhausts_scalar {body r : List Char} {v : Json} (h : ScalarSpelling body v)
    (item : Option (Reader Json)) (hr : r <+: body) (hne : r ≠ []) (hcut : r ≠ body) :
    Exhausts r (readFlat item r) := by
  have hword {c : Char} {word : List Char} {w : Json}
      (hread : ∀ s, readFlat item (c :: s) = (readWord word s).map fun r => (w, r.2))
      (htoken : IsToken (c :: word)) (hhead : c ≠ '-' ∧ ¬c.isDigit) (hr : r <+: c :: word)
      (hcut : r ≠ c :: word) : Exhausts r (readFlat item r) := by
    rcases List.prefix_cons_iff.mp hr with rfl | ⟨t, rfl, ht⟩
    · exact absurd rfl hne
    · rw [hread, readWord_cut ht fun hwhole => hcut (congrArg _ hwhole)]
      refine .stopped (.short ?_)
      exact not_endsInfinite_of_head (place_of_token (htoken.beginning hr)) (by simpa using hhead)
  cases h with
  | null => exact hword (fun _ => rfl) (by decide) (by decide) hr hcut
  | true => exact hword (fun _ => rfl) (by decide) (by decide) hr hcut
  | false => exact hword (fun _ => rfl) (by decide) (by decide) hr hcut
  | string hcs =>
    obtain ⟨t, rfl, ht⟩ := beginning_enclosed hr hne hcut
    change Exhausts _ ((readString t).map _)
    rw [readString_cut hcs ht]
    exact .stopped (.short (hcs.not_endsInfinite ht))
  | number hwell hfinite =>
    obtain ⟨c, t, htext, hc⟩ := hwell.text_eq_cons
    obtain ⟨u, rfl⟩ : ∃ u, r = c :: u := by
      rcases List.prefix_cons_iff.mp (htext ▸ hr) with rfl | ⟨u, rfl, -⟩
      · exact absurd rfl hne
      · exact ⟨u, rfl⟩
    rw [readFlat_numeral hc]
    exact (exhausts_readNumeral hwell hr hne).map _

end values

section compounds

variable {depth : Nat} {item : Reader Json}

theorem takesCut_item (h : Decodes (Spells depth) .ok item)
    (hcut : Exhausting (Padded (Spells depth)) .ok item)
    (hblank : ∀ s, Blank s → item s = .error .truncated) :
    TakesCut (Padded (Spells depth)) (fun found v => .ok (v :: found)) (fun found s => do
      let (v, s) ← item s
      .ok (v :: found, s)) where
  toTakes := takes_item h
  exhausting found := hcut.map (· :: found)
  settled _ _ := Padded.settled fun _ _ => Spells.settled
  blank found s hs := by rw [hblank s hs]; rfl

theorem stopped_compound (h : Decodes (Spells depth) .ok item)
    (hcut : Exhausting (Padded (Spells depth)) .ok item)
    (hblank : ∀ s, Blank s → item s = .error .truncated) {body r : List Char} {v : Json}
    (hv : CompoundSpelling (Spells depth) body v) (hr : r <+: body) (hne : r ≠ [])
    (hrbody : r ≠ body) : Stopped r (readFlat (some item) r) := by
  cases hv with
  | array hitems =>
    obtain ⟨t, rfl, ht⟩ := beginning_enclosed hr hne hrbody
    change Stopped _ ((readItems item t).map _)
    rw [readItems_eq_readParts]
    have hstop := stopped_readParts (takesCut_item h hcut hblank)
      (fun _ _ h => h.opens fun _ _ => Spells.starts) (Or.inl rfl) hitems ht
    exact (hstop.map _).prepend (s := ['[']) rfl
  | object hmembers =>
    obtain ⟨t, rfl, ht⟩ := beginning_enclosed hr hne hrbody
    change Stopped _ ((readMembers item t).map _)
    rw [readMembers_eq_readParts]
    have htakes := takesCut_member (takes_member h) fun found key =>
      (hcut.map fun v => (key, v) :: found).colon
    have hstop := stopped_readParts htakes (fun _ _ h => h.opens) (Or.inr rfl) hmembers ht
    exact (hstop.map _).prepend (s := ['{']) rfl

end compounds

theorem readFlat_of_blank {s : List Char} (h : Blank s) (item : Option (Reader Json)) :
    readFlat item s = .error .truncated := by
  unfold readFlat
  rw [skipBlanks_eq_nil h]

theorem readValue_of_blank {s : List Char} (h : Blank s) (depth : Nat) :
    readValue depth s = .error .truncated := by
  cases depth with
  | zero => exact readFlat_of_blank h none
  | succ depth => exact readFlat_of_blank h _

/-- A value that is cut off is read to the end of the text. -/
theorem exhausting_readValue (depth : Nat) :
    Exhausting (Padded (Spells depth)) .ok (readValue depth) := by
  induction depth with
  | zero =>
    refine (decodes_readValue 0).exhausting (fun _ _ => Spells.settled)
      (fun hbefore => readFlat_append hbefore none _) rfl fun hv _ hr hne hcut => ?_
    exact exhausts_scalar hv none hr hne hcut
  | succ depth ih =>
    refine (decodes_readValue (depth + 1)).exhausting (fun _ _ => Spells.settled)
      (fun hbefore => readFlat_append hbefore _ _) rfl ?_
    rintro body v r g (hv | hv) - hr hne hcut
    · exact exhausts_scalar hv _ hr hne hcut
    · exact .stopped (stopped_compound (decodes_readValue depth) ih
        (fun _ hs => readValue_of_blank hs depth) hv hr hne hcut)

end Json

end AudioFraming
