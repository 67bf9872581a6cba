import AudioFraming.Proofs.Json.Reading

/-!
# Where a text ends

A text that is cut off ends inside a string or outside of all of them, and outside with
a token: what stands behind the last blank, mark or string. One pass over the text keeps
track of this (`place`), whatever the text is. If the token is a numeral, it may be one
whose double is infinite, although a few more characters would have made it finite
(`EndsInfinite`).

The text of a value ends neither inside a string nor with an infinite numeral
(`Spells.settled`), so what follows it is tracked as if it stood alone.
-/

namespace AudioFraming

namespace Json

variable {α : Type}

/-! ## Beginnings -/

/-- A beginning of two texts in a row ends in the first or in the second. -/
theorem beginning_append {q s t : List α} (h : q <+: s ++ t) :
    q <+: s ∨ ∃ r, q = s ++ r ∧ r <+: t := by
  rcases List.prefix_or_prefix_of_prefix h (List.prefix_append s t) with hs | ⟨r, rfl⟩
  · exact Or.inl hs
  · exact Or.inr ⟨r, rfl, (List.prefix_append_right_inj s).mp h⟩

/-- It ends before or behind a character between them. -/
theorem beginning_append_cons {q s t : List α} {c : α} (h : q <+: s ++ c :: t) :
    q <+: s ∨ ∃ r, q = s ++ c :: r ∧ r <+: t := by
  rcases beginning_append h with hs | ⟨r, rfl, hr⟩
  · exact Or.inl hs
  · rcases List.prefix_cons_iff.mp hr with rfl | ⟨u, rfl, hu⟩
    · exact Or.inl (by rw [List.append_nil])
    · exact Or.inr ⟨u, rfl, hu⟩

/-- What is cut off between two characters ends before the second. -/
theorem beginning_enclosed {q s : List α} {first last : α} (h : q <+: first :: (s ++ [last]))
    (hne : q ≠ []) (hcut : q ≠ first :: (s ++ [last])) : ∃ r, q = first :: r ∧ r <+: s := by
  rcases List.prefix_cons_iff.mp h with rfl | ⟨r, rfl, hr⟩
  · exact absurd rfl hne
  · refine ⟨r, rfl, (List.prefix_concat_iff.mp hr).resolve_left ?_⟩
    rintro rfl
    exact hcut rfl

theorem Blank.beginning {q s : List Char} (h : Blank s) (hq : q <+: s) : Blank q :=
  fun c hc => h c (hq.subset hc)

theorem AllDigits.beginning {q s : List Char} (h : AllDigits s) (hq : q <+: s) : AllDigits q :=
  fun c hc => h c (hq.subset hc)

/-! ## Places -/

inductive Place where
  /-- Inside a string. -/
  | quoted
  /-- Inside a string, behind a backslash. -/
  | escaped
  /-- Outside of strings. The token is what stands behind the last blank, mark or string. -/
  | plain (token : List Char)
deriving DecidableEq, Inhabited

/-- The characters between values. -/
def isMark (c : Char) : Bool :=
  c = '[' || c = ']' || c = '{' || c = '}' || c = ',' || c = ':'

def Place.next : Place → Char → Place
  | quoted, c => if c = '"' then plain [] else if c = '\\' then escaped else quoted
  | escaped, _ => quoted
  | plain token, c =>
    if c = '"' then quoted
    else if isBlank c || isMark c then plain []
    else plain (token ++ [c])

/-- Where a text ends that starts outside of strings. -/
def place (s : List Char) : Place := s.foldl Place.next (.plain [])

/-- The text ends with a numeral, as far as it goes, and its double is infinite. -/
def EndsInfinite (s : List Char) : Prop :=
  ∃ n : Numeral, n.WellFormed ∧ n.isFinite = false ∧ place s = .plain n.text

/-- The text ends outside of strings, and not with an infinite numeral. -/
def Settled (s : List Char) : Prop := (∃ token, place s = .plain token) ∧ ¬EndsInfinite s

theorem place_append (s t : List Char) : place (s ++ t) = t.foldl Place.next (place s) :=
  List.foldl_append

/-- Behind a blank, a mark or a string the pass starts again. -/
theorem place_append_of_plain {s : List Char} (h : place s = .plain []) (t : List Char) :
    place (s ++ t) = place t := by
  rw [place_append, h, place]

theorem endsInfinite_append_iff {s : List Char} (h : place s = .plain []) {t : List Char} :
    EndsInfinite (s ++ t) ↔ EndsInfinite t := by
  unfold EndsInfinite
  rw [place_append_of_plain h]

theorem Settled.append {s t : List Char} (h : place s = .plain []) (ht : Settled t) :
    Settled (s ++ t) := by
  unfold Settled
  rw [place_append_of_plain h, endsInfinite_append_iff h]
  exact ht

theorem not_endsInfinite_of_ne {s : List Char} (h : ∀ token, place s ≠ .plain token) :
    ¬EndsInfinite s :=
  fun ⟨n, _, _, hplace⟩ => h n.text hplace

/-- A token that does not start as a numeral does is no numeral. -/
theorem not_endsInfinite_of_head {s token : List Char} (h : place s = .plain token)
    (hhead : ∀ c ∈ token.head?, c ≠ '-' ∧ ¬c.isDigit) : ¬EndsInfinite s := by
  rintro ⟨n, hwell, -, hplace⟩
  obtain ⟨c, t, htext, hc⟩ := hwell.text_eq_cons
  have htoken : token = c :: t := by
    rw [h, htext] at hplace
    exact Place.plain.inj hplace
  obtain ⟨hminus, hdigit⟩ := hhead c (by rw [htoken]; rfl)
  exact hc.elim hminus hdigit

theorem settled_of_place {s : List Char} (h : place s = .plain []) : Settled s :=
  ⟨⟨[], h⟩, not_endsInfinite_of_head h nofun⟩

/-! ## Blanks and marks -/

theorem ne_quote_of_isBlank {c : Char} (h : isBlank c = true) : c ≠ '"' := by
  rintro rfl
  cases h

theorem place_of_blank {s : List Char} (h : Blank s) : place s = .plain [] := by
  induction s using List.reverseRecOn with
  | nil => rfl
  | append_singleton s c ih =>
    have hc : isBlank c = true := h c (by simp)
    rw [place_append, ih fun d hd => h d (List.mem_append_left _ hd)]
    simp [Place.next, ne_quote_of_isBlank hc, hc]

theorem Settled.append_blank {s after : List Char} (h : Settled s) (hafter : Blank after) :
    Settled (s ++ after) := by
  cases after with
  | nil => rwa [List.append_nil]
  | cons c after =>
    obtain ⟨⟨token, htoken⟩, -⟩ := h
    have hc : isBlank c = true := hafter c (List.mem_cons_self ..)
    have hnext : place (s ++ [c]) = .plain [] := by
      rw [place_append, htoken]
      simp [Place.next, ne_quote_of_isBlank hc, hc]
    rw [List.append_cons]
    refine .append hnext (settled_of_place (place_of_blank ?_))
    exact fun d hd => hafter d (List.mem_cons_of_mem _ hd)

theorem Settled.place_append_mark {s : List Char} (h : Settled s) {c : Char}
    (hc : isMark c = true) : place (s ++ [c]) = .plain [] := by
  obtain ⟨⟨token, htoken⟩, -⟩ := h
  have hquote : c ≠ '"' := by
    rintro rfl
    cases hc
  rw [place_append, htoken]
  simp [Place.next, hquote, hc]

/-! ## Tokens -/

/-- No character is a quote, a blank or a mark. -/
def IsToken (s : List Char) : Prop := ∀ c ∈ s, c ≠ '"' ∧ isBlank c = false ∧ isMark c = false

instance : DecidablePred IsToken := fun s => List.decidableBAll _ s

theorem IsToken.append {s t : List Char} (hs : IsToken s) (ht : IsToken t) : IsToken (s ++ t) :=
  List.forall_mem_append.mpr ⟨hs, ht⟩

theorem IsToken.beginning {q s : List Char} (h : IsToken s) (hq : q <+: s) : IsToken q :=
  fun c hc => h c (hq.subset hc)

theorem foldl_next_of_token {s : List Char} (h : IsToken s) (token : List Char) :
    s.foldl Place.next (.plain token) = .plain (token ++ s) := by
  induction s generalizing token with
  | nil => simp
  | cons c s ih =>
    obtain ⟨hquote, hblank, hmark⟩ := h c (List.mem_cons_self ..)
    rw [List.foldl_cons, Place.next, if_neg hquote, hblank, hmark]
    exact (ih (fun d hd => h d (List.mem_cons_of_mem _ hd)) _).trans (by simp)

theorem place_of_token {s : List Char} (h : IsToken s) : place s = .plain s :=
  foldl_next_of_token h []

theorem isToken_digits {s : List Char} (h : AllDigits s) : IsToken s := by
  intro c hc
  have hdigit := h c hc
  have hne : ∀ d : Char, d.isDigit = false → c ≠ d := by
    rintro d hd rfl
    rw [hd] at hdigit
    cases hdigit
  refine ⟨hne _ rfl, ?_, ?_⟩
  · simp [isBlank, hne ' ' rfl, hne '\t' rfl, hne '\n' rfl, hne '\r' rfl]
  · simp [isMark, hne '[' rfl, hne ']' rfl, hne '{' rfl, hne '}' rfl, hne ',' rfl, hne ':' rfl]

theorem Numeral.WellFormed.isToken {n : Numeral} (h : n.WellFormed) : IsToken n.text := by
  have hminus : IsToken (minusText n.negative) := by
    cases n.negative <;> decide
  have hfraction : IsToken (fractionText n.fraction) := by
    unfold fractionText
    split
    · exact nofun
    · exact List.forall_mem_cons.mpr ⟨by decide, isToken_digits h.fraction_digits⟩
  have hexponent : IsToken (exponentText n.exponent) := by
    cases he : n.exponent with
    | none => exact nofun
    | some e =>
      have hsign : IsToken (signText e.sign) := by
        cases e.sign <;> decide
      rw [exponentText, Option.elim_some, exponent_text_eq]
      refine List.forall_mem_cons.mpr ⟨?_, hsign.append (isToken_digits (h.exponent_digits e he).2)⟩
      cases e.capital <;> decide
  rw [numeral_text_eq]
  exact hminus.append ((isToken_digits h.whole_digits).append (hfraction.append hexponent))

/-- Whether a numeral is infinite can be told from its text. -/
theorem endsInfinite_numeral_iff {n : Numeral} (h : n.WellFormed) :
    EndsInfinite n.text ↔ n.isFinite = false := by
  have hplace : place n.text = .plain n.text := place_of_token h.isToken
  constructor
  · rintro ⟨m, hm, hinfinite, hmplace⟩
    have htext : n.text = m.text := Place.plain.inj (hplace.symm.trans hmplace)
    have hsame : takeNumeral n [] = takeNumeral m [] := by
      rw [← readNumeral_self h, htext, readNumeral_self hm]
    cases hn : n.isFinite with
    | false => rfl
    | true =>
      rw [takeNumeral, takeNumeral, hn, hinfinite] at hsame
      cases hsame
  · exact fun hinfinite => ⟨n, h, hinfinite, hplace⟩

/-! ## Strings -/

/-- Quotes stand only behind a backslash. -/
inductive Quotable : List Char → Prop
  | nil : Quotable []
  | plain {c : Char} {s : List Char} (hquote : c ≠ '"') (hescape : c ≠ '\\') (h : Quotable s) :
      Quotable (c :: s)
  | escape {c : Char} {s : List Char} (h : Quotable s) : Quotable ('\\' :: c :: s)

theorem Quotable.append {s t : List Char} (hs : Quotable s) (ht : Quotable t) :
    Quotable (s ++ t) := by
  induction hs with
  | nil => exact ht
  | plain hquote hescape h ih => exact .plain hquote hescape ih
  | escape h ih => exact .escape ih

theorem IsUnit.quotable {w : List Char} {unit : Nat} (h : IsUnit w unit) : Quotable w := by
  obtain ⟨digits, -, hw, -⟩ := h
  induction w generalizing digits with
  | nil => exact .nil
  | cons c w ih =>
    cases digits with
    | nil => cases hw
    | cons digit digits =>
    obtain ⟨hc, hw⟩ := List.cons.inj hw
    refine .plain ?_ ?_ (ih digits hw)
    · rintro rfl
      cases hc
    · rintro rfl
      cases hc

theorem CharSpelling.quotable {w : List Char} {c : Char} (h : CharSpelling w c) : Quotable w := by
  cases h with
  | plain hcontrol hquote hescape => exact .plain hquote hescape .nil
  | short h => exact .escape .nil
  | code hw h => exact .escape hw.quotable
  | pair hw hv hhigh hlow => exact .escape (hw.quotable.append (.escape hv.quotable))

theorem CharsSpelling.quotable {s cs : List Char} (h : CharsSpelling s cs) : Quotable s := by
  induction h with
  | nil => exact .nil
  | cons hc h ih => exact hc.quotable.append ih

theorem Quotable.foldl_next {s : List Char} (h : Quotable s) :
    s.foldl Place.next .quoted = .quoted := by
  induction h with
  | nil => rfl
  | plain hquote hescape h ih => simpa [Place.next, hquote, hescape] using ih
  | escape h ih => exact ih

/-- A string that is cut off has no end. -/
theorem Quotable.foldl_next_ne {s r : List Char} (h : Quotable s) (hr : r <+: s)
    (token : List Char) : r.foldl Place.next .quoted ≠ .plain token := by
  induction h generalizing r with
  | nil =>
    rw [List.prefix_nil.mp hr]
    exact nofun
  | plain hquote hescape h ih =>
    rcases List.prefix_cons_iff.mp hr with rfl | ⟨t, rfl, ht⟩
    · exact nofun
    · simpa [Place.next, hquote, hescape] using ih ht
  | escape h ih =>
    rcases List.prefix_cons_iff.mp hr with rfl | ⟨t, rfl, ht⟩
    · exact nofun
    · rcases List.prefix_cons_iff.mp ht with rfl | ⟨u, rfl, hu⟩
      · exact nofun
      · have hplace : u.foldl Place.next .quoted ≠ .plain token := ih hu
        exact hplace

theorem CharsSpelling.place_string {body cs : List Char} (h : CharsSpelling body cs) :
    place ('"' :: (body ++ ['"'])) = .plain [] := by
  have hquoted : body.foldl Place.next .quoted = .quoted := h.quotable.foldl_next
  change (body ++ ['"']).foldl Place.next .quoted = _
  rw [List.foldl_append, hquoted]
  rfl

theorem CharsSpelling.not_endsInfinite {body cs r : List Char} (h : CharsSpelling body cs)
    (hr : r <+: body) : ¬EndsInfinite ('"' :: r) :=
  not_endsInfinite_of_ne (h.quotable.foldl_next_ne hr)

/-! ## Values -/

theorem ScalarSpelling.settled {s : List Char} {v : Json} (h : ScalarSpelling s v) :
    Settled s := by
  have hword {c : Char} {word : List Char} (htoken : IsToken (c :: word))
      (hhead : c ≠ '-' ∧ ¬c.isDigit) : Settled (c :: word) :=
    ⟨⟨_, place_of_token htoken⟩,
      not_endsInfinite_of_head (place_of_token htoken) (by simpa using hhead)⟩
  cases h with
  | null => exact hword (by decide) (by decide)
  | true => exact hword (by decide) (by decide)
  | false => exact hword (by decide) (by decide)
  | @number n hwell hfinite =>
    refine ⟨⟨n.text, place_of_token hwell.isToken⟩, fun hinfinite => ?_⟩
    rw [(endsInfinite_numeral_iff hwell).mp hinfinite] at hfinite
    cases hfinite
  | string h => exact settled_of_place h.place_string

section compounds

variable {inner : List Char → Json → Prop}

theorem Padded.settled (hinner : ∀ s v, inner s v → Settled s) {w : List Char} {v : Json}
    (h : Padded inner w v) : Settled w := by
  obtain ⟨hbefore, hv, hafter⟩ := h
  exact .append (place_of_blank hbefore) ((hinner _ _ hv).append_blank hafter)

/-- The key of a member and its colon. -/
theorem place_key {before key middle cs : List Char} (hbefore : Blank before)
    (hkey : CharsSpelling key cs) (hmiddle : Blank middle) :
    place (before ++ ('"' :: (key ++ ['"']) ++ (middle ++ [':']))) = .plain [] := by
  rw [place_append_of_plain (place_of_blank hbefore), place_append_of_plain hkey.place_string]
  exact (settled_of_place (place_of_blank hmiddle)).place_append_mark rfl

theorem MemberSpelling.settled (hinner : ∀ s v, inner s v → Settled s) {w : List Char}
    {m : String × Json} (h : MemberSpelling inner w m) : Settled w := by
  obtain @⟨before, key, middle, s, cs, v, hbefore, hkey, hmiddle, hv⟩ := h
  have hsettled := (hv.settled hinner).append (place_key hbefore hkey hmiddle)
  simpa using hsettled

theorem Separated.settled {part : List Char → α → Prop} (hpart : ∀ w a, part w a → Settled w)
    {w : List Char} {as : List α} (h : Separated part w as) : Settled w := by
  induction h with
  | last h => exact hpart _ _ h
  | more h hrest ih =>
    rw [List.append_cons]
    exact ih.append ((hpart _ _ h).place_append_mark rfl)

theorem PartsSpelling.settled {part : List Char → α → Prop} (hpart : ∀ w a, part w a → Settled w)
    {w : List Char} {as : List α} (h : PartsSpelling part w as) : Settled w := by
  cases h with
  | none h => exact settled_of_place (place_of_blank h)
  | some h => exact h.settled hpart

theorem CompoundSpelling.settled (hinner : ∀ s v, inner s v → Settled s) {s : List Char}
    {v : Json} (h : CompoundSpelling inner s v) : Settled s := by
  have hclosed {first last : Char} {w : List Char} (hfirst : place [first] = .plain [])
      (hlast : isMark last = true) (hw : Settled w) : Settled (first :: (w ++ [last])) :=
    settled_of_place ((place_append_of_plain hfirst _).trans (hw.place_append_mark hlast))
  cases h with
  | array h => exact hclosed rfl rfl (h.settled fun _ _ => Padded.settled hinner)
  | object h => exact hclosed rfl rfl (h.settled fun _ _ => MemberSpelling.settled hinner)

end compounds

theorem Spells.settled {depth : Nat} {s : List Char} {v : Json} (h : Spells depth s v) :
    Settled s := by
  induction depth generalizing s v with
  | zero => exact ScalarSpelling.settled h
  | succ depth ih =>
    rcases h with h | h
    · exact h.settled
    · exact h.settled fun _ _ => ih

end Json

end AudioFraming
