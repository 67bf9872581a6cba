import AudioFraming.Proofs.Json.Tokens

/-!
# Reading values

A reader decodes a part of the grammar if it takes off what the grammar spells and makes
of it what a function of the value says (`Decodes`). The function may refuse a value, and
then so does the reader, though it may not have looked at all of it. Reading a value as
it is and reading what a message asks for are both of this kind, so the loops through
arrays and objects are treated once, with the step as a parameter (`foldUntil_of_read`,
`foldUntil_append`).

The main result is that the readers and the grammar agree (`decodes_readValue`), and so
a text spells one value at most (`IsDocument.unique`).
-/

namespace AudioFraming

namespace Json

variable {α β γ : Type}

/-! ## Folds -/

/-- A fold up to a closing character. The step reads a whole part of the text. -/
def foldUntil (close : Char) (step : β → Reader β) : List Char → β → Reader β
  | [], _, _ => .error .truncated
  | _ :: rounds, acc, s => do
    let (acc, s) ← step acc s
    match skipBlanks s with
    | [] => .error .truncated
    | c :: s =>
      if c = ',' then foldUntil close step rounds acc s
      else if c = close then .ok (acc, s) else .error .malformed

theorem foldItems_eq_foldUntil (step : β → Reader β) (rounds : List Char) (acc : β)
    (s : List Char) : foldItems step rounds acc s = foldUntil ']' step rounds acc s := by
  induction rounds generalizing acc s with
  | nil => rfl
  | cons r rounds ih =>
    unfold foldItems foldUntil
    refine congrArg _ (funext fun ⟨acc, t⟩ => ?_)
    dsimp only
    cases skipBlanks t with
    | nil => rfl
    | cons c t =>
      by_cases hcomma : c = ','
      · simp [hcomma, ih]
      by_cases hclose : c = ']'
      · simp [hclose]
      · simp [hcomma, hclose]

/-- A step on a whole member: the key is read, and the rest is left to a step that is told the
key. -/
def memberStep (step : β → String → Reader β) (acc : β) : Reader β := fun s =>
  match skipBlanks s with
  | '"' :: s => do
    let (key, s) ← readString s
    step acc key s
  | [] => .error .truncated
  | _ => .error .malformed

theorem memberStep_of_quote (step : β → String → Reader β) (acc : β) {s t : List Char}
    (h : skipBlanks s = '"' :: t) :
    memberStep step acc s = readString t >>= fun (key, t) => step acc key t := by
  unfold memberStep
  rw [h]
  rfl

theorem foldMembers_eq_foldUntil (step : β → String → Reader β) (rounds : List Char) (acc : β)
    (s : List Char) :
    foldMembers step rounds acc s = foldUntil '}' (memberStep step) rounds acc s := by
  induction rounds generalizing acc s with
  | nil => rfl
  | cons r rounds ih =>
    unfold foldMembers foldUntil
    split
    · rename_i t hquote
      rw [memberStep_of_quote step acc hquote, bind_assoc]
      refine congrArg _ (funext fun ⟨key, t⟩ => ?_)
      dsimp only
      refine congrArg _ (funext fun ⟨acc, t⟩ => ?_)
      dsimp only
      cases skipBlanks t with
      | nil => rfl
      | cons c t =>
        by_cases hcomma : c = ','
        · simp [hcomma, ih]
        by_cases hclose : c = '}'
        · simp [hclose]
        · simp [hcomma, hclose]
    · rename_i hnil
      unfold memberStep
      rw [hnil]
      rfl
    · rename_i hquote hnil
      unfold memberStep
      split
      · rename_i t heq
        exact absurd heq (hquote t)
      · rename_i heq
        exact absurd heq hnil
      · rfl

/-- What stands behind a part: a comma or the end of the array or object. -/
def Closed (rest : List Char) : Prop := ∃ c t, rest = c :: t ∧ (c = ',' ∨ c = ']' ∨ c = '}')

theorem Closed.skipBlanks_eq {rest : List Char} (h : Closed rest) : skipBlanks rest = rest := by
  obtain ⟨c, t, rfl, rfl | rfl | rfl⟩ := h <;> rfl

theorem closed_cons {c : Char} (h : c = ']' ∨ c = '}') (t : List Char) : Closed (c :: t) :=
  ⟨c, t, rfl, Or.inr h⟩

/-- The step takes a part off the front, all but the blanks at its end, and goes on with what
`next` makes of it. -/
structure Takes (part : List Char → α → Prop) (next : β → α → Except Fault β)
    (step : β → Reader β) : Prop where
  sound : ∀ {acc s acc' rest}, step acc s = .ok (acc', rest) →
    ∃ w a, s = w ++ rest ∧ (∀ after, Blank after → part (w ++ after) a) ∧ next acc a = .ok acc'
  complete : ∀ {w a rest}, part w a → Closed rest → ∀ acc,
    ∃ after, Blank after ∧ step acc (w ++ rest) = (next acc a).map (·, after ++ rest)

section fold

variable {part : List Char → α → Prop} {next : β → α → Except Fault β} {step : β → Reader β}
  {close : Char}

theorem foldUntil_of_read (h : Takes part next step) {rounds : List Char} {acc acc' : β}
    {s rest : List Char} (hread : foldUntil close step rounds acc s = .ok (acc', rest)) :
    ∃ w as, s = w ++ close :: rest ∧ Separated part w as ∧ as.foldlM next acc = .ok acc' := by
  induction rounds generalizing acc s with
  | nil => cases hread
  | cons r rounds ih =>
    obtain ⟨⟨acc₁, t⟩, hstep, hnext⟩ := bind_eq_ok_iff.mp hread
    obtain ⟨w, a, rfl, hpart, ha⟩ := h.sound hstep
    obtain ⟨after, hafter, ht⟩ := exists_skipBlanks t
    dsimp only at hnext
    cases hskip : skipBlanks t with
    | nil =>
      rw [hskip] at hnext
      cases hnext
    | cons c u =>
      rw [hskip] at hnext ht
      dsimp only at hnext
      split at hnext
      · rename_i hcomma
        obtain ⟨v, as, rfl, hrest, has⟩ := ih hnext
        refine ⟨w ++ after ++ ',' :: v, a :: as, ?_, .more (hpart after hafter) hrest, ?_⟩
        · rw [ht, hcomma]
          simp
        · rw [List.foldlM_cons, ha]
          exact has
      · split at hnext
        · rename_i hclose
          cases hnext
          refine ⟨w ++ after, [a], ?_, .last (hpart after hafter), ?_⟩
          · rw [ht, hclose]
            simp
          · rw [List.foldlM_cons, ha]
            rfl
        · cases hnext

/-- A step that takes a part leaves the character behind it to look at. -/
theorem foldUntil_cons (h : Takes part next step) {w t : List Char} {a : α} (hpart : part w a)
    {c : Char} (hc : c = ',' ∨ c = ']' ∨ c = '}') (r : Char) (rounds : List Char) (acc : β) :
    foldUntil close step (r :: rounds) acc (w ++ c :: t) = next acc a >>= fun acc =>
      if c = ',' then foldUntil close step rounds acc t
      else if c = close then .ok (acc, t) else .error .malformed := by
  have hclosed : Closed (c :: t) := ⟨c, t, rfl, hc⟩
  obtain ⟨after, hafter, hstep⟩ := h.complete hpart hclosed acc
  have hskip : skipBlanks (after ++ c :: t) = c :: t := by
    rw [skipBlanks_append hafter, hclosed.skipBlanks_eq]
  rw [foldUntil, hstep]
  cases next acc a with
  | error fault => rfl
  | ok acc =>
    simp only [Except.map, bind, Except.bind, hskip]

theorem foldUntil_append (h : Takes part next step) (hclose : close = ']' ∨ close = '}')
    {w : List Char} {as : List α} (hparts : Separated part w as) {rounds : List Char}
    (hrounds : w.length < rounds.length) (acc : β) (rest : List Char) :
    foldUntil close step rounds acc (w ++ close :: rest) =
      (as.foldlM next acc).map (·, rest) := by
  have hcomma : close ≠ ',' := by rcases hclose with rfl | rfl <;> decide
  induction hparts generalizing rounds acc with
  | @last w a hpart =>
    cases rounds with
    | nil => cases hrounds
    | cons r rounds =>
      rw [foldUntil_cons h hpart (Or.inr hclose), List.foldlM_cons]
      cases next acc a with
      | error fault => rfl
      | ok acc => simp [hcomma, bind, Except.bind, pure, Except.pure, Except.map]
  | @more w t a as hpart hrest ih =>
    rw [List.length_append, List.length_cons] at hrounds
    cases rounds with
    | nil => cases hrounds
    | cons r rounds =>
      rw [List.length_cons] at hrounds
      rw [List.append_assoc, List.cons_append, foldUntil_cons h hpart (Or.inl rfl),
        List.foldlM_cons]
      cases next acc a with
      | error fault => rfl
      | ok acc => exact ih (by omega) acc

end fold

/-! ## Decoders -/

/-- The reader takes off what the relation spells, after blanks, and makes of it what `decode`
says. A value that is refused need not have been read to its end. -/
structure Decodes (inner : List Char → Json → Prop) (decode : Json → Except Fault γ)
    (reader : Reader γ) : Prop where
  sound : ∀ {s g rest}, reader s = .ok (g, rest) →
    ∃ before body v, Blank before ∧ s = before ++ (body ++ rest) ∧ inner body v ∧
      decode v = .ok g
  complete : ∀ {before body v}, Blank before → inner body v → ∀ {rest}, Ends rest →
    reader (before ++ (body ++ rest)) = (decode v).map (·, rest)

section decoders

variable {inner : List Char → Json → Prop} {decode : Json → Except Fault γ} {reader : Reader γ}

theorem Ends.of_closed {rest : List Char} (h : Closed rest) : Ends rest := by
  obtain ⟨c, t, rfl, rfl | rfl | rfl⟩ := h <;> rintro c ⟨rfl⟩ <;> decide

theorem Ends.of_blank {after rest : List Char} (h : Blank after) (hrest : Ends rest) :
    Ends (after ++ rest) := by
  cases after with
  | nil => exact hrest
  | cons c after =>
    rintro c ⟨rfl⟩
    have hc : isBlank c = true := h c (List.mem_cons_self ..)
    simp only [isBlank, Bool.or_eq_true, decide_eq_true_eq] at hc
    rcases hc with ((rfl | rfl) | rfl) | rfl <;> decide

/-- What has been read can be turned into something else. -/
theorem Decodes.map (h : Decodes inner decode reader) (f : γ → β) :
    Decodes inner (fun v => (decode v).map f) fun s => reader s >>= fun (g, s) => .ok (f g, s) where
  sound := by
    intro s b rest hread
    obtain ⟨⟨g, t⟩, hg, hb⟩ := bind_eq_ok_iff.mp hread
    cases hb
    obtain ⟨before, body, v, hbefore, hs, hv, hdecode⟩ := h.sound hg
    exact ⟨before, body, v, hbefore, hs, hv, map_eq_ok_iff.mpr ⟨g, hdecode, rfl⟩⟩
  complete := by
    intro before body v hbefore hv rest hrest
    rw [h.complete hbefore hv hrest]
    cases decode v <;> rfl

/-- A step that decodes values takes the items of an array. -/
theorem Decodes.takes_item {next : β → Json → Except Fault β} {step : β → Reader β}
    (h : ∀ acc, Decodes inner (next acc) (step acc)) : Takes (Padded inner) next step where
  sound := by
    intro acc s acc' rest hstep
    obtain ⟨before, body, v, hbefore, hs, hv, hnext⟩ := (h acc).sound hstep
    refine ⟨before ++ body, v, by rw [hs, List.append_assoc], ?_, hnext⟩
    intro after hafter
    rw [List.append_assoc]
    exact .mk hbefore hv hafter
  complete := by
    rintro w v rest ⟨hbefore, hv, hafter⟩ hclosed acc
    refine ⟨_, hafter, ?_⟩
    rw [List.append_assoc, List.append_assoc]
    exact (h acc).complete hbefore hv (.of_blank hafter (.of_closed hclosed))

/-- The colon of a member and its value. -/
inductive ColonSpelling (inner : List Char → Json → Prop) : List Char → Json → Prop
  | mk {before body : List Char} {v : Json} (hbefore : Blank before) (h : inner body v) :
      ColonSpelling inner (':' :: (before ++ body)) v

theorem readColon_eq_ok_iff {s t : List Char} :
    readColon s = .ok t ↔ skipBlanks s = ':' :: t := by
  unfold readColon
  split
  · rename_i h
    rw [h]
    exact ⟨fun h => by cases h; rfl, fun h => by cases h; rfl⟩
  · rename_i h
    rw [h]
    exact ⟨nofun, nofun⟩
  · rename_i hcolon hnil
    exact ⟨nofun, fun h => absurd h (hcolon t)⟩

theorem Decodes.colon (h : Decodes inner decode reader) :
    Decodes (ColonSpelling inner) decode fun s => readColon s >>= reader where
  sound := by
    intro s g rest hread
    obtain ⟨t, hcolon, hread⟩ := bind_eq_ok_iff.mp hread
    obtain ⟨before, body, v, hbefore, rfl, hv, hdecode⟩ := h.sound hread
    obtain ⟨middle, hmiddle, hs⟩ := exists_skipBlanks s
    rw [readColon_eq_ok_iff.mp hcolon] at hs
    exact ⟨middle, ':' :: (before ++ body), v, hmiddle, by simp [hs], .mk hbefore hv, hdecode⟩
  complete := by
    intro middle _ v hmiddle hv rest hrest
    obtain @⟨before, body, _, hbefore, hv⟩ := hv
    have hcolon : readColon (middle ++ (':' :: (before ++ body) ++ rest)) =
        .ok (before ++ (body ++ rest)) := by
      rw [readColon_eq_ok_iff, skipBlanks_append hmiddle, List.cons_append, List.append_assoc]
      rfl
    rw [hcolon]
    exact h.complete hbefore hv hrest

/-- A step that decodes values after a colon takes the members of an object. -/
theorem Decodes.takes_member {next : β → String × Json → Except Fault β}
    {step : β → String → Reader β}
    (h : ∀ acc key, Decodes (ColonSpelling inner) (fun v => next acc (key, v)) (step acc key)) :
    Takes (MemberSpelling inner) next (memberStep step) where
  sound := by
    intro acc s acc' rest hstep
    obtain ⟨before, hbefore, hs⟩ := exists_skipBlanks s
    unfold memberStep at hstep
    split at hstep
    · rename_i t hquote
      obtain ⟨⟨key, u⟩, hkey, hvalue⟩ := bind_eq_ok_iff.mp hstep
      obtain ⟨w, cs, rfl, hcs, rfl⟩ := readString_eq_ok_iff.mp hkey
      obtain ⟨middle, _, v, hmiddle, rfl, hv, hnext⟩ := (h acc _).sound hvalue
      obtain @⟨inside, body, _, hinside, hv⟩ := hv
      rw [hquote] at hs
      refine ⟨before ++ '"' :: (w ++ '"' :: (middle ++ ':' :: (inside ++ body))), (_, v),
        by simp [hs], ?_, hnext⟩
      intro after hafter
      simp only [List.append_assoc, List.cons_append]
      exact .mk hbefore hcs hmiddle (.mk hinside hv hafter)
    · cases hstep
    · cases hstep
  complete := by
    intro w m rest hm hclosed acc
    obtain @⟨before, w, middle, _, cs, v, hbefore, hcs, hmiddle, hv⟩ := hm
    obtain @⟨inside, body, after, _, hinside, hv, hafter⟩ := hv
    refine ⟨after, hafter, ?_⟩
    have hquote : skipBlanks (before ++ '"' :: (w ++ '"' ::
        (middle ++ ':' :: (inside ++ (body ++ after)))) ++ rest) =
        '"' :: (w ++ '"' :: (middle ++ (':' :: (inside ++ body) ++ (after ++ rest)))) := by
      rw [List.append_assoc, skipBlanks_append hbefore]
      simp [skipBlanks, isBlank]
    have hkey : readString (w ++ '"' :: (middle ++ (':' :: (inside ++ body) ++ (after ++ rest)))) =
        .ok (String.ofList cs, middle ++ (':' :: (inside ++ body) ++ (after ++ rest))) :=
      readString_eq_ok_iff.mpr ⟨w, cs, rfl, hcs, rfl⟩
    rw [memberStep_of_quote step acc hquote, hkey]
    exact (h acc _).complete hmiddle (.mk hinside hv) (.of_blank hafter (.of_closed hclosed))

end decoders

/-! ## Where a value starts -/

/-- Something stands in front that is neither a blank nor an end. -/
def Starts (s : List Char) : Prop := ∃ c t, s = c :: t ∧ isBlank c = false ∧ c ≠ ']' ∧ c ≠ '}'

theorem Starts.append {s : List Char} (h : Starts s) (rest : List Char) : Starts (s ++ rest) := by
  obtain ⟨c, t, rfl, hc⟩ := h
  exact ⟨c, t ++ rest, rfl, hc⟩

theorem Starts.skipBlanks_eq {s : List Char} (h : Starts s) : skipBlanks s = s := by
  obtain ⟨c, t, rfl, hblank, -⟩ := h
  simp [skipBlanks, hblank]

theorem starts_cons_of_isDigit {c : Char} (h : c.isDigit = true) (t : List Char) :
    Starts (c :: t) := by
  have hne : ∀ d : Char, d.isDigit = false → c ≠ d := by
    rintro d hd rfl
    rw [hd] at h
    cases h
  refine ⟨c, t, rfl, ?_, hne _ rfl, hne _ rfl⟩
  simp [isBlank, hne ' ' rfl, hne '\t' rfl, hne '\n' rfl, hne '\r' rfl]

/-- A numeral starts with its sign or a digit. -/
theorem Numeral.WellFormed.text_eq_cons {n : Numeral} (h : n.WellFormed) :
    ∃ c t, n.text = c :: t ∧ (c = '-' ∨ c.isDigit = true) := by
  rw [numeral_text_eq]
  cases n.negative with
  | true => exact ⟨_, _, rfl, Or.inl rfl⟩
  | false =>
    cases hwhole : n.whole with
    | nil => exact absurd hwhole h.whole_ne_nil
    | cons c t =>
      have hc : c.isDigit = true := h.whole_digits c (by rw [hwhole]; exact List.mem_cons_self ..)
      exact ⟨c, _, rfl, Or.inr hc⟩

theorem ne_of_starts_numeral {c d : Char} (hc : c = '-' ∨ c.isDigit = true) (hd : d ≠ '-')
    (hdigit : d.isDigit = false) : c ≠ d := by
  rintro rfl
  simp [hd, hdigit] at hc

theorem starts_of_starts_numeral {c : Char} (hc : c = '-' ∨ c.isDigit = true) (t : List Char) :
    Starts (c :: t) := by
  rcases hc with rfl | hdigit
  · exact ⟨_, _, rfl, rfl, by decide, by decide⟩
  · exact starts_cons_of_isDigit hdigit t

theorem ScalarSpelling.starts {s : List Char} {v : Json} (h : ScalarSpelling s v) : Starts s := by
  cases h with
  | null | true | false | string => exact ⟨_, _, rfl, rfl, by decide, by decide⟩
  | number hwell hfinite =>
    obtain ⟨c, t, htext, hc⟩ := hwell.text_eq_cons
    exact htext ▸ starts_of_starts_numeral hc t

/-- What a scalar starts with tells it from an array and an object, and a string from the rest. -/
theorem ScalarSpelling.exists_cons {s : List Char} {v : Json} (h : ScalarSpelling s v) :
    ∃ c t, s = c :: t ∧ c ≠ '[' ∧ c ≠ '{' ∧ (c = '"' → ∃ text, v = .string text) := by
  cases h with
  | null | true | false => exact ⟨_, _, rfl, by decide, by decide, fun h => absurd h (by decide)⟩
  | string => exact ⟨_, _, rfl, by decide, by decide, fun _ => ⟨_, rfl⟩⟩
  | number hwell hfinite =>
    obtain ⟨c, t, htext, hc⟩ := hwell.text_eq_cons
    have hne {d : Char} := ne_of_starts_numeral hc (d := d)
    exact ⟨c, t, htext, hne (by decide) rfl, hne (by decide) rfl,
      fun h => absurd h (hne (by decide) rfl)⟩

theorem CompoundSpelling.starts {inner : List Char → Json → Prop} {s : List Char} {v : Json}
    (h : CompoundSpelling inner s v) : Starts s := by
  cases h <;> exact ⟨_, _, rfl, rfl, by decide, by decide⟩

theorem Spells.cases {depth : Nat} {s : List Char} {v : Json} (h : Spells depth s v) :
    ScalarSpelling s v ∨ ∃ inner, CompoundSpelling (Spells inner) s v := by
  cases depth with
  | zero => exact Or.inl h
  | succ depth => exact h.imp_right fun h => ⟨depth, h⟩

theorem Spells.starts {depth : Nat} {s : List Char} {v : Json} (h : Spells depth s v) :
    Starts s := by
  obtain h | ⟨inner, h⟩ := h.cases
  · exact h.starts
  · exact h.starts

/-- After blanks, something stands in front that is no end. -/
def Opens (w : List Char) : Prop := ∃ before s, Blank before ∧ w = before ++ s ∧ Starts s

theorem Opens.append {w : List Char} (h : Opens w) (rest : List Char) : Opens (w ++ rest) := by
  obtain ⟨before, s, hbefore, rfl, hs⟩ := h
  exact ⟨before, s ++ rest, hbefore, List.append_assoc .., hs.append rest⟩

theorem Opens.head?_ne {w : List Char} (h : Opens w) {close : Char}
    (hclose : close = ']' ∨ close = '}') : (skipBlanks w).head? ≠ some close := by
  obtain ⟨before, s, hbefore, rfl, hs⟩ := h
  rw [skipBlanks_append hbefore, hs.skipBlanks_eq]
  obtain ⟨c, u, rfl, -, hbracket, hbrace⟩ := hs
  rintro ⟨rfl⟩
  exact hclose.elim hbracket hbrace

theorem head?_ne_of_forall {s : List Char} {c : Char} (h : ∀ t, skipBlanks s = c :: t → False) :
    (skipBlanks s).head? ≠ some c := by
  intro hhead
  obtain ⟨t, ht⟩ := List.head?_eq_some_iff.mp hhead
  exact h t ht

theorem Padded.opens {inner : List Char → Json → Prop} (hstarts : ∀ s v, inner s v → Starts s)
    {w : List Char} {v : Json} (h : Padded inner w v) : Opens w := by
  obtain ⟨hbefore, hv, -⟩ := h
  exact ⟨_, _, hbefore, rfl, (hstarts _ _ hv).append _⟩

theorem MemberSpelling.opens {inner : List Char → Json → Prop} {w : List Char}
    {m : String × Json} (h : MemberSpelling inner w m) : Opens w := by
  obtain ⟨hbefore, -, -, -⟩ := h
  exact ⟨_, _, hbefore, rfl, _, _, rfl, rfl, by decide, by decide⟩

theorem Separated.opens {part : List Char → α → Prop} (hpart : ∀ w a, part w a → Opens w)
    {w : List Char} {as : List α} (h : Separated part w as) : Opens w := by
  cases h with
  | last h => exact hpart _ _ h
  | more h hrest => exact (hpart _ _ h).append _

/-! ## Arrays and objects -/

/-- The parts up to a closing character. -/
def readParts (close : Char) (step : List α → Reader (List α)) : Reader (List α) := fun s =>
  if (skipBlanks s).head? = some close then .ok ([], (skipBlanks s).tail)
  else (foldUntil close step s [] s).map fun (found, s) => (found.reverse, s)

section parts

variable {part : List Char → α → Prop} {step : List α → Reader (List α)} {close : Char}

/-- Parts are gathered in front of those before them. -/
theorem foldlM_gather (as found : List α) :
    as.foldlM (fun found a => (.ok (a :: found) : Except Fault (List α))) found =
      .ok (as.reverse ++ found) := by
  induction as generalizing found with
  | nil => rfl
  | cons a as ih =>
    rw [List.foldlM_cons]
    refine (ih (a :: found)).trans ?_
    simp

theorem parts_of_read (h : Takes part (fun found a => .ok (a :: found)) step)
    {s rest : List Char} {as : List α} (hread : readParts close step s = .ok (as, rest)) :
    ∃ w, s = w ++ close :: rest ∧ PartsSpelling part w as := by
  unfold readParts at hread
  split at hread
  · rename_i hclose
    cases hread
    obtain ⟨before, hbefore, hs⟩ := exists_skipBlanks s
    obtain ⟨t, ht⟩ := List.head?_eq_some_iff.mp hclose
    exact ⟨before, by rw [ht, List.tail_cons, hs, ht], .none hbefore⟩
  · obtain ⟨⟨found, t⟩, hfold, hparts⟩ := map_eq_ok_iff.mp hread
    cases hparts
    obtain ⟨w, as, rfl, hw, has⟩ := foldUntil_of_read h hfold
    rw [foldlM_gather] at has
    cases has
    exact ⟨w, rfl, .some (by simpa using hw)⟩

theorem readParts_append (h : Takes part (fun found a => .ok (a :: found)) step)
    (hopens : ∀ w a, part w a → Opens w) (hclose : close = ']' ∨ close = '}') {w : List Char}
    {as : List α} (hw : PartsSpelling part w as) (rest : List Char) :
    readParts close step (w ++ close :: rest) = .ok (as, rest) := by
  unfold readParts
  cases hw with
  | none hblank =>
    rw [skipBlanks_append hblank, (closed_cons hclose rest).skipBlanks_eq]
    exact if_pos rfl
  | some hw =>
    rw [if_neg (((hw.opens hopens).append _).head?_ne hclose),
      foldUntil_append h hclose hw (by simp), foldlM_gather]
    simp [Except.map]

end parts

theorem readItems_eq_readParts (item : Reader α) (s : List Char) :
    readItems item s = readParts ']' (fun found s => do
      let (v, s) ← item s
      .ok (v :: found, s)) s := by
  unfold readItems readParts
  split
  · rename_i t hskip
    rw [hskip]
    rfl
  · rename_i hopen
    rw [if_neg (head?_ne_of_forall hopen), foldItems_eq_foldUntil]
    exact bind_pure_comp _ _

theorem readMembers_eq_readParts (item : Reader α) (s : List Char) :
    readMembers item s = readParts '}' (memberStep fun found key s => do
      let (v, s) ← item (← readColon s)
      .ok ((key, v) :: found, s)) s := by
  unfold readMembers readParts
  split
  · rename_i t hskip
    rw [hskip]
    rfl
  · rename_i hopen
    rw [if_neg (head?_ne_of_forall hopen), foldMembers_eq_foldUntil]
    exact bind_pure_comp _ _

section values

variable {inner : List Char → Json → Prop} {item : Reader Json}

theorem takes_item (h : Decodes inner .ok item) :
    Takes (Padded inner) (fun found v => .ok (v :: found)) (fun found s => do
      let (v, s) ← item s
      .ok (v :: found, s)) :=
  Decodes.takes_item fun found => h.map (· :: found)

theorem takes_member (h : Decodes inner .ok item) :
    Takes (MemberSpelling inner) (fun found m => .ok (m :: found))
      (memberStep fun found key s => do
        let (v, s) ← item (← readColon s)
        .ok ((key, v) :: found, s)) :=
  Decodes.takes_member fun found key => (h.map fun v => (key, v) :: found).colon

theorem readWord_eq_ok_iff {word s rest : List Char} {u : Unit} :
    readWord word s = .ok (u, rest) ↔ s = word ++ rest := by
  induction word generalizing s with
  | nil => exact ⟨fun h => by cases h; rfl, fun h => h ▸ rfl⟩
  | cons c word ih =>
    cases s with
    | nil => exact ⟨nofun, nofun⟩
    | cons d s =>
      rw [readWord, List.cons_append, List.cons.injEq]
      split
      · rename_i hc
        rw [ih, hc, eq_self, true_and]
      · rename_i hc
        exact ⟨nofun, fun h => absurd h.1.symm hc⟩

/-- A value that has been read is a scalar, or an array or an object if something may be nested in
it. -/
theorem value_of_read {item : Option (Reader Json)}
    (hitem : ∀ reader ∈ item, Decodes inner .ok reader) {s rest : List Char} {v : Json}
    (hread : readFlat item s = .ok (v, rest)) :
    ∃ body, skipBlanks s = body ++ rest ∧
      (ScalarSpelling body v ∨ item.isSome ∧ CompoundSpelling inner body v) := by
  unfold readFlat at hread
  split at hread
  · cases hread
  · rename_i t hskip
    obtain ⟨⟨text, u⟩, htext, hv⟩ := map_eq_ok_iff.mp hread
    cases hv
    obtain ⟨body, cs, rfl, hcs, rfl⟩ := readString_eq_ok_iff.mp htext
    exact ⟨'"' :: (body ++ ['"']), by simp [hskip], Or.inl (.string hcs)⟩
  · rename_i t reader hskip
    obtain ⟨⟨items, u⟩, hitems, hv⟩ := map_eq_ok_iff.mp hread
    cases hv
    rw [readItems_eq_readParts] at hitems
    obtain ⟨w, rfl, hw⟩ := parts_of_read (takes_item (hitem reader rfl)) hitems
    exact ⟨'[' :: (w ++ [']']), by simp [hskip], Or.inr ⟨rfl, .array hw⟩⟩
  · rename_i t reader hskip
    obtain ⟨⟨members, u⟩, hmembers, hv⟩ := map_eq_ok_iff.mp hread
    cases hv
    rw [readMembers_eq_readParts] at hmembers
    obtain ⟨w, rfl, hw⟩ := parts_of_read (takes_member (hitem reader rfl)) hmembers
    exact ⟨'{' :: (w ++ ['}']), by simp [hskip], Or.inr ⟨rfl, .object hw⟩⟩
  · rename_i t hskip
    obtain ⟨⟨_, u⟩, hword, hv⟩ := map_eq_ok_iff.mp hread
    cases hv
    exact ⟨_, by rw [hskip, readWord_eq_ok_iff.mp hword]; rfl, Or.inl .null⟩
  · rename_i t hskip
    obtain ⟨⟨_, u⟩, hword, hv⟩ := map_eq_ok_iff.mp hread
    cases hv
    exact ⟨_, by rw [hskip, readWord_eq_ok_iff.mp hword]; rfl, Or.inl .true⟩
  · rename_i t hskip
    obtain ⟨⟨_, u⟩, hword, hv⟩ := map_eq_ok_iff.mp hread
    cases hv
    exact ⟨_, by rw [hskip, readWord_eq_ok_iff.mp hword]; rfl, Or.inl .false⟩
  · rename_i c t _ _ _ _ hskip _ _
    split at hread
    · obtain ⟨⟨n, u⟩, hnumeral, hv⟩ := map_eq_ok_iff.mp hread
      cases hv
      obtain ⟨htext, hwell, hfinite⟩ := numeral_of_read hnumeral
      exact ⟨n.text, by rw [hskip, htext], Or.inl (.number hwell hfinite)⟩
    · cases hread

theorem readFlat_append {before : List Char} (h : Blank before)
    (item : Option (Reader Json)) (s : List Char) :
    readFlat item (before ++ s) = readFlat item s := by
  unfold readFlat
  rw [skipBlanks_append h]

theorem readFlat_numeral {c : Char} (hc : c = '-' ∨ c.isDigit = true)
    (item : Option (Reader Json)) (t : List Char) : readFlat item (c :: t) =
      (readNumeral (c :: t)).map fun (v, s) => (.number v, s) := by
  have hne {d : Char} := ne_of_starts_numeral hc (d := d)
  have hquote : c ≠ '"' := hne (by decide) rfl
  have hbracket : c ≠ '[' := hne (by decide) rfl
  have hbrace : c ≠ '{' := hne (by decide) rfl
  have hnull : c ≠ 'n' := hne (by decide) rfl
  have htrue : c ≠ 't' := hne (by decide) rfl
  have hfalse : c ≠ 'f' := hne (by decide) rfl
  unfold readFlat
  rw [(starts_of_starts_numeral hc t).skipBlanks_eq]
  -- the branches before the last one are ruled out by the facts above
  simp [hbracket, hbrace, hc]

theorem readFlat_scalar {body : List Char} {v : Json} (h : ScalarSpelling body v)
    (item : Option (Reader Json)) {before rest : List Char} (hbefore : Blank before)
    (hends : Ends rest) : readFlat item (before ++ (body ++ rest)) = .ok (v, rest) := by
  rw [readFlat_append hbefore]
  cases h with
  | null => rfl
  | true => rfl
  | false => rfl
  | @string s cs hcs =>
    have hread : readString (s ++ '"' :: rest) = .ok (String.ofList cs, rest) :=
      readString_eq_ok_iff.mpr ⟨s, cs, rfl, hcs, rfl⟩
    rw [List.cons_append, List.append_assoc, List.singleton_append]
    change (readString (s ++ '"' :: rest)).map _ = _
    rw [hread]
    rfl
  | @number n hwell hfinite =>
    obtain ⟨c, t, htext, hc⟩ := hwell.text_eq_cons
    have hread := readNumeral_append hwell hfinite hends
    rw [htext, List.cons_append] at hread ⊢
    rw [readFlat_numeral hc, hread]
    rfl

theorem readFlat_compound (hitem : Decodes inner .ok item) (hstarts : ∀ s v, inner s v → Starts s)
    {body : List Char} {v : Json} (h : CompoundSpelling inner body v) {before : List Char}
    (hbefore : Blank before) (rest : List Char) :
    readFlat (some item) (before ++ (body ++ rest)) = .ok (v, rest) := by
  rw [readFlat_append hbefore]
  cases h with
  | @array s items hitems =>
    rw [List.cons_append, List.append_assoc, List.singleton_append]
    change (readItems item (s ++ ']' :: rest)).map _ = _
    rw [readItems_eq_readParts, readParts_append (takes_item hitem)
      (fun _ _ h => h.opens hstarts) (Or.inl rfl) hitems]
    rfl
  | @object s members hmembers =>
    rw [List.cons_append, List.append_assoc, List.singleton_append]
    change (readMembers item (s ++ '}' :: rest)).map _ = _
    rw [readMembers_eq_readParts, readParts_append (takes_member hitem)
      (fun _ _ h => h.opens) (Or.inr rfl) hmembers]
    rfl

theorem padded_of_read {item : Option (Reader Json)}
    (hitem : ∀ reader ∈ item, Decodes inner .ok reader) {s rest : List Char} {v : Json}
    (hread : readFlat item s = .ok (v, rest)) :
    ∃ before body, Blank before ∧ s = before ++ (body ++ rest) ∧
      (ScalarSpelling body v ∨ item.isSome ∧ CompoundSpelling inner body v) := by
  obtain ⟨before, hbefore, hs⟩ := exists_skipBlanks s
  obtain ⟨body, hbody, hv⟩ := value_of_read hitem hread
  exact ⟨before, body, hbefore, hbody ▸ hs, hv⟩

/-- Reading a value and spelling it are the same thing. -/
theorem decodes_readValue (depth : Nat) : Decodes (Spells depth) .ok (readValue depth) := by
  induction depth with
  | zero =>
    have hitem : ∀ reader ∈ (none : Option (Reader Json)), Decodes (Spells 0) .ok reader := nofun
    constructor
    · intro s v rest hread
      obtain ⟨before, body, hbefore, hs, hv | hv⟩ := padded_of_read hitem hread
      · exact ⟨before, body, v, hbefore, hs, hv, rfl⟩
      · cases hv.1
    · intro before body v hbefore hv rest hends
      exact readFlat_scalar hv none hbefore hends
  | succ depth ih =>
    have hitem : ∀ reader ∈ some (readValue depth), Decodes (Spells depth) .ok reader := by
      rintro reader ⟨rfl⟩
      exact ih
    constructor
    · intro s v rest hread
      obtain ⟨before, body, hbefore, hs, hv⟩ := padded_of_read hitem hread
      exact ⟨before, body, v, hbefore, hs, hv.imp_right And.right, rfl⟩
    · rintro before body v hbefore (hv | hv) rest hends
      · exact readFlat_scalar hv _ hbefore hends
      · exact readFlat_compound ih (fun _ _ => Spells.starts) hv hbefore rest

end values

/-! ## Documents -/

section document

variable {inner : List Char → Json → Prop} {decode : Json → Except Fault γ} {reader : Reader γ}

theorem ends_of_blank {rest : List Char} (h : Blank rest) : Ends rest := by
  have hends : Ends (rest ++ []) := .of_blank h nofun
  rwa [List.append_nil] at hends

/-- A decoder makes of a whole text what it makes of its value. -/
theorem Decodes.read_padded (h : Decodes inner decode reader) {s : List Char} {v : Json}
    (hv : Padded inner s v) : ∃ after, Blank after ∧ reader s = (decode v).map (·, after) := by
  obtain ⟨hbefore, hv, hafter⟩ := hv
  exact ⟨_, hafter, h.complete hbefore hv (ends_of_blank hafter)⟩

theorem Decodes.padded_of_read (h : Decodes inner decode reader) {s rest : List Char} {g : γ}
    (hread : reader s = .ok (g, rest)) (hrest : Blank rest) :
    ∃ v, Padded inner s v ∧ decode v = .ok g := by
  obtain ⟨before, body, v, hbefore, rfl, hv, hdecode⟩ := h.sound hread
  exact ⟨v, .mk hbefore hv hrest, hdecode⟩

end document

theorem isDocument_iff_read (text : String) (v : Json) :
    IsDocument text v ↔ ∃ rest, readValue maxDepth text.toList = .ok (v, rest) ∧ Blank rest := by
  constructor
  · intro h
    obtain ⟨after, hafter, hread⟩ := (decodes_readValue maxDepth).read_padded h
    exact ⟨after, hread, hafter⟩
  · rintro ⟨rest, hread, hrest⟩
    obtain ⟨w, hw, hv⟩ := (decodes_readValue maxDepth).padded_of_read hread hrest
    cases hv
    exact hw

/-- A text spells one value at most. -/
theorem IsDocument.unique {text : String} {v w : Json} (hv : IsDocument text v)
    (hw : IsDocument text w) : v = w := by
  obtain ⟨rest, hread, -⟩ := (isDocument_iff_read text v).mp hv
  obtain ⟨rest', hread', -⟩ := (isDocument_iff_read text w).mp hw
  rw [hread] at hread'
  exact (Prod.mk.inj (Except.ok.inj hread')).1

end Json

end AudioFraming
