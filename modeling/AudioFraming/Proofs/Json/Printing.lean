import AudioFraming.Proofs.Json.Reading

/-!
# Printing values

The compact text of a value spells it and no other (`isDocument_render_iff`), as long as
its numerals are numerals and it is not nested too deep (`Writable`). Every string can be
written, since the characters that may not stand in a text as they are have escapes, and
so can every natural number of 64 bits.
-/

namespace AudioFraming

namespace Json

/-! ## Strings -/

theorem hexValue?_hexDigit {n : Nat} (h : n < 16) : hexValue? (hexDigit n) = some n := by
  have hall : ∀ n < 16, hexValue? (hexDigit n) = some n := by decide
  exact hall n h

/-- A control character is written by its code. -/
theorem isUnit_control {n : Nat} (h : n < 32) :
    IsUnit ['0', '0', hexDigit (n / 16), hexDigit (n % 16)] n := by
  refine ⟨[0, 0, n / 16, n % 16], rfl, ?_, ?_⟩
  · have hhigh := hexValue?_hexDigit (n := n / 16) (by omega)
    have hlow := hexValue?_hexDigit (n := n % 16) (by omega)
    simp only [List.map_cons, List.map_nil, hhigh, hlow]
    rfl
  · simp only [List.foldl_cons, List.foldl_nil]
    omega

theorem eq_ofNat_of_toNat {c : Char} {n : Nat} (h : c.toNat = n) : c = Char.ofNat n := by
  rw [← h, Char.ofNat_toNat]

theorem charSpelling_escape (c : Char) : CharSpelling (escape c) c := by
  unfold escape
  split_ifs with hquote hescape hline hreturn htab hback hfeed hcontrol
  · subst hquote
    exact .short (by decide)
  · subst hescape
    exact .short (by decide)
  · subst hline
    exact .short (by decide)
  · subst hreturn
    exact .short (by decide)
  · subst htab
    exact .short (by decide)
  · obtain rfl := eq_ofNat_of_toNat hback
    exact .short (by decide)
  · obtain rfl := eq_ofNat_of_toNat hfeed
    exact .short (by decide)
  · have h := CharSpelling.code (isUnit_control hcontrol) (Or.inl (by omega))
    rwa [Char.ofNat_toNat] at h
  · exact .plain (by omega) hquote hescape

theorem charsSpelling_flatMap_escape (cs : List Char) :
    CharsSpelling (cs.flatMap escape) cs := by
  induction cs with
  | nil => exact .nil
  | cons c cs ih =>
    rw [List.flatMap_cons]
    exact .cons (charSpelling_escape c) ih

theorem scalarSpelling_quoted (s : String) : ScalarSpelling (quoted s) (.string s) := by
  have h := ScalarSpelling.string (charsSpelling_flatMap_escape s.toList)
  rwa [String.ofList_toList] at h

/-! ## Numbers -/

/-- No number but zero is spelled with a zero in front. -/
theorem head?_toDigits_ne {n : Nat} (h : 0 < n) : (Nat.toDigits 10 n).head? ≠ some '0' := by
  induction n using Nat.strong_induction_on with
  | _ n ih =>
    by_cases hlt : n < 10
    · rw [Nat.toDigits_of_lt_base hlt]
      interval_cases n <;> decide
    · rw [Nat.toDigits_of_base_le (by decide) (by omega), List.head?_append]
      have hrest := ih (n / 10) (by omega) (by omega)
      cases hhead : (Nat.toDigits 10 (n / 10)).head? with
      | none => exact absurd (List.head?_eq_none_iff.mp hhead) Nat.toDigits_ne_nil
      | some c =>
        rw [hhead] at hrest
        exact hrest

theorem Numeral.ofNat_wellFormed (n : Nat) : (Numeral.ofNat n).WellFormed where
  whole_ne_nil := Nat.toDigits_ne_nil
  whole_digits := fun c hc => Nat.isDigit_of_mem_toDigits (by decide) (by decide) hc
  whole_eq_zero := by
    intro h
    rcases Nat.eq_zero_or_pos n with rfl | hn
    · rfl
    · exact absurd h (head?_toDigits_ne hn)
  fraction_digits := nofun
  exponent_digits := nofun

theorem le_ofDigitChars (digits : List Char) (n : Nat) : n ≤ Nat.ofDigitChars 10 digits n := by
  induction digits generalizing n with
  | nil => exact Nat.le_refl n
  | cons c digits ih =>
    rw [Nat.ofDigitChars_cons]
    exact Nat.le_trans (by omega) (ih _)

/-- Digits are gathered to the last if their number fits. -/
theorem gather_of_lt {digits : List Char} {n : Nat} (h : Nat.ofDigitChars 10 digits n < 2 ^ 64) :
    gather n digits = (Nat.ofDigitChars 10 digits n, []) := by
  induction digits generalizing n with
  | nil => rfl
  | cons c digits ih =>
    rw [Nat.ofDigitChars_cons] at h ⊢
    have hnext : n * 10 + digitValue c = 10 * n + (c.toNat - '0'.toNat) := by
      rw [Nat.mul_comm, digitValue]
    have hfits : 10 * n + (c.toNat - '0'.toNat) < Nat.pow 2 64 :=
      Nat.lt_of_le_of_lt (le_ofDigitChars digits _) h
    rw [gather, hnext, if_pos hfits]
    exact ih h

theorem roundToDouble_le (n : Nat) : roundToDouble n ≤ 2 * n := by
  unfold roundToDouble
  generalize hunit : Nat.pow 2 (n.log2 + 1 - 53) = unit
  have hq : n / unit * unit ≤ n := Nat.div_mul_le_self n unit
  dsimp only
  split_ifs with hdown
  · omega
  · have hn : n ≠ 0 := by
      rintro rfl
      simp at hdown
    have hle : unit ≤ n := by
      rw [← hunit]
      exact Nat.le_trans (Nat.pow_le_pow_right (by decide) (by omega)) (Nat.log2_self_le hn)
    rw [Nat.add_mul, Nat.one_mul]
    omega

theorem Numeral.isFinite_ofNat {n : Nat} (h : n < 2 ^ 64) : (Numeral.ofNat n).isFinite = true := by
  have hgather : gather 0 (Nat.toDigits 10 n) = (n, []) := by
    have hvalue : Nat.ofDigitChars 10 (Nat.toDigits 10 n) 0 = n :=
      Nat.ofDigitChars_toDigits (by decide) (by decide)
    rw [gather_of_lt (by rwa [hvalue]), hvalue]
  have hscaled : (Numeral.ofNat n).scaled = (n, 0) := by
    simp [Numeral.scaled, Numeral.ofNat, hgather, gather]
  have hdouble : roundToDouble (roundToDouble n * roundToDouble (Nat.pow 10 0)) <
      Nat.pow 2 1024 := by
    have hone : roundToDouble (Nat.pow 10 0) = 1 := by decide
    have hpow : ∀ k, 66 ≤ k → 2 ^ 66 ≤ Nat.pow 2 k := fun k hk =>
      Nat.pow_le_pow_right (by decide) hk
    have h₁ := roundToDouble_le n
    have h₂ := roundToDouble_le (roundToDouble n)
    rw [hone, Nat.mul_one]
    calc
      roundToDouble (roundToDouble n) < 2 ^ 66 := by omega
      _ ≤ Nat.pow 2 1024 := hpow 1024 (by decide)
  rw [Numeral.isFinite, hscaled]
  exact Bool.or_eq_true_iff.mpr
    (Or.inr (Bool.and_eq_true_iff.mpr ⟨rfl, decide_eq_true hdouble⟩))

/-! ## Values -/

/-- The value is nested at most so deep, and its numerals can be read. -/
def Writable : Nat → Json → Prop
  | _, .null | _, .bool _ | _, .string _ => True
  | _, .number n => n.WellFormed ∧ n.isFinite = true
  | depth + 1, .array items => ∀ v ∈ items, Writable depth v
  | depth + 1, .object members => ∀ m ∈ members, Writable depth m.2
  | 0, .array _ | 0, .object _ => False

theorem Padded.of_inner {inner : List Char → Json → Prop} {s : List Char} {v : Json}
    (h : inner s v) : Padded inner s v := by
  have hpadded := Padded.mk Blank.nil h Blank.nil
  rwa [List.nil_append, List.append_nil] at hpadded

section parts

variable {inner : List Char → Json → Prop}

theorem partsSpelling_itemsText {items : List Json} (h : ∀ v ∈ items, inner v.text v) :
    PartsSpelling (Padded inner) (itemsText items) items := by
  cases items with
  | nil => exact .none Blank.nil
  | cons v items =>
    refine .some ?_
    induction items generalizing v with
    | nil => exact .last (.of_inner (h v (List.mem_cons_self ..)))
    | cons w items ih =>
      have hrest := ih w fun u hu => h u (List.mem_cons_of_mem _ hu)
      exact .more (.of_inner (h v (List.mem_cons_self ..))) hrest

theorem memberSpelling_text {key : String} {v : Json} (h : inner v.text v) :
    MemberSpelling inner (quoted key ++ ':' :: v.text) (key, v) := by
  have hm := MemberSpelling.mk Blank.nil (charsSpelling_flatMap_escape key.toList) Blank.nil
    (Padded.of_inner h)
  simpa [quoted] using hm

theorem partsSpelling_membersText {members : List (String × Json)}
    (h : ∀ m ∈ members, inner m.2.text m.2) :
    PartsSpelling (MemberSpelling inner) (membersText members) members := by
  cases members with
  | nil => exact .none Blank.nil
  | cons m members =>
    refine .some ?_
    induction members generalizing m with
    | nil => exact .last (memberSpelling_text (h m (List.mem_cons_self ..)))
    | cons n members ih =>
      have hrest := ih n fun u hu => h u (List.mem_cons_of_mem _ hu)
      exact .more (memberSpelling_text (h m (List.mem_cons_self ..))) hrest

end parts

theorem spells_text : ∀ {depth : Nat} {v : Json}, Writable depth v → Spells depth v.text v
  | depth, .null, _ => .of_scalar .null depth
  | depth, .bool true, _ => .of_scalar .true depth
  | depth, .bool false, _ => .of_scalar .false depth
  | depth, .number n, h => by
    simp only [Writable] at h
    exact .of_scalar (.number h.1 h.2) depth
  | depth, .string s, _ => .of_scalar (scalarSpelling_quoted s) depth
  | _ + 1, .array _, h =>
    Or.inr (.array (partsSpelling_itemsText fun v hv => spells_text (h v hv)))
  | _ + 1, .object _, h =>
    Or.inr (.object (partsSpelling_membersText fun m hm => spells_text (h m hm)))
  | 0, .array _, h => h.elim
  | 0, .object _, h => h.elim

/-- A text that is printed spells the value it is printed from, and no other. -/
theorem isDocument_render_iff {v : Json} (h : Writable maxDepth v) {w : Json} :
    IsDocument v.render w ↔ w = v := by
  have hv : IsDocument v.render v := by
    rw [IsDocument, render, String.toList_ofList]
    exact .of_inner (spells_text h)
  constructor
  · intro hw
    exact hw.unique hv
  · rintro rfl
    exact hv

end Json

end AudioFraming
