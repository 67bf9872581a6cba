import AudioFraming.Json.Reader
import Mathlib.Data.List.TakeWhile
import Mathlib.Tactic

/-!
# The grammar of JSON texts

Which texts spell which values, without regard to how they are read. Characters of a
string can be written as they are or escaped, blanks can stand around every value,
key, colon and comma, and a numeral is spelled in one way only, since a `Numeral` keeps
its spelling. `Spells` is indexed by how deep arrays and objects may still be nested: a
value that may not be nested any deeper is a scalar, and any other is a scalar, or an
array or object of values that may be nested one less.

That a text spells one value at most is proved beside the readers (`IsDocument.unique`).
-/

namespace AudioFraming

namespace Json

/-- Nothing but blanks. -/
def Blank (s : List Char) : Prop := ∀ c ∈ s, isBlank c = true

/-! ## Numerals -/

def AllDigits (s : List Char) : Prop := ∀ c ∈ s, c.isDigit = true

/-- All parts are digits, there are some wherever there must be some, and a whole part that begins
with a zero is that zero. -/
structure Numeral.WellFormed (n : Numeral) : Prop where
  whole_ne_nil : n.whole ≠ []
  whole_digits : AllDigits n.whole
  whole_eq_zero : n.whole.head? = some '0' → n.whole = ['0']
  fraction_digits : AllDigits n.fraction
  exponent_digits : ∀ e ∈ n.exponent, e.digits ≠ [] ∧ AllDigits e.digits

/-! ## Strings -/

/-- What follows the backslash in the short escapes, and the character meant. -/
def shortEscapes : List (Char × Char) :=
  [('"', '"'), ('\\', '\\'), ('/', '/'), ('b', Char.ofNat 8), ('f', Char.ofNat 12),
    ('n', '\n'), ('r', '\r'), ('t', '\t')]

/-- Four hexadecimal digits, and their value in base 16. -/
def IsUnit (w : List Char) (unit : Nat) : Prop :=
  ∃ digits : List Nat, digits.length = 4 ∧ w.map hexValue? = digits.map some ∧
    unit = digits.foldl (fun n digit => n * 16 + digit) 0

/-- The ways to write a character inside a string. A code of its own has no character in the range
of the surrogates; there two codes, a high one and a low one, make a character together. -/
inductive CharSpelling : List Char → Char → Prop
  | plain {c : Char} (hcontrol : 32 ≤ c.toNat) (hquote : c ≠ '"') (hescape : c ≠ '\\') :
      CharSpelling [c] c
  | short {c d : Char} (h : (c, d) ∈ shortEscapes) : CharSpelling ['\\', c] d
  | code {w : List Char} {unit : Nat} (hw : IsUnit w unit)
      (h : unit < 0xD800 ∨ 0xE000 ≤ unit) : CharSpelling ('\\' :: 'u' :: w) (Char.ofNat unit)
  | pair {w v : List Char} {high low : Nat} (hw : IsUnit w high) (hv : IsUnit v low)
      (hhigh : 0xD800 ≤ high ∧ high < 0xDC00) (hlow : 0xDC00 ≤ low ∧ low < 0xE000) :
      CharSpelling ('\\' :: 'u' :: (w ++ '\\' :: 'u' :: v))
        (Char.ofNat (0x10000 + (high - 0xD800) * 0x400 + (low - 0xDC00)))

/-- What stands between the quotes of a string, and the characters of the string. -/
inductive CharsSpelling : List Char → List Char → Prop
  | nil : CharsSpelling [] []
  | cons {w s cs : List Char} {c : Char} (hc : CharSpelling w c) (h : CharsSpelling s cs) :
      CharsSpelling (w ++ s) (c :: cs)

/-! ## Values -/

inductive ScalarSpelling : List Char → Json → Prop
  | null : ScalarSpelling ['n', 'u', 'l', 'l'] .null
  | true : ScalarSpelling ['t', 'r', 'u', 'e'] (.bool true)
  | false : ScalarSpelling ['f', 'a', 'l', 's', 'e'] (.bool false)
  | number {n : Numeral} (hwell : n.WellFormed) (hfinite : n.isFinite = true) :
      ScalarSpelling n.text (.number n)
  | string {s cs : List Char} (h : CharsSpelling s cs) :
      ScalarSpelling ('"' :: (s ++ ['"'])) (.string (String.ofList cs))

/-- One part or more, with commas between them. -/
inductive Separated {α : Type} (part : List Char → α → Prop) : List Char → List α → Prop
  | last {s : List Char} {a : α} (h : part s a) : Separated part s [a]
  | more {s t : List Char} {a : α} {as : List α} (h : part s a) (hrest : Separated part t as) :
      Separated part (s ++ ',' :: t) (a :: as)

/-- What stands between the brackets of an array or an object: its parts, or only blanks. -/
inductive PartsSpelling {α : Type} (part : List Char → α → Prop) : List Char → List α → Prop
  | none {s : List Char} (h : Blank s) : PartsSpelling part s []
  | some {s : List Char} {as : List α} (h : Separated part s as) : PartsSpelling part s as

/-- A value between blanks. -/
inductive Padded (inner : List Char → Json → Prop) : List Char → Json → Prop
  | mk {before body after : List Char} {v : Json} (hbefore : Blank before)
      (h : inner body v) (hafter : Blank after) : Padded inner (before ++ (body ++ after)) v

/-- A key, a colon and a value, with blanks around each. -/
inductive MemberSpelling (inner : List Char → Json → Prop) : List Char → String × Json → Prop
  | mk {before key middle s cs : List Char} {v : Json} (hbefore : Blank before)
      (hkey : CharsSpelling key cs) (hmiddle : Blank middle) (hv : Padded inner s v) :
      MemberSpelling inner (before ++ '"' :: (key ++ '"' :: (middle ++ ':' :: s)))
        (String.ofList cs, v)

inductive CompoundSpelling (inner : List Char → Json → Prop) : List Char → Json → Prop
  | array {s : List Char} {items : List Json} (h : PartsSpelling (Padded inner) s items) :
      CompoundSpelling inner ('[' :: (s ++ [']'])) (.array items)
  | object {s : List Char} {members : List (String × Json)}
      (h : PartsSpelling (MemberSpelling inner) s members) :
      CompoundSpelling inner ('{' :: (s ++ ['}'])) (.object members)

/-- The text spells the value, in which arrays and objects are nested at most so deep. -/
def Spells : Nat → List Char → Json → Prop
  | 0, s, v => ScalarSpelling s v
  | depth + 1, s, v => ScalarSpelling s v ∨ CompoundSpelling (Spells depth) s v

/-- A whole text is one value between blanks, with arrays and objects nested at most 127 deep. -/
def IsDocument (text : String) (v : Json) : Prop := Padded (Spells 127) text.toList v

/-! ## Blanks -/

theorem Blank.nil : Blank [] := nofun

/-- A text is its leading blanks and what they hide. -/
theorem exists_skipBlanks (s : List Char) : ∃ before, Blank before ∧ s = before ++ skipBlanks s :=
  ⟨s.takeWhile isBlank, fun _ => List.mem_takeWhile_imp, List.takeWhile_append_dropWhile.symm⟩

@[simp] theorem skipBlanks_append {before : List Char} (h : Blank before) (s : List Char) :
    skipBlanks (before ++ s) = skipBlanks s :=
  List.dropWhile_append_of_pos h

theorem skipBlanks_eq_nil {s : List Char} (h : Blank s) : skipBlanks s = [] :=
  List.dropWhile_eq_nil_iff.mpr h

theorem Spells.of_scalar {s : List Char} {v : Json} (h : ScalarSpelling s v) (depth : Nat) :
    Spells depth s v := by
  cases depth with
  | zero => exact h
  | succ depth => exact Or.inl h

end Json

end AudioFraming
