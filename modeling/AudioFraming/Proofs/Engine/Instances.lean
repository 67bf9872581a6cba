import AudioFraming.Engine.Slots
import Mathlib.Tactic

/-!
# Which handles are live

A table of instances, seen through `get?`: a new instance appears under a handle
that named none, an erased one disappears, and nothing else changes.

A handle has 32 bits. Once every handle names an instance, the next instance gets a
handle that is taken already; `get?_handle_eq_none_iff` tells the two cases apart.
-/

namespace AudioFraming

namespace Slots

variable {α : Type}

theorem fill_getElem? (value : α) (cells : List (Option α)) (i : Nat) :
    (fill value cells)[i]?.join =
      if i = firstEmpty cells then some value else cells[i]?.join := by
  induction cells generalizing i with
  | nil => cases i <;> simp [fill, firstEmpty]
  | cons c rest ih =>
    cases c <;> cases i <;> simp [fill, firstEmpty, ih]

theorem firstEmpty_getElem? (cells : List (Option α)) : cells[firstEmpty cells]?.join = none := by
  induction cells with
  | nil => rfl
  | cons c rest ih => cases c <;> simp [firstEmpty, ih]

theorem isSome_of_lt_firstEmpty {cells : List (Option α)} {i : Nat} (h : i < firstEmpty cells) :
    cells[i]?.join.isSome := by
  induction cells generalizing i with
  | nil => cases h
  | cons c rest ih =>
    cases c with
    | none => cases h
    | some v =>
      cases i with
      | zero => rfl
      | succ i => simpa using ih (Nat.lt_of_succ_lt_succ h)

theorem get?_erase (s : Slots α) (h k : Handle) :
    (s.erase h).get? k = if k = h then none else s.get? k := by
  have hk : h.raw.toNat = k.raw.toNat ↔ k = h := by
    rw [UInt32.toNat_inj]
    constructor
    · intro e
      cases h
      cases k
      exact congrArg Handle.mk e.symm
    · rintro rfl
      rfl
  simp only [erase, get?, List.getElem?_set, hk]
  split_ifs <;> rfl

/-- Erasing ends one instance, if the handle names one. -/
theorem count_erase {s : Slots α} {h : Handle} {value : α} (hget : s.get? h = some value) :
    (s.erase h).count + 1 = s.count := by
  obtain ⟨cells⟩ := s
  simp only [get?, erase, count] at hget ⊢
  generalize h.raw.toNat = i at hget ⊢
  induction cells generalizing i with
  | nil => cases hget
  | cons c rest ih =>
    cases i with
    | zero =>
      obtain rfl : c = some value := by simpa using hget
      simp
    | succ i =>
      have hrest := ih i (by simpa using hget)
      simp only [List.set_cons_succ, List.countP_cons]
      omega

/-- What a handle names after an instance has been inserted. -/
theorem get?_insert (s : Slots α) (value : α) (k : Handle) :
    (s.insert value).2.get? k =
      if k.raw.toNat = firstEmpty s.cells then some value else s.get? k :=
  fill_getElem? value s.cells k.raw.toNat

theorem toNat_raw_insert (s : Slots α) (value : α) :
    (s.insert value).1.raw.toNat = firstEmpty s.cells % 2 ^ 32 := rfl

/-- The handle of an insertion names an instance afterwards. -/
theorem isSome_get?_insert (s : Slots α) (value : α) :
    ((s.insert value).2.get? (s.insert value).1).isSome := by
  rw [get?_insert, toNat_raw_insert]
  split_ifs with h
  · rfl
  · have hlt : firstEmpty s.cells % 2 ^ 32 < firstEmpty s.cells :=
      Nat.lt_of_le_of_ne (Nat.mod_le _ _) h
    exact isSome_of_lt_firstEmpty hlt

theorem firstEmpty_lt {s : Slots α} (hfree : ∃ k, s.get? k = none) :
    firstEmpty s.cells < 2 ^ 32 := by
  obtain ⟨k, hk⟩ := hfree
  by_contra h
  have hlt : k.raw.toNat < firstEmpty s.cells :=
    Nat.lt_of_lt_of_le k.raw.toNat_lt (Nat.le_of_not_lt h)
  have hsome := isSome_of_lt_firstEmpty hlt
  rw [show s.cells[k.raw.toNat]?.join = none from hk] at hsome
  cases hsome

/-- An insertion finds an unused handle exactly if there is one. -/
theorem get?_handle_eq_none_iff (s : Slots α) (value : α) :
    s.get? (s.insert value).1 = none ↔ ∃ k, s.get? k = none := by
  constructor
  · exact fun h => ⟨_, h⟩
  · intro hfree
    have hraw := s.toNat_raw_insert value
    rw [Nat.mod_eq_of_lt (firstEmpty_lt hfree)] at hraw
    rw [get?, hraw]
    exact firstEmpty_getElem? s.cells

/-- With an unused handle left, an insertion changes what its own handle names, and no other. -/
theorem get?_insert_of_ne {s : Slots α} (value : α) {k : Handle} (hfree : ∃ k, s.get? k = none)
    (hk : k ≠ (s.insert value).1) : (s.insert value).2.get? k = s.get? k := by
  rw [get?_insert, if_neg]
  intro h
  apply hk
  have hraw := s.toNat_raw_insert value
  rw [Nat.mod_eq_of_lt (firstEmpty_lt hfree), ← h] at hraw
  cases k
  exact congrArg Handle.mk (UInt32.toNat_inj.mp hraw.symm)

end Slots

end AudioFraming
