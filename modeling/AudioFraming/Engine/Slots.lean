import AudioFraming.Engine.Basic

/-!
# Slots

A table of instances. A handle is an index into it; a new instance goes into the
lowest empty slot, so handles of destroyed instances are used again.
-/

namespace AudioFraming

/-- Instances by handle. -/
structure Slots (α : Type) where
  cells : List (Option α) := []

namespace Slots

variable {α : Type}

/-- The index of the lowest empty cell, or the number of cells. -/
def firstEmpty : List (Option α) → Nat
  | [] => 0
  | none :: _ => 0
  | some _ :: rest => firstEmpty rest + 1

/-- The cells with the lowest empty one filled. -/
def fill (value : α) : List (Option α) → List (Option α)
  | [] => [some value]
  | none :: rest => some value :: rest
  | some v :: rest => some v :: fill value rest

def insert (s : Slots α) (value : α) : Handle × Slots α :=
  (⟨UInt32.ofNat (firstEmpty s.cells)⟩, ⟨fill value s.cells⟩)

def get? (s : Slots α) (h : Handle) : Option α := (s.cells[h.raw.toNat]?).join

/-- Empties the slot of a handle, if there is such a slot. -/
def erase (s : Slots α) (h : Handle) : Slots α := ⟨s.cells.set h.raw.toNat none⟩

/-- Replaces the instance of a handle, if there is such a slot. -/
def set (s : Slots α) (h : Handle) (value : α) : Slots α :=
  ⟨s.cells.set h.raw.toNat (some value)⟩

/-- How many instances there are. -/
def count (s : Slots α) : Nat := s.cells.countP Option.isSome

theorem count_insert (s : Slots α) (value : α) : (s.insert value).2.count = s.count + 1 := by
  obtain ⟨cells⟩ := s
  simp only [insert, count]
  induction cells with
  | nil => rfl
  | cons c rest ih => cases c <;> simp_all [fill]

end Slots

end AudioFraming
