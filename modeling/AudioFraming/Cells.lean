import AudioFraming.Sample

/-!
# Rows of cells

Rings and arenas keep their samples in a row of cells. They read and write runs of
neighbouring cells; a run that reaches past the end is cut there.

A row can be far longer than what is ever written to it. So it is cut into pages,
and each page, like the list of pages, is stored only as far as it has been
written; what is not stored is silent. `get` looks a cell up, and each operation is
described by what it does to `get`.
-/

namespace AudioFraming

structure Cells where
  size : Nat
  pages : Array (Array Sample)

namespace Cells

/-- Cells in a page. -/
def pageSize : Nat := 4096

/-- A row of silent cells. -/
def ofSize (size : Nat) : Cells := ⟨size, #[]⟩

def get (c : Cells) (i : Nat) : Sample :=
  (c.pages.getD (i / pageSize) #[]).getD (i % pageSize) .zero

/-! ## Reading -/

/-- `n` samples of a page, with others after them. -/
def readPage (page : Array Sample) (start n : Nat) (rest : List Sample) : List Sample :=
  let stored := page.extract start (start + n)
  stored.toListAppend (Sample.silence (n - stored.size) ++ rest)

/-- `n` samples, page by page, from at most so many pages. -/
def readPages (c : Cells) : Nat → Nat → Nat → List Sample
  | 0, _, _ => []
  | pages + 1, start, n =>
    let here := pageSize - start % pageSize
    readPage (c.pages.getD (start / pageSize) #[]) (start % pageSize) (min n here)
      (readPages c pages (start + here) (n - here))

/-- The samples in the `n` cells from `start` on. -/
def read (c : Cells) (start n : Nat) : List Sample :=
  let n := min n (c.size - start)
  c.readPages ((start % pageSize + n) / pageSize + 1) start n

/-! ## Writing -/

/-- The first `n` samples of a block. A block that is no longer is not copied. -/
def cut (block : List Sample) (n : Nat) : List Sample :=
  if (block.drop n).isEmpty then block else block.take n

/-- At least the first `n` elements of an array in which missing elements count as `fill`. -/
def grow {α : Type} (a : Array α) (fill : α) (n : Nat) : Array α :=
  if a.size < n then a ++ Array.replicate (n - a.size) fill else a

/-- Writes a block over the elements from `start` on. -/
def overwrite (page : Array Sample) (start : Nat) : List Sample → Array Sample
  | [] => page
  | s :: rest => overwrite (page.setIfInBounds start s) (start + 1) rest

/-- The page after a block has been written from `start` on. -/
def writePage (page : Array Sample) (start : Nat) (block : List Sample) : Array Sample :=
  overwrite (grow page .zero (start + block.length)) start block

/-- Writes a block page by page, to at most so many pages. -/
def writePages : Nat → Cells → Nat → List Sample → Cells
  | 0, c, _, _ => c
  | pages + 1, c, start, block =>
    let here := pageSize - start % pageSize
    let changed := (grow c.pages #[] (start / pageSize + 1)).modify (start / pageSize) fun page =>
      writePage page (start % pageSize) (cut block here)
    writePages pages { c with pages := changed } (start + here) (block.drop here)

/-- The cells after a block has been written from `start` on. -/
def write (c : Cells) (start : Nat) (block : List Sample) : Cells :=
  let block := cut block (c.size - start)
  if block = [] then c
  else writePages ((start % pageSize + block.length) / pageSize + 1) c start block

/-- The cells after the `n` cells from `start` on have been silenced. -/
def silence (c : Cells) (start n : Nat) : Cells :=
  { c with
    pages := c.pages.mapIdx fun k page => page.mapIdx fun i s =>
      if start ≤ k * pageSize + i ∧ k * pageSize + i < start + n then .zero else s }

/-! ## What reading finds -/

@[simp] theorem size_ofSize (size : Nat) : (ofSize size).size = size := rfl

@[simp] theorem get_ofSize (size i : Nat) : (ofSize size).get i = .zero := by
  simp [get, ofSize]

theorem readPage_getElem? (page : Array Sample) (start n : Nat) (rest : List Sample) (i : Nat) :
    (readPage page start n rest)[i]? =
      if i < n then some (page.getD (start + i) .zero) else rest[i - n]? := by
  simp only [readPage, Array.toListAppend_eq, Sample.silence, List.getElem?_append,
    Array.length_toList, Array.size_extract, Array.getElem?_toList, Array.getElem?_extract,
    List.length_replicate, List.getElem?_replicate, Array.getD_eq_getD_getElem?]
  by_cases hi : i < n
  · rw [if_pos hi]
    by_cases hs : start + i < page.size
    · have h : i < min (start + n) page.size - start := by omega
      simp [h, hs]
    · have h : ¬i < min (start + n) page.size - start := by omega
      have h' : i - (min (start + n) page.size - start) <
          n - (min (start + n) page.size - start) := by omega
      rw [if_neg h, if_pos h', if_pos h', Array.getElem?_eq_none (by omega)]
      rfl
  · rw [if_neg hi, if_neg (by omega), if_neg (by omega)]
    congr 1
    omega

theorem readPages_getElem? (c : Cells) (pages start n i : Nat)
    (h : start % pageSize + n ≤ pages * pageSize) :
    (c.readPages pages start n)[i]? = if i < n then some (c.get (start + i)) else none := by
  induction pages generalizing start n i with
  | zero =>
    have : n = 0 := by omega
    subst this
    rfl
  | succ pages ih =>
    have hp : pageSize = 4096 := rfl
    rw [hp] at h ih
    simp only [readPages, hp, readPage_getElem?]
    by_cases hi : i < min n (4096 - start % 4096)
    · have h1 : (start + i) / 4096 = start / 4096 := by omega
      have h2 : (start + i) % 4096 = start % 4096 + i := by omega
      rw [if_pos hi, if_pos (by omega), get, hp, h1, h2]
    · rw [if_neg hi, ih _ _ _ (by omega)]
      by_cases hn : i < n
      · rw [if_pos hn, if_pos (by omega)]
        congr 2
        omega
      · rw [if_neg hn, if_neg (by omega)]

theorem read_getElem? (c : Cells) (start n i : Nat) :
    (c.read start n)[i]? =
      if i < n ∧ start + i < c.size then some (c.get (start + i)) else none := by
  have hp : pageSize = 4096 := rfl
  rw [read, readPages_getElem? _ _ _ _ _ (by rw [hp]; omega)]
  by_cases h : i < n ∧ start + i < c.size
  · rw [if_pos h, if_pos (by omega)]
  · rw [if_neg h, if_neg (by omega)]

theorem length_readPages (c : Cells) (pages start n : Nat)
    (h : start % pageSize + n ≤ pages * pageSize) : (c.readPages pages start n).length = n := by
  apply Nat.le_antisymm
  · rw [← List.getElem?_eq_none_iff, readPages_getElem? _ _ _ _ _ h, if_neg (by omega)]
  · rcases Nat.eq_zero_or_pos n with rfl | hn
    · exact Nat.zero_le _
    · have : (c.readPages pages start n)[n - 1]? ≠ none := by
        rw [readPages_getElem? _ _ _ _ _ h, if_pos (by omega)]
        exact Option.some_ne_none _
      rw [ne_eq, List.getElem?_eq_none_iff] at this
      omega

theorem length_read (c : Cells) (start n : Nat) :
    (c.read start n).length = min n (c.size - start) := by
  have hp : pageSize = 4096 := rfl
  exact c.length_readPages _ _ _ (by rw [hp]; omega)

/-! ## What writing changes -/

theorem cut_eq_take (block : List Sample) (n : Nat) : cut block n = block.take n := by
  unfold cut
  split
  · rename_i h
    exact (List.take_of_length_le (List.drop_eq_nil_iff.mp (List.isEmpty_iff.mp h))).symm
  · rfl

theorem getD_grow {α : Type} (a : Array α) (fill : α) (n i : Nat) :
    (grow a fill n).getD i fill = a.getD i fill := by
  simp only [grow, Array.getD_eq_getD_getElem?]
  split
  · rw [Array.getElem?_append]
    by_cases hi : i < a.size
    · rw [if_pos hi]
    · rw [if_neg hi, Array.getElem?_eq_none (by omega : a.size ≤ i), Array.getElem?_replicate]
      split <;> rfl
  · rfl

theorem le_size_grow {α : Type} (a : Array α) (fill : α) (n : Nat) : n ≤ (grow a fill n).size := by
  unfold grow
  split
  · simp
    omega
  · omega

theorem getD_modify {α : Type} (a : Array α) (fill : α) (i j : Nat) (f : α → α)
    (h : i < a.size) :
    (a.modify i f).getD j fill = if i = j then f (a.getD j fill) else a.getD j fill := by
  simp only [Array.getD_eq_getD_getElem?, Array.getElem?_modify]
  by_cases hj : i = j
  · subst hj
    simp [h]
  · rw [if_neg hj, if_neg hj]

theorem getD_overwrite (page : Array Sample) (start : Nat) (block : List Sample) (i : Nat)
    (h : start + block.length ≤ page.size) :
    (overwrite page start block).getD i .zero =
      if start ≤ i then block.getD (i - start) (page.getD i .zero) else page.getD i .zero := by
  induction block generalizing page start with
  | nil => simp [overwrite]
  | cons s rest ih =>
    rw [List.length_cons] at h
    rw [overwrite, ih _ _ (by rw [Array.size_setIfInBounds]; omega)]
    simp only [Array.getD_eq_getD_getElem?, Array.getElem?_setIfInBounds]
    by_cases hi : start = i
    · subst hi
      have h1 : ¬start + 1 ≤ start := by omega
      have h2 : start < page.size := by omega
      simp [h1, h2]
    · rw [if_neg hi]
      by_cases hle : start ≤ i
      · have : i - start = i - (start + 1) + 1 := by omega
        rw [if_pos hle, if_pos (by omega), this, List.getD_cons_succ]
      · rw [if_neg hle, if_neg (by omega)]

theorem getD_writePage (page : Array Sample) (start : Nat) (block : List Sample) (i : Nat) :
    (writePage page start block).getD i .zero =
      if start ≤ i then block.getD (i - start) (page.getD i .zero) else page.getD i .zero := by
  rw [writePage, getD_overwrite _ _ _ _ (le_size_grow _ _ _), getD_grow]

theorem get_writePages (pages : Nat) (c : Cells) (start : Nat) (block : List Sample) (i : Nat)
    (h : start % pageSize + block.length ≤ pages * pageSize) :
    (writePages pages c start block).get i =
      if start ≤ i then block.getD (i - start) (c.get i) else c.get i := by
  induction pages generalizing c start block with
  | zero =>
    have : block = [] := List.eq_nil_of_length_eq_zero (by omega)
    subst this
    simp [writePages]
  | succ pages ih =>
    have hp : pageSize = 4096 := rfl
    rw [hp] at h ih
    rw [writePages, ih _ _ _ (by simp only [List.length_drop, hp]; omega)]
    simp only [get, hp, getD_modify _ _ _ _ _ (le_size_grow _ _ _), getD_grow]
    by_cases hk : start / 4096 = i / 4096
    · rw [if_neg (by omega), if_pos hk, getD_writePage, cut_eq_take]
      by_cases hi : start ≤ i
      · have e : i % 4096 - start % 4096 = i - start := by omega
        rw [if_pos (by omega), if_pos hi, e]
        simp only [List.getD_eq_getElem?_getD]
        rw [List.getElem?_take, if_pos (by omega)]
      · rw [if_neg (by omega), if_neg hi]
    · rw [if_neg hk]
      by_cases hi : start ≤ i
      · have e : 4096 - start % 4096 + (i - (start + (4096 - start % 4096))) = i - start := by
          omega
        rw [if_pos (by omega), if_pos hi]
        simp only [List.getD_eq_getElem?_getD, List.getElem?_drop, e]
      · rw [if_neg (by omega), if_neg hi]

@[simp] theorem size_writePages (pages : Nat) (c : Cells) (start : Nat) (block : List Sample) :
    (writePages pages c start block).size = c.size := by
  induction pages generalizing c start block with
  | zero => rfl
  | succ pages ih => rw [writePages, ih]

@[simp] theorem size_write (c : Cells) (start : Nat) (block : List Sample) :
    (c.write start block).size = c.size := by
  unfold write
  dsimp only
  split
  · rfl
  · exact size_writePages _ _ _ _

/-- A write changes the cells of its run and no other. -/
theorem get_write (c : Cells) (start : Nat) (block : List Sample) (i : Nat) :
    (c.write start block).get i =
      if start ≤ i ∧ i < c.size then block.getD (i - start) (c.get i) else c.get i := by
  have hp : pageSize = 4096 := rfl
  have key : (c.write start block).get i =
      if start ≤ i then (block.take (c.size - start)).getD (i - start) (c.get i)
      else c.get i := by
    unfold write
    rw [cut_eq_take]
    dsimp only
    split
    · rename_i hb
      rw [hb]
      simp
    · exact get_writePages _ _ _ _ _ (by rw [hp]; omega)
  rw [key]
  by_cases hs : start ≤ i
  · rw [if_pos hs]
    simp only [List.getD_eq_getElem?_getD, List.getElem?_take]
    by_cases hi : i < c.size
    · rw [if_pos (by omega), if_pos ⟨hs, hi⟩]
    · rw [if_neg (by omega), if_neg (by omega)]
      rfl
  · rw [if_neg hs, if_neg (by omega)]

@[simp] theorem size_silence (c : Cells) (start n : Nat) : (c.silence start n).size = c.size := rfl

theorem get_silence (c : Cells) (start n i : Nat) :
    (c.silence start n).get i = if start ≤ i ∧ i < start + n then .zero else c.get i := by
  have hi : i / pageSize * pageSize + i % pageSize = i := Nat.div_add_mod' i pageSize
  simp only [get, silence, Array.getD_eq_getD_getElem?, Array.getElem?_mapIdx]
  cases c.pages[i / pageSize]? with
  | none => simp
  | some page =>
    simp only [Option.map_some, Option.getD_some, Array.getElem?_mapIdx, hi]
    cases page[i % pageSize]? <;> simp

end Cells

end AudioFraming
