import AudioFraming.Proofs.Checked
import AudioFraming.Proofs.SampleRing.BoundedQueue

/-!
# Rings without guarantees

A `PlainRing` has the fields of a ring and nothing that relates them. Its calls
check every step: each difference must not be negative, each run of cells or
samples must lie inside its row, and a block is copied only over a run of its own
length. A call that breaks one of these rules has no result.

Started empty, a plain ring never breaks one (`run?_plain`): it goes through the
states of a ring, whose invariants are thus kept by the arithmetic alone. With the
view of `BoundedQueue` this makes every run a run of the queue.
-/

namespace AudioFraming

namespace Cells

/-- The samples from cell `start` up to cell `stop`. -/
def slice? (c : Cells) (start stop : Nat) : Option (List Sample) :=
  if start ≤ stop ∧ stop ≤ c.size then some (c.read start (stop - start)) else none

/-- Copies a block over the cells from `start` up to `stop`. -/
def copy? (c : Cells) (start stop : Nat) (block : List Sample) : Option Cells :=
  if start ≤ stop ∧ stop ≤ c.size ∧ block.length = stop - start then some (c.write start block)
  else none

theorem slice?_eq_some {c : Cells} {start n : Nat} (h : start + n ≤ c.size) :
    c.slice? start (start + n) = some (c.read start n) := by
  rw [slice?, if_pos ⟨Nat.le_add_right _ _, h⟩, Nat.add_sub_cancel_left]

theorem copy?_eq_some {c : Cells} {start : Nat} {block : List Sample}
    (h : start + block.length ≤ c.size) :
    c.copy? start (start + block.length) block = some (c.write start block) := by
  rw [copy?, if_pos ⟨Nat.le_add_right _ _, h, by omega⟩]

end Cells

/-- The fields of a ring. -/
structure PlainRing where
  cells : Cells
  readIndex : Nat := 0
  writeIndex : Nat := 0
  available : Nat := 0
  tally : RingTally := {}

namespace PlainRing

/-- Moves the read index past the `n` oldest samples. -/
def skip? (r : PlainRing) (n : Nat) : Option PlainRing := do
  let available ← sub? r.available n
  return { r with readIndex := (r.readIndex + n) % r.cells.size, available := available }

/-- Evicts what is too much for `n` more samples. -/
def makeRoom? (r : PlainRing) (n : Nat) : Option PlainRing := do
  let free ← sub? r.cells.size r.available
  if free < n then
    let deficit ← sub? n free
    let skipped ← r.skip? deficit
    return { skipped with tally := { r.tally with
      overflows := r.tally.overflows + 1
      evicted := r.tally.evicted + deficit } }
  else return r

/-- Copies a block into the cells in two pieces, the second one at their start. -/
def append? (r : PlainRing) (block : List Sample) : Option PlainRing := do
  let toEnd ← sub? r.cells.size r.writeIndex
  let tail := min block.length toEnd
  let rest ← sub? block.length tail
  let cells ← r.cells.copy? r.writeIndex (r.writeIndex + tail) (block.take tail)
  let cells ← cells.copy? 0 rest (block.drop tail)
  return { r with
    cells := cells
    writeIndex := (r.writeIndex + block.length) % r.cells.size
    available := r.available + block.length }

def push? (r : PlainRing) (block : List Sample) : Option (RingAnswer × PlainRing) :=
  if block.length = 0 then
    some (.pushed 0, { r with tally := { r.tally with emptyPushes := r.tally.emptyPushes + 1 } })
  else if r.cells.size < block.length then
    some (.refused (.pushExceedsCapacity block.length r.cells.size), r)
  else do
    let roomy ← r.makeRoom? block.length
    let filled ← roomy.append? block
    return (.pushed block.length, filled)

/-- The `n` oldest samples, from two runs of cells, the second one at their start. -/
def oldest? (r : PlainRing) (n : Nat) : Option (List Sample) := do
  let toEnd ← sub? r.cells.size r.readIndex
  let tail := min n toEnd
  let rest ← sub? n tail
  let first ← r.cells.slice? r.readIndex (r.readIndex + tail)
  let second ← r.cells.slice? 0 rest
  return first ++ second

def pull? (r : PlainRing) (destination : List Sample) : Option (RingAnswer × PlainRing) :=
  let n := destination.length
  if n = 0 then some (.pulled 0 destination, r)
  else if r.available < n then
    some (.pulled 0 destination,
      { r with tally := { r.tally with underflows := r.tally.underflows + 1 } })
  else do
    let block ← r.oldest? n
    let skipped ← r.skip? n
    return (.pulled n block, skipped)

def clear (r : PlainRing) : PlainRing := { r with readIndex := 0, writeIndex := 0, available := 0 }

def call? (r : PlainRing) (c : RingCall) : Option (RingReport × PlainRing) := do
  let (answer, r) ← match c with
    | .push block => r.push? block
    | .pull destination => r.pull? destination
    | .clear => some (.cleared, r.clear)
  let free ← sub? r.cells.size r.available
  return (⟨answer, r.available, free, r.tally⟩, r)

def run? : List RingCall → PlainRing → Option (List RingReport × PlainRing)
  | [], r => some ([], r)
  | c :: rest, r => do
    let (report, r) ← r.call? c
    let (reports, r) ← run? rest r
    return (report :: reports, r)

end PlainRing

namespace SampleRing

/-- The fields of a ring, without what is known about them. -/
def plain (r : SampleRing) : PlainRing :=
  ⟨r.cells, r.readIndex, r.writeIndex, r.available, r.tally⟩

@[simp] theorem size_cells_plain (r : SampleRing) : r.plain.cells.size = r.capacity := rfl

@[simp] theorem available_plain (r : SampleRing) : r.plain.available = r.available := rfl

theorem skip?_plain (r : SampleRing) {n : Nat} (h : n ≤ r.available) :
    r.plain.skip? n = some (r.skip n h).plain := by
  simp [PlainRing.skip?, plain, sub?_eq_some h, skip]

theorem makeRoom?_plain (r : SampleRing) {n : Nat} (h : n ≤ r.capacity) :
    r.plain.makeRoom? n = some (r.makeRoom n h).plain := by
  have hf : sub? r.plain.cells.size r.plain.available = some r.free :=
    sub?_eq_some r.available_le
  unfold PlainRing.makeRoom? makeRoom
  rw [hf]
  by_cases hn : r.free < n
  · have hd : sub? n r.free = some (n - r.free) := sub?_eq_some (Nat.le_of_lt hn)
    simp only [Option.bind_eq_bind, Option.bind_some, if_pos hn, hd,
      r.skip?_plain (r.deficit_le h)]
    rfl
  · simp only [Option.bind_eq_bind, Option.bind_some, if_neg hn]
    rfl

theorem append?_plain (r : SampleRing) {block : List Sample} (h : block.length ≤ r.free) :
    r.plain.append? block = some (r.append block h).plain := by
  have hw : r.writeIndex < r.cells.size := r.writeIndex_lt
  have hb : block.length ≤ r.cells.size := Nat.le_trans h (Nat.sub_le _ _)
  have hi : sub? r.plain.cells.size r.plain.writeIndex = some (r.cells.size - r.writeIndex) :=
    sub?_eq_some (Nat.le_of_lt hw)
  have hr := sub?_eq_some (Nat.min_le_left block.length (r.cells.size - r.writeIndex))
  -- The first piece ends with the row at the latest, the second one is what is left of a block
  -- that is no longer than the row.
  have hfirst : r.writeIndex + (block.take
      (min block.length (r.cells.size - r.writeIndex))).length ≤ r.cells.size := by
    rw [List.length_take]
    omega
  have hsecond : 0 + (block.drop (min block.length (r.cells.size - r.writeIndex))).length ≤
      (r.cells.write r.writeIndex
        (block.take (min block.length (r.cells.size - r.writeIndex)))).size := by
    rw [List.length_drop, Cells.size_write]
    omega
  have hcopy := Cells.copy?_eq_some hfirst
  have hcopy' := Cells.copy?_eq_some hsecond
  rw [List.length_take, Nat.min_eq_left (Nat.min_le_left _ _)] at hcopy
  rw [List.length_drop, Nat.zero_add] at hcopy'
  unfold PlainRing.append? append
  simp only [Option.bind_eq_bind, hi, Option.bind_some, hr]
  simp only [plain, capacity, hcopy, Option.bind_some, hcopy']
  rfl

theorem oldest?_plain (r : SampleRing) {n : Nat} (h : n ≤ r.available) :
    r.plain.oldest? n = some (r.oldest n) := by
  have hr := r.readIndex_lt
  have ha := r.available_le
  have hi : sub? r.plain.cells.size r.plain.readIndex = some (r.cells.size - r.readIndex) :=
    sub?_eq_some (Nat.le_of_lt hr)
  have hrest := sub?_eq_some (Nat.min_le_left n (r.cells.size - r.readIndex))
  have hfirst : r.readIndex + min n (r.cells.size - r.readIndex) ≤ r.cells.size := by omega
  have hsecond : 0 + (n - min n (r.cells.size - r.readIndex)) ≤ r.cells.size := by omega
  have hslice := Cells.slice?_eq_some hfirst
  have hslice' := Cells.slice?_eq_some hsecond
  rw [Nat.zero_add] at hslice'
  unfold PlainRing.oldest? oldest
  simp only [Option.bind_eq_bind, hi, Option.bind_some, hrest]
  simp only [plain, capacity, hslice, Option.bind_some, hslice']
  rfl

theorem push?_plain (r : SampleRing) (block : List Sample) :
    r.plain.push? block =
      match r.push block with
      | .error e => some (.refused e, r.plain)
      | .ok (count, s) => some (.pushed count, s.plain) := by
  unfold PlainRing.push? push
  by_cases h0 : block.length = 0
  · simp only [if_pos h0]
    rfl
  · by_cases hc : block.length ≤ r.capacity
    · have hf : block.length ≤ (r.makeRoom block.length hc).free := by
        have := r.available_makeRoom block.length hc
        simp only [free, capacity_makeRoom]
        omega
      simp only [if_neg h0, dif_pos hc, size_cells_plain, if_neg (Nat.not_lt.mpr hc),
        r.makeRoom?_plain hc, append?_plain _ hf, Option.bind_eq_bind, Option.bind_some]
      rfl
    · have hlt : r.capacity < block.length := Nat.lt_of_not_le hc
      simp only [if_neg h0, dif_neg hc, size_cells_plain, hlt, if_true]

theorem pull?_plain (r : SampleRing) (destination : List Sample) :
    r.plain.pull? destination =
      some (.pulled (r.pull destination).count (r.pull destination).block,
        (r.pull destination).ring.plain) := by
  unfold PlainRing.pull? pull
  by_cases h0 : destination.length = 0
  · simp only [if_pos h0]
  · by_cases hn : destination.length ≤ r.available
    · simp only [if_neg h0, dif_pos hn, available_plain, if_neg (Nat.not_lt.mpr hn),
        r.oldest?_plain hn, r.skip?_plain hn, Option.bind_eq_bind, Option.bind_some]
      rfl
    · have hlt : r.available < destination.length := Nat.lt_of_not_le hn
      simp only [if_neg h0, dif_neg hn, available_plain, hlt, if_true]
      rfl

/-- Every call on the fields of a ring has a result, and it is that of the ring. -/
theorem call?_plain (r : SampleRing) (c : RingCall) :
    r.plain.call? c = some ((r.call c).1, (r.call c).2.plain) := by
  have hf : ∀ s : SampleRing, sub? s.plain.cells.size s.plain.available = some s.free :=
    fun s => sub?_eq_some s.available_le
  cases c with
  | push block =>
    simp only [PlainRing.call?, call, push?_plain]
    cases r.push block <;> simp only [Option.bind_eq_bind, Option.bind_some, hf] <;> rfl
  | pull destination =>
    simp only [PlainRing.call?, call, pull?_plain, Option.bind_eq_bind, Option.bind_some, hf]
    rfl
  | clear =>
    have hc : r.plain.clear = r.clear.plain := rfl
    simp only [PlainRing.call?, call, hc, Option.bind_eq_bind, Option.bind_some, hf]
    rfl

theorem run?_plain (r : SampleRing) (calls : List RingCall) :
    r.plain.run? calls = some ((r.run calls).1, (r.run calls).2.plain) := by
  unfold run
  induction calls generalizing r with
  | nil => rfl
  | cons c rest ih =>
    simp only [PlainRing.run?, runCalls, call?_plain, Option.bind_eq_bind, Option.bind_some, ih]
    rfl

theorem capacity_run (r : SampleRing) (calls : List RingCall) :
    (r.run calls).2.capacity = r.capacity := by
  have h := r.toQueue.capacity_run calls
  rwa [run_toQueue] at h

/-- On a new ring every run of calls shows what the bounded queue shows. The fields alone, with
every index and difference checked, go through the same run, and keep the indices in the row and
at the distance of the samples that wait. -/
theorem run_refines_queue (capacity : Nat) (hpos : 0 < capacity) (calls : List RingCall) :
    ∃ ring, SampleRing.new capacity = .ok ring ∧
      (ring.run calls).1 = (BoundedQueue.run { capacity := capacity } calls).1 ∧
      (ring.run calls).2.toList = (BoundedQueue.run { capacity := capacity } calls).2.samples ∧
      ∃ last, PlainRing.run? calls { cells := .ofSize capacity } =
          some ((BoundedQueue.run { capacity := capacity } calls).1, last) ∧
        last = (ring.run calls).2.plain ∧
        last.readIndex < capacity ∧ last.writeIndex < capacity ∧ last.available ≤ capacity ∧
        (last.readIndex + last.available) % capacity = last.writeIndex := by
  have hq := (ofCapacity capacity hpos).run_toQueue calls
  have hc := (ofCapacity capacity hpos).capacity_run calls
  have hp := (ofCapacity capacity hpos).run?_plain calls
  rw [toQueue_ofCapacity] at hq
  refine ⟨ofCapacity capacity hpos, dif_pos hpos, by rw [hq], by rw [hq]; rfl, _, ?_, rfl, ?_⟩
  · rw [hq]
    exact hp
  · generalize ((ofCapacity capacity hpos).run calls).2 = last at hc
    have hsize : last.cells.size = capacity := hc
    rw [← hsize]
    exact ⟨last.readIndex_lt, last.writeIndex_lt, last.available_le, last.writeIndex_eq.symm⟩

/-- Two blocks overflow a ring of three cells, and the pull goes round their end. -/
theorem run_refines_queue_of_wrap :
    0 < 3 ∧ ∃ ring, SampleRing.new 3 = .ok ring ∧
      ∃ last, PlainRing.run? [.push [.one, .zero], .push [.one, .one], .pull [.zero, .zero]]
          { cells := .ofSize 3 } =
        some ([⟨.pushed 2, 2, 1, {}⟩, ⟨.pushed 2, 3, 0, ⟨1, 1, 0, 0⟩⟩,
          ⟨.pulled 2 [.zero, .one], 1, 2, ⟨1, 1, 0, 0⟩⟩], last) ∧
        (ring.run [.push [.one, .zero], .push [.one, .one], .pull [.zero, .zero]]).2.toList =
          [.one] := by
  obtain ⟨ring, hnew, -, hlist, last, hlast, -⟩ := run_refines_queue 3 (by decide)
    [.push [.one, .zero], .push [.one, .one], .pull [.zero, .zero]]
  exact ⟨by decide, ring, hnew, last, hlast, hlist⟩

end SampleRing

end AudioFraming
