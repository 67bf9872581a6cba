import AudioFraming.Cells
import AudioFraming.Error

/-!
# Sample rings

A ring is a queue of at most `capacity` samples over a row of cells. The unread
samples start at the read index and go round the end of the row; new samples go in
at the write index.

A push that finds too little room evicts the oldest unread samples, so that new
data is never lost. A pull is all or nothing. Both keep a tally of what went
wrong, which is all they report; the ring itself never fails at run time except
for a push that could not fit even an empty ring.
-/

namespace AudioFraming

/-- What has happened to a ring so far. -/
structure RingTally where
  /-- Pushes that had to evict. -/
  overflows : Nat := 0
  /-- Samples evicted by all of them. -/
  evicted : Nat := 0
  /-- Pulls that asked for more than was there. -/
  underflows : Nat := 0
  emptyPushes : Nat := 0
deriving DecidableEq, Inhabited

structure SampleRing where
  cells : Cells
  readIndex : Nat
  writeIndex : Nat
  /-- Samples written and not yet read. -/
  available : Nat
  tally : RingTally
  readIndex_lt : readIndex < cells.size
  available_le : available ≤ cells.size
  writeIndex_eq : writeIndex = (readIndex + available) % cells.size

namespace SampleRing

def capacity (r : SampleRing) : Nat := r.cells.size

/-- Samples that fit without an eviction. -/
def free (r : SampleRing) : Nat := r.capacity - r.available

theorem capacity_pos (r : SampleRing) : 0 < r.capacity :=
  Nat.lt_of_le_of_lt (Nat.zero_le _) r.readIndex_lt

theorem writeIndex_lt (r : SampleRing) : r.writeIndex < r.capacity := by
  rw [r.writeIndex_eq]
  exact Nat.mod_lt _ r.capacity_pos

/-- A ring of silent cells with nothing to read. -/
def ofCapacity (capacity : Nat) (h : 0 < capacity) : SampleRing where
  cells := .ofSize capacity
  readIndex := 0
  writeIndex := 0
  available := 0
  tally := {}
  readIndex_lt := h
  available_le := Nat.zero_le _
  writeIndex_eq := (Nat.zero_mod capacity).symm

def new (capacity : Nat) : Except SetupError SampleRing :=
  if h : 0 < capacity then .ok (ofCapacity capacity h)
  else .error (.zeroSize "ring buffer capacity")

/-- The `n` oldest samples: up to the end of the cells, then on from their start. -/
def oldest (r : SampleRing) (n : Nat) : List Sample :=
  let tail := min n (r.capacity - r.readIndex)
  r.cells.read r.readIndex tail ++ r.cells.read 0 (n - tail)

/-- The unread samples, oldest first. -/
def toList (r : SampleRing) : List Sample := r.oldest r.available

/-- Moves the read index past the `n` oldest samples. -/
def skip (r : SampleRing) (n : Nat) (h : n ≤ r.available) : SampleRing :=
  { r with
    readIndex := (r.readIndex + n) % r.cells.size
    available := r.available - n
    readIndex_lt := Nat.mod_lt _ r.capacity_pos
    available_le := Nat.le_trans (Nat.sub_le _ _) r.available_le
    writeIndex_eq := by
      rw [r.writeIndex_eq, Nat.mod_add_mod]
      congr 1
      omega }

theorem deficit_le (r : SampleRing) {n : Nat} (h : n ≤ r.capacity) :
    n - r.free ≤ r.available := by
  have := r.available_le
  unfold free capacity at *
  omega

/-- Drops the oldest samples until `n` more fit, and counts that as one overflow. -/
def makeRoom (r : SampleRing) (n : Nat) (h : n ≤ r.capacity) : SampleRing :=
  if r.free < n then
    { r.skip (n - r.free) (r.deficit_le h) with
      tally := { r.tally with
        overflows := r.tally.overflows + 1
        evicted := r.tally.evicted + (n - r.free) } }
  else r

theorem available_makeRoom (r : SampleRing) (n : Nat) (h : n ≤ r.capacity) :
    (r.makeRoom n h).available = min r.available (r.capacity - n) := by
  have := r.available_le
  unfold makeRoom
  split <;> simp only [skip, free, capacity] at * <;> omega

@[simp] theorem capacity_makeRoom (r : SampleRing) (n : Nat) (h : n ≤ r.capacity) :
    (r.makeRoom n h).capacity = r.capacity := by
  unfold makeRoom
  split <;> rfl

/-- Writes a block that fits: up to the end of the cells, then on from their start. -/
def append (r : SampleRing) (block : List Sample) (h : block.length ≤ r.free) : SampleRing :=
  let tail := min block.length (r.capacity - r.writeIndex)
  { r with
    cells := (r.cells.write r.writeIndex (block.take tail)).write 0 (block.drop tail)
    writeIndex := (r.writeIndex + block.length) % r.capacity
    available := r.available + block.length
    readIndex_lt := by simpa using r.readIndex_lt
    available_le := by
      have := r.available_le
      simp only [free, capacity, Cells.size_write] at *
      omega
    writeIndex_eq := by
      simp only [Cells.size_write, capacity]
      rw [r.writeIndex_eq, Nat.mod_add_mod, Nat.add_assoc] }

/-- Queues a block and answers its length. Only a block longer than the ring is refused. -/
def push (r : SampleRing) (block : List Sample) : Except SetupError (Nat × SampleRing) :=
  if block.length = 0 then
    .ok (0, { r with tally := { r.tally with emptyPushes := r.tally.emptyPushes + 1 } })
  else if h : block.length ≤ r.capacity then
    .ok (block.length, (r.makeRoom block.length h).append block (by
      have := r.available_makeRoom block.length h
      simp only [free, capacity_makeRoom]
      omega))
  else .error (.pushExceedsCapacity block.length r.capacity)

/-- The outcome of a pull: how many samples were read, and the destination afterwards. -/
structure Pull where
  count : Nat
  block : List Sample
  ring : SampleRing

/-- Fills the destination with the oldest samples, or, if there are too few, counts an
underflow, reads nothing and leaves the destination as it was. -/
def pull (r : SampleRing) (destination : List Sample) : Pull :=
  if destination.length = 0 then ⟨0, destination, r⟩
  else if h : destination.length ≤ r.available then
    ⟨destination.length, r.oldest destination.length, r.skip destination.length h⟩
  else
    ⟨0, destination, { r with tally := { r.tally with underflows := r.tally.underflows + 1 } }⟩

/-- Forgets the unread samples. The tally stays. -/
def clear (r : SampleRing) : SampleRing :=
  { r with
    readIndex := 0
    writeIndex := 0
    available := 0
    readIndex_lt := r.capacity_pos
    available_le := Nat.zero_le _
    writeIndex_eq := (Nat.zero_mod r.cells.size).symm }

theorem length_oldest (r : SampleRing) {n : Nat} (h : n ≤ r.available) :
    (r.oldest n).length = n := by
  have := r.available_le
  have := r.readIndex_lt
  simp only [oldest, capacity, List.length_append, Cells.length_read]
  omega

@[simp] theorem length_toList (r : SampleRing) : r.toList.length = r.available :=
  r.length_oldest (Nat.le_refl _)

@[simp] theorem length_pull (r : SampleRing) (destination : List Sample) :
    (r.pull destination).block.length = destination.length := by
  unfold pull
  split
  · rfl
  · split
    · rename_i h
      exact r.length_oldest h
    · rfl

end SampleRing

end AudioFraming
