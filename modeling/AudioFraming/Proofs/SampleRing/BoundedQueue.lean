import AudioFraming.SampleRing.View
import Mathlib.Data.List.DropRight

/-!
# Rings as bounded queues

A ring behaves as a list of samples with a limit on its length. `BoundedQueue`
says so without cells and indices: a push keeps the newest samples that the
limit allows, a pull takes from the front all that is asked for or nothing.

`SampleRing.toQueue` forgets where the samples lie. It commutes with every call
(`call_toQueue`), so a caller sees the same from a ring and from its queue, over
any number of calls (`run_toQueue`).
-/

namespace AudioFraming

/-- A call on a ring or on a queue. -/
inductive RingCall where
  | push (block : List Sample)
  | pull (destination : List Sample)
  | clear
deriving DecidableEq

/-- What a call returns. A pull also shows the destination as it is afterwards. -/
inductive RingAnswer where
  | pushed (count : Nat)
  | refused (error : SetupError)
  | pulled (count : Nat) (destination : List Sample)
  | cleared
deriving DecidableEq

/-- All that a caller can see after a call. -/
structure RingReport where
  answer : RingAnswer
  available : Nat
  free : Nat
  tally : RingTally
deriving DecidableEq

/-- Makes calls in order and collects the reports. -/
def runCalls {ρ : Type} (call : ρ → RingCall → RingReport × ρ) :
    List RingCall → ρ → List RingReport × ρ
  | [], r => ([], r)
  | c :: rest, r =>
    let (report, r) := call r c
    let (reports, r) := runCalls call rest r
    (report :: reports, r)

/-- A list of at most `capacity` samples, oldest first. -/
structure BoundedQueue where
  capacity : Nat
  samples : List Sample := []
  tally : RingTally := {}
deriving DecidableEq

namespace BoundedQueue

def free (q : BoundedQueue) : Nat := q.capacity - q.samples.length

/-- Keeps the newest samples of what was there and the block. What falls off the front is
counted as evicted. -/
def push (q : BoundedQueue) (block : List Sample) : RingAnswer × BoundedQueue :=
  let total := q.samples.length + block.length
  if block = [] then
    (.pushed 0, { q with tally := { q.tally with emptyPushes := q.tally.emptyPushes + 1 } })
  else if q.capacity < block.length then
    (.refused (.pushExceedsCapacity block.length q.capacity), q)
  else
    (.pushed block.length, { q with
      samples := (q.samples ++ block).rtake (min q.capacity total)
      tally :=
        if q.capacity < total then { q.tally with
          overflows := q.tally.overflows + 1
          evicted := q.tally.evicted + (total - q.capacity) }
        else q.tally })

/-- Takes as many samples as the destination holds, or none. -/
def pull (q : BoundedQueue) (destination : List Sample) : RingAnswer × BoundedQueue :=
  let n := destination.length
  if n = 0 then (.pulled 0 destination, q)
  else if q.samples.length < n then
    (.pulled 0 destination,
      { q with tally := { q.tally with underflows := q.tally.underflows + 1 } })
  else (.pulled n (q.samples.take n), { q with samples := q.samples.drop n })

def clear (q : BoundedQueue) : BoundedQueue := { q with samples := [] }

def report (q : BoundedQueue) (answer : RingAnswer) : RingReport :=
  ⟨answer, q.samples.length, q.free, q.tally⟩

def call (q : BoundedQueue) (c : RingCall) : RingReport × BoundedQueue :=
  let (answer, q) : RingAnswer × BoundedQueue := match c with
    | .push block => q.push block
    | .pull destination => q.pull destination
    | .clear => (.cleared, q.clear)
  (q.report answer, q)

def run (q : BoundedQueue) (calls : List RingCall) : List RingReport × BoundedQueue :=
  runCalls call calls q

@[simp] theorem capacity_push (q : BoundedQueue) (block : List Sample) :
    (q.push block).2.capacity = q.capacity := by
  unfold push
  dsimp only
  split_ifs <;> rfl

@[simp] theorem capacity_pull (q : BoundedQueue) (destination : List Sample) :
    (q.pull destination).2.capacity = q.capacity := by
  unfold pull
  dsimp only
  split_ifs <;> rfl

theorem capacity_run (q : BoundedQueue) (calls : List RingCall) :
    (q.run calls).2.capacity = q.capacity := by
  unfold run
  induction calls generalizing q with
  | nil => rfl
  | cons c rest ih =>
    have hc : (q.call c).2.capacity = q.capacity := by
      cases c with
      | push block => exact q.capacity_push block
      | pull destination => exact q.capacity_pull destination
      | clear => rfl
    simpa only [runCalls, hc] using ih (q.call c).2

end BoundedQueue

namespace SampleRing

def report (r : SampleRing) (answer : RingAnswer) : RingReport :=
  ⟨answer, r.available, r.free, r.tally⟩

/-- One call. A push that is refused leaves the ring as it was. -/
def call (r : SampleRing) (c : RingCall) : RingReport × SampleRing :=
  let (answer, r) : RingAnswer × SampleRing := match c with
    | .push block =>
      match r.push block with
      | .error e => (.refused e, r)
      | .ok (count, s) => (.pushed count, s)
    | .pull destination =>
      let pulled := r.pull destination
      (.pulled pulled.count pulled.block, pulled.ring)
    | .clear => (.cleared, r.clear)
  (r.report answer, r)

def run (r : SampleRing) (calls : List RingCall) : List RingReport × SampleRing :=
  runCalls call calls r

/-- The queue that a ring stands for. -/
def toQueue (r : SampleRing) : BoundedQueue := ⟨r.capacity, r.toList, r.tally⟩

@[simp] theorem toQueue_capacity (r : SampleRing) : r.toQueue.capacity = r.capacity := rfl

@[simp] theorem toQueue_samples (r : SampleRing) : r.toQueue.samples = r.toList := rfl

@[simp] theorem toQueue_tally (r : SampleRing) : r.toQueue.tally = r.tally := rfl

@[simp] theorem capacity_ofCapacity (n : Nat) (h : 0 < n) : (ofCapacity n h).capacity = n := by
  simp [capacity, ofCapacity]

@[simp] theorem toQueue_ofCapacity (n : Nat) (h : 0 < n) :
    (ofCapacity n h).toQueue = { capacity := n } := by
  simp [toQueue, capacity, ofCapacity, ← toList_ofCapacity n h]

theorem tally_makeRoom (r : SampleRing) (n : Nat) (h : n ≤ r.capacity) :
    (r.makeRoom n h).tally =
      if r.capacity < r.available + n then { r.tally with
        overflows := r.tally.overflows + 1
        evicted := r.tally.evicted + (r.available + n - r.capacity) }
      else r.tally := by
  have ha : r.available ≤ r.capacity := r.available_le
  have hf : r.free < n ↔ r.capacity < r.available + n := by
    unfold free
    omega
  have hd : n - r.free = r.available + n - r.capacity := by
    unfold free
    omega
  unfold makeRoom
  simp only [hf, hd]
  split <;> rfl

@[simp] theorem capacity_append (r : SampleRing) (block : List Sample)
    (h : block.length ≤ r.free) : (r.append block h).capacity = r.capacity := by
  simp [append, capacity]

/-- A push does to the queue what it says, whether it is refused or not. -/
theorem push_toQueue (r : SampleRing) (block : List Sample) :
    r.toQueue.push block =
      match r.push block with
      | .error e => (.refused e, r.toQueue)
      | .ok (count, s) => (.pushed count, s.toQueue) := by
  have ha : r.available ≤ r.capacity := r.available_le
  cases hp : r.push block with
  | error e =>
    obtain ⟨hc, rfl⟩ := (r.push_eq_error_iff block e).mp hp
    have hb : block ≠ [] := by
      rintro rfl
      simp at hc
    simp [BoundedQueue.push, hb, hc]
  | ok result =>
    obtain ⟨count, s⟩ := result
    have hl := toList_push hp
    unfold push at hp
    split at hp
    · rename_i hb
      obtain ⟨rfl, rfl⟩ := Prod.mk.inj (Except.ok.inj hp)
      obtain rfl := List.eq_nil_of_length_eq_zero hb
      rfl
    · rename_i hb
      split at hp
      · rename_i hc
        obtain ⟨rfl, rfl⟩ := Prod.mk.inj (Except.ok.inj hp)
        have hne : block ≠ [] := fun h => hb (by rw [h]; rfl)
        have ht := r.tally_makeRoom block.length hc
        have hd : r.available + block.length - min r.capacity (r.available + block.length) =
            r.available + block.length - r.capacity := by omega
        simp only [BoundedQueue.push, toQueue_capacity, toQueue_samples, toQueue_tally,
          if_neg hne, if_neg (Nat.not_lt.mpr hc), length_toList, List.rtake,
          List.length_append, hd, ← hl, ← ht]
        congr 2
        rw [capacity_append, capacity_makeRoom]
      · cases hp

theorem exists_push (r : SampleRing) {block : List Sample} (h : block.length ≤ r.capacity) :
    ∃ s, r.push block = .ok (block.length, s) := by
  unfold push
  split
  · rename_i h0
    rw [h0]
    exact ⟨_, rfl⟩
  · exact ⟨_, rfl⟩

section push

variable {r s : SampleRing} {block : List Sample} {n : Nat} (h : r.push block = .ok (n, s))
include h

theorem toQueue_push : s.toQueue = (r.toQueue.push block).2 := by
  rw [push_toQueue, h]

theorem capacity_push : s.capacity = r.capacity := by
  have hq := congrArg BoundedQueue.capacity (toQueue_push h)
  rwa [BoundedQueue.capacity_push] at hq

theorem tally_push : s.tally =
    if block = [] then { r.tally with emptyPushes := r.tally.emptyPushes + 1 }
    else if r.capacity < r.available + block.length then { r.tally with
      overflows := r.tally.overflows + 1
      evicted := r.tally.evicted + (r.available + block.length - r.capacity) }
    else r.tally := by
  have hc : ¬r.capacity < block.length := by
    intro hc
    rw [(r.push_eq_error_iff block _).mpr ⟨hc, rfl⟩] at h
    cases h
  have hq := congrArg BoundedQueue.tally (toQueue_push h)
  simp only [BoundedQueue.push, toQueue_capacity, toQueue_samples, toQueue_tally, length_toList,
    if_neg hc] at hq
  rw [hq]
  split_ifs <;> rfl

theorem available_push : s.available = min r.capacity (r.available + block.length) := by
  have ha : r.available ≤ r.capacity := r.available_le
  have hl := congrArg List.length (toList_push h)
  rw [length_toList, List.length_drop, List.length_append, length_toList] at hl
  omega

theorem evicted_push :
    s.tally.evicted = r.tally.evicted + (r.available + block.length - r.capacity) := by
  have ha : r.available ≤ r.capacity := r.available_le
  rw [tally_push h]
  split_ifs with hb hc
  · have h0 : r.available + block.length - r.capacity = 0 := by
      rw [hb]
      exact Nat.sub_eq_zero_of_le ha
    rw [h0]
    rfl
  · rfl
  · rw [Nat.sub_eq_zero_of_le (Nat.le_of_not_lt hc), Nat.add_zero]

end push

theorem pull_toQueue (r : SampleRing) (destination : List Sample) :
    r.toQueue.pull destination =
      (.pulled (r.pull destination).count (r.pull destination).block,
        (r.pull destination).ring.toQueue) := by
  unfold BoundedQueue.pull pull
  by_cases h0 : destination.length = 0
  · simp only [if_pos h0]
  · by_cases hn : destination.length ≤ r.available
    · simp only [if_neg h0, toQueue_samples, length_toList, dif_pos hn,
        if_neg (Nat.not_lt.mpr hn), r.oldest_eq_take hn]
      rw [← r.toList_skip _ hn]
      rfl
    · simp only [if_neg h0, toQueue_samples, length_toList, dif_neg hn,
        if_pos (Nat.not_le.mp hn)]
      rfl

/-- A pull that finds enough takes what it wants. -/
theorem pull_eq (r : SampleRing) {destination : List Sample} {n : Nat}
    (hlen : destination.length = n) (hpos : 0 < n) (h : n ≤ r.available) :
    r.pull destination = ⟨n, r.toList.take n, r.skip n h⟩ := by
  subst hlen
  unfold pull
  rw [if_neg (Nat.ne_of_gt hpos), dif_pos h, r.oldest_eq_take h]

theorem count_pull (r : SampleRing) (destination : List Sample) :
    (r.pull destination).count =
      if destination.length ≤ r.available then destination.length else 0 := by
  unfold pull
  split_ifs with h0
  · exact h0.symm
  · rfl
  · rfl
  · rfl

@[simp] theorem capacity_pull (r : SampleRing) (destination : List Sample) :
    (r.pull destination).ring.capacity = r.capacity := by
  have hq := congrArg BoundedQueue.capacity (congrArg Prod.snd (pull_toQueue r destination))
  rwa [BoundedQueue.capacity_pull, eq_comm] at hq

theorem tally_pull (r : SampleRing) (destination : List Sample) :
    (r.pull destination).ring.tally =
      if destination.length ≤ r.available then r.tally
      else { r.tally with underflows := r.tally.underflows + 1 } := by
  unfold pull
  split_ifs with h0 hle
  · rfl
  · exact absurd (h0 ▸ Nat.zero_le _) hle
  · rfl
  · rfl

theorem call_toQueue (r : SampleRing) (c : RingCall) :
    r.toQueue.call c = ((r.call c).1, (r.call c).2.toQueue) := by
  have hr : ∀ (s : SampleRing) (a : RingAnswer), s.toQueue.report a = s.report a := by
    intro s a
    simp [BoundedQueue.report, report, BoundedQueue.free, free]
  cases c with
  | push block =>
    simp only [BoundedQueue.call, call, push_toQueue]
    cases r.push block <;> simp only [hr]
  | pull destination => simp only [BoundedQueue.call, call, pull_toQueue, hr]
  | clear =>
    have hc : r.toQueue.clear = r.clear.toQueue := by
      simp [BoundedQueue.clear, toQueue, capacity, clear, ← r.toList_clear]
    simp only [BoundedQueue.call, call, hc, hr]

/-- A ring and its queue give the same reports, and the queue is still that of the ring. -/
theorem run_toQueue (r : SampleRing) (calls : List RingCall) :
    r.toQueue.run calls = ((r.run calls).1, (r.run calls).2.toQueue) := by
  unfold BoundedQueue.run run
  induction calls generalizing r with
  | nil => rfl
  | cons c rest ih =>
    simp only [runCalls, call_toQueue, ih]

end SampleRing

end AudioFraming
