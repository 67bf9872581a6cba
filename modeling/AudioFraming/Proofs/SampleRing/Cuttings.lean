import AudioFraming.Proofs.SampleRing.BoundedQueue
import Mathlib.Data.List.GetD
import Mathlib.Tactic

/-!
# How a stream is cut does not matter

A ring that has taken a stream of samples in blocks remembers the stream, and not the blocks.
`Takes` says what the stream has done to it: the samples lie in the cells as if they had been laid
one by one (`lay`), the newest ones wait, and all the others are evicted. One push takes its block
(`takes_push`), one stream after another is taken as a single one (`Takes.append`), and the indices
follow from what has been taken. Only the number of overflows tells how often the ring was full.

Pulls read the queue from its front, so any sizes with the same total read the same samples and
leave the same ring (`pulls_eq`).
-/

namespace AudioFraming

/-- The cells of a row after samples have been laid into them one by one, from cell `start` on and
round the end. -/
def lay (size : Nat) : Nat → List Sample → (Nat → Sample) → Nat → Sample
  | _, [], cells => cells
  | start, s :: rest, cells => lay size (start + 1) rest (Function.update cells (start % size) s)

theorem lay_append (size start : Nat) (first second : List Sample) (cells : Nat → Sample) :
    lay size start (first ++ second) cells =
      lay size (start + first.length) second (lay size start first cells) := by
  induction first generalizing start cells with
  | nil => simp [lay]
  | cons s rest ih => simp [lay, ih, Nat.add_comm, Nat.add_left_comm]

/-- A row is gone round and round. -/
theorem lay_congr {size start start' : Nat} (h : start % size = start' % size)
    (block : List Sample) (cells : Nat → Sample) :
    lay size start block cells = lay size start' block cells := by
  induction block generalizing start start' cells with
  | nil => rfl
  | cons s rest ih =>
    have hnext : (start + 1) % size = (start' + 1) % size := Nat.ModEq.add_right 1 h
    simp only [lay, h, ih hnext]

/-- A block that goes round at most once lies in the cells as it is. -/
theorem lay_eq {size start : Nat} {block : List Sample} (hstart : start < size)
    (hfits : block.length ≤ size) (cells : Nat → Sample) {i : Nat} (hi : i < size) :
    lay size start block cells i =
      block.getD (if start ≤ i then i - start else i + size - start) (cells i) := by
  induction block generalizing start cells with
  | nil => simp [lay]
  | cons s rest ih =>
    rw [List.length_cons] at hfits
    -- The next cell may be the first one again.
    have hnext : lay size (start + 1) rest = lay size ((start + 1) % size) rest := by
      funext cells
      exact lay_congr (Nat.mod_mod ..).symm rest cells
    have hmod : (start + 1) % size < size := Nat.mod_lt _ (by omega)
    have hwrap : (start + 1) % size = if start + 1 < size then start + 1 else 0 := by
      split_ifs with h
      · exact Nat.mod_eq_of_lt h
      · rw [show start + 1 = size by omega, Nat.mod_self]
    rw [lay, hnext, ih hmod (by omega), Nat.mod_eq_of_lt hstart]
    by_cases heq : i = start
    · subst heq
      rw [Function.update_self, List.getD_eq_default]
      · simp
      · split_ifs at hwrap ⊢ <;> omega
    · rw [Function.update_of_ne heq]
      have hstep : (if start ≤ i then i - start else i + size - start) =
          (if (start + 1) % size ≤ i then i - (start + 1) % size
            else i + size - (start + 1) % size) + 1 := by
        split_ifs at hwrap ⊢ <;> omega
      rw [hstep, List.getD_cons_succ]

/-- Nothing is laid beyond the end of the row. -/
theorem lay_of_le {size i : Nat} (hsize : 0 < size) (hi : size ≤ i) (start : Nat)
    (block : List Sample) (cells : Nat → Sample) : lay size start block cells i = cells i := by
  induction block generalizing start cells with
  | nil => rfl
  | cons s rest ih =>
    have hlt : start % size < size := Nat.mod_lt _ hsize
    rw [lay, ih, Function.update_of_ne (by omega)]

/-- The samples that a pull hands out. -/
def RingAnswer.delivered : RingAnswer → List Sample
  | .pulled count block => block.take count
  | _ => []

namespace SampleRing

/-! ## Pushes -/

/-- A ring that has taken a stream, whatever the blocks were. -/
structure Takes (r : SampleRing) (stream : List Sample) (s : SampleRing) : Prop where
  capacity_eq : s.capacity = r.capacity
  toList_eq : s.toList = (r.toList ++ stream).drop (r.available + stream.length - r.capacity)
  writeIndex_eq : s.writeIndex = (r.writeIndex + stream.length) % r.capacity
  get_eq : s.cells.get = lay r.capacity r.writeIndex stream r.cells.get
  evicted_eq :
    s.tally.evicted = r.tally.evicted + (r.available + stream.length - r.capacity)
  underflows_eq : s.tally.underflows = r.tally.underflows
  emptyPushes_eq : s.tally.emptyPushes = r.tally.emptyPushes

namespace Takes

variable {r s t : SampleRing} {first second : List Sample}

theorem nothing (r : SampleRing) : r.Takes [] r where
  capacity_eq := rfl
  toList_eq := by
    have hle : r.available ≤ r.capacity := r.available_le
    simp [Nat.sub_eq_zero_of_le hle]
  writeIndex_eq := (Nat.mod_eq_of_lt r.writeIndex_lt).symm
  get_eq := rfl
  evicted_eq := by
    have hle : r.available ≤ r.capacity := r.available_le
    simp [Nat.sub_eq_zero_of_le hle]
  underflows_eq := rfl
  emptyPushes_eq := rfl

theorem available_eq (h : r.Takes first s) :
    s.available = min r.capacity (r.available + first.length) := by
  have hle : r.available ≤ r.capacity := r.available_le
  have hlen := congrArg List.length h.toList_eq
  simp only [length_toList, List.length_drop, List.length_append] at hlen
  omega

/-- The stream goes on. -/
theorem append (h : r.Takes first s) (h' : s.Takes second t) : r.Takes (first ++ second) t where
  capacity_eq := h'.capacity_eq.trans h.capacity_eq
  toList_eq := by
    have hle : r.available ≤ r.capacity := r.available_le
    have hs := h.available_eq
    have hlist : r.available + first.length - r.capacity ≤ (r.toList ++ first).length := by
      simp only [List.length_append, length_toList]
      omega
    rw [h'.toList_eq, h.toList_eq, h.capacity_eq, ← List.drop_append_of_le_length hlist,
      List.drop_drop, List.append_assoc, List.length_append]
    congr 1
    omega
  writeIndex_eq := by
    rw [h'.writeIndex_eq, h.writeIndex_eq, h.capacity_eq, Nat.mod_add_mod, Nat.add_assoc,
      List.length_append]
  get_eq := by
    rw [h'.get_eq, h.get_eq, h.capacity_eq, lay_append]
    exact lay_congr (by rw [h.writeIndex_eq, Nat.mod_mod]) ..
  evicted_eq := by
    have hle : r.available ≤ r.capacity := r.available_le
    have hs := h.available_eq
    have hfirst := h.evicted_eq
    have hsecond := h'.evicted_eq
    rw [h.capacity_eq] at hsecond
    rw [List.length_append]
    omega
  underflows_eq := h'.underflows_eq.trans h.underflows_eq
  emptyPushes_eq := h'.emptyPushes_eq.trans h.emptyPushes_eq

end Takes

/-- A block that fits goes into the cells from the write index on. -/
theorem get_append (r : SampleRing) (block : List Sample) (h : block.length ≤ r.free) :
    (r.append block h).cells.get = lay r.capacity r.writeIndex block r.cells.get := by
  have hw := r.writeIndex_lt
  have hfits : block.length ≤ r.capacity := h.trans (Nat.sub_le ..)
  funext i
  simp only [append, Cells.get_write, Cells.size_write, List.getD_eq_getElem?_getD,
    List.getElem?_drop, List.getElem?_take]
  rcases Nat.lt_or_ge i r.capacity with hi | hi
  · have hsize : i < r.cells.size := hi
    rw [lay_eq hw hfits _ hi, List.getD_eq_getElem?_getD]
    simp only [capacity] at *
    grind
  · have hsize : ¬i < r.cells.size := Nat.not_lt.mpr hi
    simp [hsize, lay_of_le r.capacity_pos hi]

theorem cells_makeRoom (r : SampleRing) (n : Nat) (h : n ≤ r.capacity) :
    (r.makeRoom n h).cells = r.cells := by
  unfold makeRoom
  split <;> rfl

theorem writeIndex_makeRoom (r : SampleRing) (n : Nat) (h : n ≤ r.capacity) :
    (r.makeRoom n h).writeIndex = r.writeIndex := by
  unfold makeRoom
  split <;> rfl

/-- A push takes its block. -/
theorem takes_push {r s : SampleRing} {block : List Sample} {n : Nat} (hne : block ≠ [])
    (h : r.push block = .ok (n, s)) : r.Takes block s := by
  have htally := tally_push h
  rw [if_neg hne] at htally
  have hplace : s.writeIndex = (r.writeIndex + block.length) % r.capacity ∧
      s.cells.get = lay r.capacity r.writeIndex block r.cells.get := by
    unfold push at h
    split_ifs at h with h0 hc
    · exact absurd (List.eq_nil_of_length_eq_zero h0) hne
    · obtain ⟨-, rfl⟩ := Prod.mk.inj (Except.ok.inj h)
      constructor
      · simp only [append, writeIndex_makeRoom, capacity_makeRoom]
      · simp only [get_append, cells_makeRoom, writeIndex_makeRoom, capacity_makeRoom]
  refine ⟨capacity_push h, toList_push h, hplace.1, hplace.2, evicted_push h, ?_, ?_⟩
  · rw [htally]
    split_ifs <;> rfl
  · rw [htally]
    split_ifs <;> rfl

theorem call_push {r s : SampleRing} {block : List Sample} {n : Nat}
    (h : r.push block = .ok (n, s)) :
    r.call (.push block) = (s.report (.pushed n), s) := by
  simp only [call, h]

/-- Blocks that are neither empty nor too long are taken one after another. -/
theorem takes_run (r : SampleRing) {blocks : List (List Sample)}
    (h : ∀ block ∈ blocks, block ≠ [] ∧ block.length ≤ r.capacity) :
    (r.run (blocks.map .push)).1.map RingReport.answer =
        blocks.map (fun block => .pushed block.length) ∧
      r.Takes blocks.flatten (r.run (blocks.map .push)).2 := by
  induction blocks generalizing r with
  | nil => exact ⟨rfl, .nothing r⟩
  | cons block rest ih =>
    obtain ⟨⟨hne, hle⟩, hrest⟩ := List.forall_mem_cons.mp h
    obtain ⟨s, hs⟩ := r.exists_push hle
    have hfirst := takes_push hne hs
    obtain ⟨hanswers, hsecond⟩ := ih s (by rwa [hfirst.capacity_eq])
    have hrun : r.run ((block :: rest).map .push) =
        (s.report (.pushed block.length) :: (s.run (rest.map .push)).1,
          (s.run (rest.map .push)).2) := by
      simp only [run, List.map_cons, runCalls, call_push hs]
    rw [hrun]
    exact ⟨congrArg (_ :: ·) hanswers, hfirst.append hsecond⟩

/-- The read index lies as far behind the write index as samples wait. -/
theorem readIndex_eq (r : SampleRing) :
    r.readIndex = (r.writeIndex + (r.capacity - r.available)) % r.capacity := by
  have hle : r.available ≤ r.capacity := r.available_le
  have hlt : r.readIndex < r.capacity := r.readIndex_lt
  have hround : r.readIndex + r.available + (r.capacity - r.available) =
      r.readIndex + r.capacity := by omega
  have hplace : r.writeIndex = (r.readIndex + r.available) % r.capacity := r.writeIndex_eq
  rw [hplace, Nat.mod_add_mod, hround, Nat.add_mod_right, Nat.mod_eq_of_lt hlt]

/-- The rings differ in nothing but the number of overflows. -/
structure SameButOverflows (s t : SampleRing) : Prop where
  capacity_eq : t.capacity = s.capacity
  get_eq : t.cells.get = s.cells.get
  readIndex_eq : t.readIndex = s.readIndex
  writeIndex_eq : t.writeIndex = s.writeIndex
  available_eq : t.available = s.available
  tally_eq : t.tally = { s.tally with overflows := t.tally.overflows }

/-- What a ring has taken decides what it has become. -/
theorem Takes.sameButOverflows {r s t : SampleRing} {stream : List Sample}
    (hs : r.Takes stream s) (ht : r.Takes stream t) : s.SameButOverflows t := by
  have hcapacity : t.capacity = s.capacity := ht.capacity_eq.trans hs.capacity_eq.symm
  have havailable : t.available = s.available := ht.available_eq.trans hs.available_eq.symm
  have hwrite : t.writeIndex = s.writeIndex := ht.writeIndex_eq.trans hs.writeIndex_eq.symm
  refine ⟨hcapacity, ht.get_eq.trans hs.get_eq.symm, ?_, hwrite, havailable, ?_⟩
  · rw [t.readIndex_eq, s.readIndex_eq, hcapacity, havailable, hwrite]
  · have hevicted := ht.evicted_eq.trans hs.evicted_eq.symm
    have hunderflows := ht.underflows_eq.trans hs.underflows_eq.symm
    have hempty := ht.emptyPushes_eq.trans hs.emptyPushes_eq.symm
    cases htally : t.tally
    simp only [htally] at hevicted hunderflows hempty
    rw [hevicted, hunderflows, hempty]

/-! ## Pulls -/

theorem skip_zero (r : SampleRing) (h : 0 ≤ r.available) : r.skip 0 h = r := by
  have hread : (r.readIndex + 0) % r.cells.size = r.readIndex := Nat.mod_eq_of_lt r.readIndex_lt
  simp only [skip, hread, Nat.sub_zero]

theorem skip_skip (r : SampleRing) {m n : Nat} (hm : m ≤ r.available)
    (hn : n ≤ (r.skip m hm).available) (h : m + n ≤ r.available) :
    (r.skip m hm).skip n hn = r.skip (m + n) h := by
  simp only [skip, Nat.mod_add_mod, Nat.add_assoc, Nat.sub_sub]

/-- A pull that is served. -/
theorem call_pull (r : SampleRing) {destination : List Sample}
    (h : destination.length ≤ r.available) :
    r.call (.pull destination) =
      ((r.skip destination.length h).report
        (.pulled destination.length (r.toList.take destination.length)),
        r.skip destination.length h) := by
  cases destination with
  | nil => simp [call, pull, skip_zero]
  | cons s rest =>
    have hpos : 0 < (s :: rest).length := by simp
    simp only [call, r.pull_eq rfl hpos h]

/-- Pulls that ask for no more than there is are all served, from the front of the queue on. -/
theorem pulls_eq (r : SampleRing) {destinations : List (List Sample)}
    (h : destinations.flatten.length ≤ r.available) :
    (r.run (destinations.map .pull)).1.map (fun report => report.answer.delivered.length) =
        destinations.map List.length ∧
      (r.run (destinations.map .pull)).1.flatMap (fun report => report.answer.delivered) =
        r.toList.take destinations.flatten.length ∧
      (r.run (destinations.map .pull)).2 = r.skip destinations.flatten.length h := by
  induction destinations generalizing r with
  | nil => exact ⟨rfl, rfl, (r.skip_zero h).symm⟩
  | cons destination rest ih =>
    have hboth : destination.length + rest.flatten.length ≤ r.available := by simpa using h
    have hfirst : destination.length ≤ r.available := by omega
    have hrest : rest.flatten.length ≤ (r.skip destination.length hfirst).available :=
      Nat.le_sub_of_add_le' hboth
    obtain ⟨hlengths, hsamples, hring⟩ := ih _ hrest
    simp only [run, List.map_cons, runCalls, r.call_pull hfirst] at hlengths hsamples hring ⊢
    have hserved : (RingAnswer.pulled destination.length
        (r.toList.take destination.length)).delivered = r.toList.take destination.length :=
      List.take_take.trans (by rw [Nat.min_self])
    refine ⟨?_, ?_, ?_⟩
    · simp [hlengths, report, hserved, hfirst]
    · simp [hsamples, report, hserved, toList_skip, List.take_add]
    · simp only [hring, r.skip_skip hfirst hrest hboth, List.flatten_cons, List.length_append]

/-- A stream in blocks that are neither empty nor longer than the ring. -/
structure Cuts (r : SampleRing) (stream : List Sample) (blocks : List (List Sample)) : Prop where
  flatten_eq : blocks.flatten = stream
  fits : ∀ block ∈ blocks, block ≠ [] ∧ block.length ≤ r.capacity

/-- However a stream is cut into blocks, a ring takes all of them, keeps the newest samples that it
has room for, evicts the others, and is the same afterwards, but for the number of overflows. However
many pulls ask for a number of samples that wait, they get the same samples, and the ring is the
same afterwards. -/
theorem cuts_agree (r : SampleRing) :
    (∀ (stream : List Sample) (blocks others : List (List Sample)),
      r.Cuts stream blocks → r.Cuts stream others →
        let pushed := r.run (blocks.map .push)
        pushed.1.map RingReport.answer = blocks.map (fun block => .pushed block.length) ∧
          pushed.2.toList =
            (r.toList ++ stream).rtake (min r.capacity (r.toList.length + stream.length)) ∧
          pushed.2.tally.evicted =
            r.tally.evicted + (r.toList.length + stream.length - r.capacity) ∧
          pushed.2.SameButOverflows (r.run (others.map .push)).2) ∧
    ∀ destinations others : List (List Sample),
      destinations.flatten.length = others.flatten.length →
      destinations.flatten.length ≤ r.toList.length →
        let pulled := r.run (destinations.map .pull)
        let n := destinations.flatten.length
        pulled.1.map (fun report => report.answer.delivered.length) =
            destinations.map List.length ∧
          pulled.1.flatMap (fun report => report.answer.delivered) = r.toList.take n ∧
          pulled.2.toList = r.toList.drop n ∧ pulled.2.tally = r.tally ∧
          (r.run (others.map .pull)).1.flatMap (fun report => report.answer.delivered) =
            r.toList.take n ∧
          (r.run (others.map .pull)).2 = pulled.2 := by
  constructor
  · intro stream blocks others hblocks hothers pushed
    obtain ⟨hanswers, htakes⟩ := r.takes_run hblocks.fits
    have hothersTakes := (r.takes_run hothers.fits).2
    rw [hblocks.flatten_eq] at htakes
    rw [hothers.flatten_eq] at hothersTakes
    refine ⟨hanswers, ?_, ?_, htakes.sameButOverflows hothersTakes⟩
    · have hkept : (r.toList ++ stream).length - min r.capacity (r.toList.length + stream.length) =
          r.available + stream.length - r.capacity := by
        simp only [List.length_append, length_toList]
        omega
      rw [List.rtake, hkept]
      exact htakes.toList_eq
    · simpa using htakes.evicted_eq
  · intro destinations others htotal hle pulled n
    rw [length_toList] at hle
    obtain ⟨hlengths, hsamples, hring⟩ := r.pulls_eq hle
    obtain ⟨-, hothers, hsame⟩ := r.pulls_eq (htotal ▸ hle)
    refine ⟨hlengths, hsamples, ?_, ?_, ?_, ?_⟩
    · simp only [pulled, hring, toList_skip, n]
    · simp only [pulled, hring, skip]
    · simp only [hothers, n, htotal]
    · simp only [hsame, pulled, hring, htotal]

/-- Five samples into a ring of three: in two blocks they overflow it once, one by one twice. Two
samples are evicted either way, and the other three come out by one pull or by two. -/
theorem cuts_agree_of_five :
    let r := ofCapacity 3 (by decide)
    let stream : List Sample := [.one, .zero, .one, .one, .zero]
    let blocks : List (List Sample) := [[.one, .zero], [.one, .one, .zero]]
    let others : List (List Sample) := [[.one], [.zero], [.one], [.one], [.zero]]
    let s := (r.run (blocks.map .push)).2
    let t := (r.run (others.map .push)).2
    r.Cuts stream blocks ∧ r.Cuts stream others ∧ s.SameButOverflows t ∧
      s.toList = [.one, .one, .zero] ∧ s.tally = ⟨1, 2, 0, 0⟩ ∧ t.tally = ⟨2, 2, 0, 0⟩ ∧
      [[Sample.zero, .zero, .zero]].flatten.length = [[Sample.zero], [.zero, .zero]].flatten.length ∧
      [[Sample.zero, .zero, .zero]].flatten.length ≤ s.toList.length ∧
      (s.run [.pull [.zero], .pull [.zero, .zero]]).1.flatMap
        (fun report => report.answer.delivered) = [.one, .one, .zero] := by
  intro r stream blocks others s t
  have hblocks : r.Cuts stream blocks := ⟨rfl, by decide⟩
  have hothers : r.Cuts stream others := ⟨rfl, by decide⟩
  obtain ⟨-, hlist, -, hsame⟩ := (cuts_agree r).1 stream blocks others hblocks hothers
  have hempty : r.toList = [] := toList_ofCapacity 3 (by decide)
  have hqueue : s.toList = [.one, .one, .zero] := by
    rw [hempty] at hlist
    exact hlist
  have hwait : [[Sample.zero, .zero, .zero]].flatten.length ≤ s.toList.length := by rw [hqueue]; rfl
  obtain ⟨-, -, -, -, hpulled, -⟩ :=
    (cuts_agree s).2 [[.zero, .zero, .zero]] [[.zero], [.zero, .zero]] rfl hwait
  refine ⟨hblocks, hothers, hsame, hqueue, by decide, by decide, rfl, hwait, ?_⟩
  rw [hqueue] at hpulled
  exact hpulled

end SampleRing

end AudioFraming
