import AudioFraming.Arena
import Mathlib.Data.List.GetD
import Mathlib.Data.List.Nodup
import Mathlib.Tactic

/-!
# How the spans in use lie

The spans in use follow each other through the arena: each starts at or after the
end of the one before, holds a word or more, and ends inside. `LaidOut` says so
along the list, from a word on, the way the search for a gap walks through it.

An arena of at most `2 ^ 30` words, whose byte offsets thus fit 32 bits, is `Tidy`
if its spans are laid out. Every arena that its own calls lead to is
(`tidy_replay`), and taking a span and giving it back leaves the list as it was.
-/

namespace AudioFraming

namespace Span

/-- No word lies in both spans. -/
def Apart (s t : Span) : Prop := s.stop ≤ t.start ∨ t.stop ≤ s.start

theorem Apart.symm {s t : Span} (h : s.Apart t) : t.Apart s := Or.symm h

/-- A word of the span. -/
def Covers (s : Span) (i : Nat) : Prop := s.start ≤ i ∧ i < s.stop

theorem Apart.not_covers {s t : Span} {i : Nat} (h : s.Apart t) (hs : s.Covers i) :
    ¬t.Covers i := by
  rintro ⟨h1, h2⟩
  obtain ⟨h3, h4⟩ := hs
  rcases h with h | h <;> omega

/-- A span can only start where a byte offset reaches. -/
theorem start_lt (s : Span) : s.start < 2 ^ 30 := by
  have := s.offset.toNat_lt
  simp only [start, sampleBytes, UInt32.toNat_div]
  change s.offset.toNat / 4 < 2 ^ 30
  omega

/-- A span that starts at a whole word. -/
def Aligned (s : Span) : Prop := s.offset % sampleBytes = 0

/-- The span that a word and a length stand for: it starts at that word modulo `2 ^ 32`. -/
structure NamedBy (start length : Nat) (s : Span) : Prop where
  start_eq : s.start = start % 2 ^ 32
  offset_eq : s.offset.toNat = 4 * s.start
  length_eq : s.length = length

theorem NamedBy.aligned {start length : Nat} {s : Span} (h : NamedBy start length s) :
    s.Aligned := by
  apply UInt32.toNat_inj.mp
  rw [UInt32.toNat_mod, h.offset_eq]
  exact Nat.mul_mod_right 4 s.start

theorem NamedBy.start_eq_of_le {start length : Nat} {s : Span} (h : NamedBy start length s)
    (hle : start ≤ 2 ^ 30) : s.start = start :=
  h.start_eq.trans (Nat.mod_eq_of_lt (by omega))

/-- A byte offset either reaches the word that is left after the cut, or the product overflows. -/
theorem ofStart_cases (start length : Nat) :
    (start % 2 ^ 32 < 2 ^ 30 ∧ ∃ s, ofStart start length = .ok s ∧ NamedBy start length s) ∨
      2 ^ 30 ≤ start % 2 ^ 32 ∧ ofStart start length = .error (.overflow "multiply") := by
  have hindex : (UInt32.ofNat start).toNat = start % 2 ^ 32 := UInt32.toNat_ofNat'
  have hbytes : sampleBytes.toNat = 4 := rfl
  have hsize : UInt32.size = 2 ^ 30 * 4 := rfl
  unfold ofStart
  simp only [hindex, hbytes, hsize]
  split_ifs with hfits
  · refine Or.inl ⟨by omega, _, rfl, ?_, ?_, rfl⟩ <;>
      simp only [Span.start, UInt32.toNat_div, UInt32.toNat_mul, hindex, hbytes] <;> omega
  · exact Or.inr ⟨by omega, rfl⟩

theorem namedBy_of_ofStart {start length : Nat} {s : Span} (h : ofStart start length = .ok s) :
    NamedBy start length s := by
  rcases ofStart_cases start length with ⟨-, t, ht, hnamed⟩ | ⟨-, hfault⟩
  · rw [h] at ht
    obtain rfl := Except.ok.inj ht
    exact hnamed
  · rw [h] at hfault
    cases hfault

theorem exists_ofStart {start : Nat} (h : start < 2 ^ 30) (length : Nat) :
    ∃ s, ofStart start length = .ok s := by
  rcases ofStart_cases start length with ⟨-, s, hs, -⟩ | ⟨hfar, -⟩
  · exact ⟨s, hs⟩
  · omega

/-- The spans lie one after another between word `cursor` and the end of the arena. -/
def LaidOut (capacity : Nat) : Nat → List Span → Prop
  | cursor, [] => cursor ≤ capacity
  | cursor, s :: rest =>
    cursor ≤ s.start ∧ 0 < s.length ∧ s.Aligned ∧ LaidOut capacity s.stop rest

namespace LaidOut

variable {capacity cursor : Nat} {spans : List Span}

theorem mono {cursor' : Nat} (h : LaidOut capacity cursor spans) (hle : cursor' ≤ cursor) :
    LaidOut capacity cursor' spans := by
  cases spans with
  | nil => exact hle.trans h
  | cons s rest => exact ⟨hle.trans h.1, h.2⟩

theorem cursor_le (h : LaidOut capacity cursor spans) : cursor ≤ capacity := by
  induction spans generalizing cursor with
  | nil => exact h
  | cons s rest ih =>
    obtain ⟨h1, -, -, h4⟩ := h
    exact h1.trans ((Nat.le_add_right s.start s.length).trans (ih h4))

/-- A span may be left out. -/
theorem tail {s : Span} (h : LaidOut capacity cursor (s :: spans)) :
    LaidOut capacity cursor spans :=
  h.2.2.2.mono (h.1.trans (Nat.le_add_right s.start s.length))

theorem sublist {fewer : List Span} (hs : fewer.Sublist spans)
    (h : LaidOut capacity cursor spans) : LaidOut capacity cursor fewer := by
  induction hs generalizing cursor with
  | slnil => exact h
  | cons s _ ih => exact ih h.tail
  | cons_cons s _ ih => exact ⟨h.1, h.2.1, h.2.2.1, ih h.2.2.2⟩

theorem mem {s : Span} (h : LaidOut capacity cursor spans) (hs : s ∈ spans) :
    cursor ≤ s.start ∧ s.stop ≤ capacity ∧ 0 < s.length ∧ s.Aligned := by
  induction spans generalizing cursor with
  | nil => cases hs
  | cons t rest ih =>
    rcases List.mem_cons.mp hs with rfl | hs
    · exact ⟨h.1, h.2.2.2.cursor_le, h.2.1, h.2.2.1⟩
    · exact ih h.tail hs

theorem pairwise_stop_le (h : LaidOut capacity cursor spans) :
    spans.Pairwise fun s t => s.stop ≤ t.start := by
  induction spans generalizing cursor with
  | nil => exact List.Pairwise.nil
  | cons s rest ih =>
    refine List.pairwise_cons.mpr ⟨?_, ih h.tail⟩
    intro t ht
    exact (h.2.2.2.mem ht).1

theorem pairwise_apart (h : LaidOut capacity cursor spans) : spans.Pairwise Apart :=
  h.pairwise_stop_le.imp Or.inl

/-- The words of the spans and those before the first of them fit the arena. -/
theorem add_total_le (h : LaidOut capacity cursor spans) :
    cursor + total spans ≤ capacity := by
  induction spans generalizing cursor with
  | nil => exact h
  | cons s rest ih =>
    have hstart := h.1
    have hrest := ih h.2.2.2
    rw [stop] at hrest
    rw [total]
    omega

/-- A span holds a word, so it does not lie after itself. -/
theorem nodup (h : LaidOut capacity cursor spans) : spans.Nodup := by
  have hp := h.pairwise_stop_le
  refine hp.imp_of_mem ?_
  rintro s t hs - hle rfl
  have := (h.mem hs).2.2.1
  simp only [stop] at hle
  omega

end LaidOut

end Span

namespace Arena

open AudioFraming.Span

/-- The spans in use are laid out in an arena that 32 bits can address. -/
structure Tidy (a : Arena) : Prop where
  capacity_le : a.capacity ≤ 2 ^ 30
  laidOut : LaidOut a.capacity 0 a.live

theorem tidy_ofCapacity {n : Nat} (h : n ≤ 2 ^ 30) : (ofCapacity n).Tidy where
  capacity_le := by rwa [capacity_ofCapacity]
  laidOut := Nat.zero_le _

theorem distance_of_le {a b : Nat} (h : b ≤ a) : distance a b = .ok (a - b) := if_pos h

theorem distance_of_lt {a b : Nat} (h : a < b) : distance a b = .error (.overflow "subtract") :=
  if_neg h.not_ge

/-! ## The search -/

section search

variable {capacity length cursor : Nat} {s : Span} {spans : List Span} {gap : Gap}

theorem firstFit_nil (h : cursor ≤ capacity) :
    firstFit capacity length cursor [] =
      .ok (if capacity - cursor < length then none else some ⟨cursor, [], []⟩) := by
  rw [firstFit, distance_of_le h]
  rfl

theorem firstFit_cons (h : cursor ≤ s.start) :
    firstFit capacity length cursor (s :: spans) =
      if length ≤ s.start - cursor then .ok (some ⟨cursor, [], s :: spans⟩)
      else (firstFit capacity length s.stop spans).map
        (Option.map fun gap => { gap with below := s :: gap.below }) := by
  rw [firstFit, distance_of_le h]
  change ite _ _ _ = _
  split_ifs
  · rfl
  · cases firstFit capacity length s.stop spans <;> rfl

theorem firstFit_nil_of_lt (h : capacity < cursor) :
    firstFit capacity length cursor [] = .error (.overflow "subtract") := by
  rw [firstFit, distance_of_lt h]
  rfl

theorem firstFit_cons_of_lt (h : s.start < cursor) :
    firstFit capacity length cursor (s :: spans) = .error (.overflow "subtract") := by
  rw [firstFit, distance_of_lt h]
  rfl

/-- A search that goes past a span finds what it finds behind the span. -/
theorem firstFit_cons_some (h : cursor ≤ s.start) (hroom : ¬length ≤ s.start - cursor)
    (hf : firstFit capacity length cursor (s :: spans) = .ok (some gap)) :
    ∃ behind, firstFit capacity length s.stop spans = .ok (some behind) ∧
      gap = { behind with below := s :: behind.below } := by
  rw [firstFit_cons h, if_neg hroom] at hf
  rcases hr : firstFit capacity length s.stop spans with cause | _ | behind
  · rw [hr] at hf
    cases hf
  · rw [hr] at hf
    cases hf
  · rw [hr] at hf
    cases hf
    exact ⟨behind, rfl, rfl⟩

/-- In laid out spans no distance is negative. -/
theorem exists_firstFit (length : Nat) (h : LaidOut capacity cursor spans) :
    ∃ found, firstFit capacity length cursor spans = .ok found := by
  induction spans generalizing cursor with
  | nil => exact ⟨_, firstFit_nil h⟩
  | cons s rest ih =>
    obtain ⟨found, hr⟩ := ih h.2.2.2
    rw [firstFit_cons h.1, hr]
    split_ifs
    · exact ⟨_, rfl⟩
    · exact ⟨_, rfl⟩

/-- The search goes through laid out spans and stops where they leave room. A span of the length
that starts there keeps them laid out. -/
theorem firstFit_some (hpos : 0 < length) (h : LaidOut capacity cursor spans)
    (hf : firstFit capacity length cursor spans = .ok (some gap)) :
    gap.start + length ≤ capacity ∧ spans = gap.below ++ gap.above ∧
      ∀ s : Span, s.start = gap.start → s.length = length → s.Aligned →
        LaidOut capacity cursor (gap.below ++ s :: gap.above) := by
  induction spans generalizing cursor gap with
  | nil =>
    have hcursor : cursor ≤ capacity := h
    rw [firstFit_nil hcursor] at hf
    split_ifs at hf with hroom
    · cases hf
    · cases hf
      dsimp only
      refine ⟨by omega, rfl, fun s hstart hlength hal => ⟨hstart.ge, hlength ▸ hpos, hal, ?_⟩⟩
      change s.stop ≤ capacity
      rw [stop, hstart, hlength]
      omega
  | cons t rest ih =>
    by_cases hroom : length ≤ t.start - cursor
    · have ht := h.mem (List.mem_cons_self ..)
      rw [firstFit_cons h.1, if_pos hroom] at hf
      cases hf
      have hle := h.1
      rw [stop] at ht
      dsimp only
      refine ⟨by omega, rfl, fun s hstart hlength hal =>
        ⟨hstart.ge, hlength ▸ hpos, hal, ?_, h.2⟩⟩
      rw [stop, hstart, hlength]
      omega
    · obtain ⟨behind, hr, rfl⟩ := firstFit_cons_some h.1 hroom hf
      obtain ⟨hend, hrest, hlaid⟩ := ih h.2.2.2 hr
      exact ⟨hend, congrArg (t :: ·) hrest, fun s hstart hlength hal =>
        ⟨h.1, h.2.1, h.2.2.1, hlaid s hstart hlength hal⟩⟩

end search

/-! ## Requests -/

theorem occupy_eq_ok_iff {a b : Arena} {gap : Gap} {length : Nat} {s : Span} :
    a.occupy gap length = .ok (s, b) ↔ Span.ofStart gap.start length = .ok s ∧
      gap.start + length ≤ a.capacity ∧
      b = ⟨a.words.silence gap.start length, gap.below ++ s :: gap.above⟩ := by
  unfold occupy
  cases Span.ofStart gap.start length with
  | error cause => simp [bind, Except.bind]
  | ok t =>
    simp only [bind, Except.bind, Except.ok.injEq]
    split_ifs with hend
    · constructor
      · intro h
        cases h
        exact ⟨rfl, hend, rfl⟩
      · rintro ⟨rfl, -, rfl⟩
        rfl
    · simp [hend]

/-- A request is answered if there is a gap for it and a byte offset can be computed. -/
theorem alloc_eq_ok_iff {a b : Arena} {length : Nat} {s : Span} :
    a.alloc length = .ok (s, b) ↔ 0 < length ∧
      ∃ gap, firstFit a.capacity length 0 a.live = .ok (some gap) ∧
        Span.ofStart gap.start length = .ok s ∧ gap.start + length ≤ a.capacity ∧
        b = ⟨a.words.silence gap.start length, gap.below ++ s :: gap.above⟩ := by
  unfold alloc
  split_ifs with h0
  · simp [h0]
  · rcases firstFit a.capacity length 0 a.live with cause | _ | gap
    · simp
    · cases distance a.capacity (total a.live) <;> simp
    · have hmap : (a.occupy gap length).mapError SetupError.aborted = .ok (s, b) ↔
          a.occupy gap length = .ok (s, b) := by
        cases a.occupy gap length <;> simp [Except.mapError]
      simp [hmap, occupy_eq_ok_iff, Nat.pos_of_ne_zero h0]

theorem length_of_alloc {a b : Arena} {length : Nat} {s : Span}
    (h : a.alloc length = .ok (s, b)) : s.length = length := by
  obtain ⟨-, gap, -, hs, -⟩ := alloc_eq_ok_iff.mp h
  exact (namedBy_of_ofStart hs).length_eq

/-- What taking a span does to a tidy arena. -/
structure Takes (a : Arena) (length : Nat) (s : Span) (b : Arena) : Prop where
  tidy : b.Tidy
  capacity_eq : b.capacity = a.capacity
  length_eq : s.length = length
  perm : b.live.Perm (s :: a.live)
  /-- Giving the span back leaves the spans in use as they were. -/
  erase_eq : b.live.erase s = a.live
  /-- Only words of the span change. -/
  get_eq : ∀ i, ¬s.Covers i → b.words.get i = a.words.get i

theorem takes_of_alloc {a b : Arena} {length : Nat} {s : Span} (ha : a.Tidy)
    (h : a.alloc length = .ok (s, b)) : a.Takes length s b := by
  obtain ⟨hpos, gap, hf, hs, hend, rfl⟩ := alloc_eq_ok_iff.mp h
  obtain ⟨-, hlive, hlaid⟩ := firstFit_some hpos ha.laidOut hf
  have hnamed := namedBy_of_ofStart hs
  have hcap := ha.capacity_le
  have hstart : s.start = gap.start := hnamed.start_eq_of_le (by omega)
  replace hlaid := hlaid s hstart hnamed.length_eq hnamed.aligned
  have hperm : (gap.below ++ s :: gap.above).Perm (s :: a.live) := by
    rw [hlive]
    exact List.perm_middle
  have hnot : s ∉ gap.below := by
    have hn := hlaid.nodup
    rw [List.nodup_append] at hn
    intro hmem
    exact hn.2.2 _ hmem _ (List.mem_cons_self ..) rfl
  refine ⟨⟨ha.capacity_le, ?_⟩, ?_, hnamed.length_eq, hperm, ?_, ?_⟩
  · exact hlaid
  · exact Cells.size_silence ..
  · rw [List.erase_append_right _ hnot, List.erase_cons_head, hlive]
  · intro i hi
    rw [Covers, stop, hstart, hnamed.length_eq] at hi
    rw [Cells.get_silence, if_neg hi]

namespace Tidy

variable {a : Arena}

theorem total_le (h : a.Tidy) : total a.live ≤ a.capacity :=
  (Nat.le_add_left ..).trans h.laidOut.add_total_le

/-- How a request on a tidy arena is answered: there is no word in it that a byte offset does not
reach. -/
theorem alloc_cases (h : a.Tidy) (length : Nat) :
    a.alloc length =
        .error (if length = 0 then .zeroSize "memory region" else .outOfMemory length a.free) ∨
      ∃ s b, a.alloc length = .ok (s, b) := by
  by_cases h0 : length = 0
  · left
    rw [alloc, if_pos h0, if_pos h0]
  have hpos : 0 < length := Nat.pos_of_ne_zero h0
  obtain ⟨_ | gap, hf⟩ := exists_firstFit length h.laidOut
  · left
    simp only [alloc, if_neg h0, hf, distance_of_le h.total_le]
    rfl
  · right
    have hend := (firstFit_some hpos h.laidOut hf).1
    have hcap := h.capacity_le
    obtain ⟨s, hs⟩ := exists_ofStart (show gap.start < 2 ^ 30 by omega) length
    exact ⟨s, _, alloc_eq_ok_iff.mpr ⟨hpos, gap, hf, hs, hend, rfl⟩⟩

theorem alloc_ne_aborted (h : a.Tidy) (length : Nat) (cause : Abort) :
    a.alloc length ≠ .error (.aborted cause) := by
  rcases h.alloc_cases length with he | ⟨s, b, hs⟩
  · rw [he]
    split_ifs <;> simp
  · simp [hs]

end Tidy

theorem discard_eq (a : Arena) (s : Span) : a.discard s = { a with live := a.live.erase s } := by
  unfold discard dealloc
  split_ifs with h
  · rfl
  · rw [List.erase_of_not_mem h]

theorem Tidy.discard {a : Arena} (h : a.Tidy) (s : Span) : (a.discard s).Tidy := by
  rw [discard_eq]
  exact ⟨h.capacity_le, h.laidOut.sublist List.erase_sublist⟩

/-- The words of a run may have changed, and nothing else. -/
structure ChangesWithin (a : Arena) (start length : Nat) (b : Arena) : Prop where
  live_eq : b.live = a.live
  capacity_eq : b.capacity = a.capacity
  get_eq : ∀ i, ¬(start ≤ i ∧ i < start + length) → b.words.get i = a.words.get i

namespace ChangesWithin

variable {a b c : Arena} {start length : Nat}

theorem refl (a : Arena) (start length : Nat) : a.ChangesWithin start length a :=
  ⟨rfl, rfl, fun _ _ => rfl⟩

theorem trans (h : a.ChangesWithin start length b) (h' : b.ChangesWithin start length c) :
    a.ChangesWithin start length c where
  live_eq := h'.live_eq.trans h.live_eq
  capacity_eq := h'.capacity_eq.trans h.capacity_eq
  get_eq i hi := (h'.get_eq i hi).trans (h.get_eq i hi)

theorem tidy (h : a.ChangesWithin start length b) (ha : a.Tidy) : b.Tidy where
  capacity_le := h.capacity_eq ▸ ha.capacity_le
  laidOut := by
    rw [h.capacity_eq, h.live_eq]
    exact ha.laidOut

end ChangesWithin

/-- A block written from a word on stays in its run, however long it is. -/
theorem changesWithin_write (a : Arena) (start length : Nat) (block : List Sample) :
    a.ChangesWithin start length
      { a with words := a.words.write start (Cells.cut block length) } where
  live_eq := rfl
  capacity_eq := Cells.size_write ..
  get_eq i hi := by
    rw [Cells.get_write, Cells.cut_eq_take]
    split_ifs with h
    · have hlen : (block.take length).length ≤ i - start := by
        rw [List.length_take]
        omega
      rw [List.getD_eq_default _ _ hlen]
    · rfl

end Arena

end AudioFraming
