import AudioFraming.Proofs.Arena.History

/-!
# First fit

A request is served with the lowest run of words that no span in use meets, and it is
refused only if there is no such run. The search goes through the gaps between the
spans, so it looks at few of all the places where a run could start: a span whose gap
is too small leaves nothing before its end (`setOf_vacant_cons`), and the recursion
of the search turns this into leastness over all places (`firstFit_isLeast`).

Every difference that is taken on the way is checked, and so are the byte offset and the
run that is silenced. In an arena of at most `2 ^ 30` words no check fails (`alloc?_eq`,
`free?_eq`).
-/

namespace AudioFraming

namespace Span

instance (s : Span) (i : Nat) : Decidable (s.Covers i) := inferInstanceAs (Decidable (_ ∧ _))

/-- A run of words, inside an arena, that no span meets. -/
structure Vacant (capacity : Nat) (spans : List Span) (length start : Nat) : Prop where
  stop_le : start + length ≤ capacity
  clear : ∀ s ∈ spans, ∀ i, start ≤ i → i < start + length → ¬s.Covers i

/-- The words of an arena that no span covers. -/
def uncovered (capacity : Nat) (spans : List Span) : Finset Nat :=
  (Finset.range capacity).filter fun i => ∀ s ∈ spans, ¬s.Covers i

/-- A run does not meet a span if it lies on one side of it. -/
theorem clear_iff {s : Span} {length start : Nat} (hs : 0 < s.length) (hpos : 0 < length) :
    (∀ i, start ≤ i → i < start + length → ¬s.Covers i) ↔
      s.stop ≤ start ∨ start + length ≤ s.start := by
  simp only [Covers, stop]
  constructor
  · intro h
    by_contra hmeet
    -- The later one of the two first words lies in both.
    exact h (max start s.start) (by omega) (by omega) (by omega)
  · intro h i h1 h2
    omega

namespace LaidOut

variable {capacity cursor length : Nat} {s : Span} {spans : List Span}

/-- A gap that is large enough is vacant from its start on. -/
theorem vacant_cursor (h : LaidOut capacity cursor (s :: spans))
    (hroom : length ≤ s.start - cursor) : Vacant capacity (s :: spans) length cursor := by
  have hs := h.mem (List.mem_cons_self ..)
  simp only [stop] at hs
  refine ⟨by omega, ?_⟩
  intro t ht i h1 h2 hcovers
  have hbefore : s.start ≤ t.start := by
    rcases List.mem_cons.mp ht with rfl | ht
    · exact le_rfl
    · have hnext := (h.2.2.2.mem ht).1
      simp only [stop] at hnext
      omega
  simp only [Covers] at hcovers
  omega

/-- With too small a gap before it, a span leaves no vacant run that starts before its end. -/
theorem setOf_vacant_cons (h : LaidOut capacity cursor (s :: spans)) (hpos : 0 < length)
    (hroom : ¬length ≤ s.start - cursor) :
    {i | cursor ≤ i ∧ Vacant capacity (s :: spans) length i} =
      {i | s.stop ≤ i ∧ Vacant capacity spans length i} := by
  have hclear : ∀ start, (∀ i, start ≤ i → i < start + length → ¬s.Covers i) ↔
      s.stop ≤ start ∨ start + length ≤ s.start := fun _ => clear_iff h.2.1 hpos
  ext i
  constructor
  · rintro ⟨hle, hstop, hfree⟩
    have hs := (hclear i).mp (hfree s (List.mem_cons_self ..))
    exact ⟨by omega, hstop, fun t ht => hfree t (List.mem_cons_of_mem _ ht)⟩
  · rintro ⟨hle, hstop, hfree⟩
    have hstart := h.1
    have hend : s.start ≤ s.stop := Nat.le_add_right ..
    refine ⟨by omega, hstop, ?_⟩
    intro t ht
    rcases List.mem_cons.mp ht with rfl | ht
    · exact (hclear i).mpr (Or.inl hle)
    · exact hfree t ht

/-- A span covers as many words as it is long, and no other span covers them. -/
theorem card_uncovered_cons (h : LaidOut capacity cursor (s :: spans)) :
    (uncovered capacity (s :: spans)).card + s.length = (uncovered capacity spans).card := by
  have hs := h.mem (List.mem_cons_self ..)
  have hapart := (List.pairwise_cons.mp h.pairwise_apart).1
  have hsplit : uncovered capacity (s :: spans) =
      uncovered capacity spans \ Finset.Ico s.start s.stop := by
    ext i
    have hcovers : i ∈ Finset.Ico s.start s.stop ↔ s.Covers i := Finset.mem_Ico
    simp only [uncovered, Finset.mem_filter, Finset.mem_sdiff, hcovers, List.forall_mem_cons]
    tauto
  have hsub : Finset.Ico s.start s.stop ⊆ uncovered capacity spans := by
    intro i hi
    have hcovers : s.Covers i := Finset.mem_Ico.mp hi
    refine Finset.mem_filter.mpr ⟨Finset.mem_range.mpr (hcovers.2.trans_le hs.2.1), ?_⟩
    exact fun t ht => (hapart t ht).not_covers hcovers
  have hcard : (Finset.Ico s.start s.stop).card = s.length := by
    rw [Nat.card_Ico, stop, Nat.add_sub_cancel_left]
  rw [hsplit, ← hcard]
  exact Finset.card_sdiff_add_card_eq_card hsub

theorem card_uncovered (h : LaidOut capacity cursor spans) :
    (uncovered capacity spans).card + total spans = capacity := by
  induction spans generalizing cursor with
  | nil => simp [uncovered, total]
  | cons s rest ih =>
    have hone := h.card_uncovered_cons
    have hrest := ih h.tail
    rw [total]
    omega

/-- Spans that follow each other are sorted by offset. -/
theorem pairwise_offset_lt (h : LaidOut capacity cursor spans) :
    spans.Pairwise fun s t => s.offset < t.offset := by
  refine h.pairwise_stop_le.imp_of_mem ?_
  intro s t hs ht hle
  have hpos := (h.mem hs).2.2.1
  simp only [stop, start, sampleBytes, UInt32.toNat_div] at hle
  change s.offset.toNat / 4 + s.length ≤ t.offset.toNat / 4 at hle
  exact UInt32.lt_iff_toNat_lt.mpr (by omega)

end LaidOut

end Span

namespace Arena

open AudioFraming.Span

section search

variable {capacity length cursor : Nat} {spans : List Span} {gap : Gap}

/-- The search finds the lowest vacant run, among all places where a run could start. -/
theorem firstFit_isLeast (hpos : 0 < length) (h : LaidOut capacity cursor spans)
    (hf : firstFit capacity length cursor spans = .ok (some gap)) :
    IsLeast {i | cursor ≤ i ∧ Vacant capacity spans length i} gap.start := by
  induction spans generalizing cursor gap with
  | nil =>
    have hcursor : cursor ≤ capacity := h
    rw [firstFit_nil hcursor] at hf
    split_ifs at hf with hroom
    · cases hf
    · cases hf
      exact ⟨⟨le_rfl, by dsimp only; omega, by simp⟩, fun i hi => hi.1⟩
  | cons s rest ih =>
    by_cases hroom : length ≤ s.start - cursor
    · rw [firstFit_cons h.1, if_pos hroom] at hf
      cases hf
      exact ⟨⟨le_rfl, h.vacant_cursor hroom⟩, fun i hi => hi.1⟩
    · obtain ⟨behind, hr, rfl⟩ := firstFit_cons_some h.1 hroom hf
      have hleast := ih h.2.2.2 hr
      rw [h.setOf_vacant_cons hpos hroom]
      exact hleast

/-- The search fails only where there is no vacant run. -/
theorem not_vacant_of_firstFit (hpos : 0 < length) (h : LaidOut capacity cursor spans)
    (hf : firstFit capacity length cursor spans = .ok none) :
    {i | cursor ≤ i ∧ Vacant capacity spans length i} = ∅ := by
  induction spans generalizing cursor with
  | nil =>
    have hcursor : cursor ≤ capacity := h
    rw [firstFit_nil hcursor] at hf
    split_ifs at hf with hroom
    · refine Set.eq_empty_of_forall_notMem ?_
      rintro i ⟨hle, hstop, -⟩
      omega
    · cases hf
  | cons s rest ih =>
    by_cases hroom : length ≤ s.start - cursor
    · rw [firstFit_cons h.1, if_pos hroom] at hf
      cases hf
    · rw [firstFit_cons h.1, if_neg hroom] at hf
      obtain ⟨found, hr⟩ := exists_firstFit length h.2.2.2
      rw [hr] at hf
      obtain rfl : found = none := Option.map_eq_none_iff.mp (Except.ok.inj hf)
      rw [h.setOf_vacant_cons hpos hroom]
      exact ih h.2.2.2 hr

end search

/-! ## Checks that do not fail -/

/-- The words that no span covers, unless the spans together are longer than the arena. -/
def free? (a : Arena) : Option Nat := (distance a.capacity (total a.live)).toOption

/-- What a request is answered, unless the program ends there. -/
def alloc? (a : Arena) (length : Nat) : Option (Except SetupError (Span × Arena)) :=
  match a.alloc length with
  | .error (.aborted _) => none
  | answer => some answer

namespace Tidy

variable {a : Arena}

theorem free?_eq (h : a.Tidy) : a.free? = some a.free := by
  rw [free?, distance_of_le h.total_le]
  rfl

/-- The free words are counted right. -/
theorem free_eq (h : a.Tidy) : a.free = (uncovered a.capacity a.live).card := by
  have hcard := h.laidOut.card_uncovered
  rw [free]
  omega

theorem alloc?_eq (h : a.Tidy) (length : Nat) : a.alloc? length = some (a.alloc length) := by
  unfold alloc?
  split
  · rename_i cause hcause
    exact absurd hcause (h.alloc_ne_aborted length cause)
  · rfl

end Tidy

/-! ## Requests -/

/-- A request is served with the lowest vacant run. It is silent, and nothing else changes. -/
structure Serves (a : Arena) (length : Nat) (s : Span) (b : Arena) : Prop where
  lowest : IsLeast {i | Vacant a.capacity a.live length i} s.start
  offset_eq : s.offset.toNat = 4 * s.start
  length_eq : s.length = length
  live_eq : ∃ before after, a.live = before ++ after ∧ b.live = before ++ s :: after
  capacity_eq : b.capacity = a.capacity
  get_eq : ∀ i, b.words.get i = if s.Covers i then .zero else a.words.get i

/-- A gap of laid out spans serves a request if a byte offset reaches it. -/
theorem serves_of_start_lt {a : Arena} {length : Nat} {gap : Gap} {s : Span} (hpos : 0 < length)
    (h : LaidOut a.capacity 0 a.live)
    (hf : firstFit a.capacity length 0 a.live = .ok (some gap))
    (hs : Span.ofStart gap.start length = .ok s) (hlt : gap.start < 2 ^ 30) :
    a.Serves length s ⟨a.words.silence gap.start length, gap.below ++ s :: gap.above⟩ := by
  have hleast := firstFit_isLeast hpos h hf
  obtain ⟨-, hlive, -⟩ := firstFit_some hpos h hf
  have hnamed := namedBy_of_ofStart hs
  have hstart : s.start = gap.start := hnamed.start_eq_of_le hlt.le
  refine ⟨?_, hnamed.offset_eq, hnamed.length_eq, ⟨_, _, hlive, rfl⟩, Cells.size_silence .., ?_⟩
  · simpa [hstart] using hleast
  · intro i
    simp only [Cells.get_silence, Covers, stop, hstart, hnamed.length_eq]

theorem serves_of_alloc {a b : Arena} {length : Nat} {s : Span} (ha : a.Tidy)
    (h : a.alloc length = .ok (s, b)) : a.Serves length s b := by
  obtain ⟨hpos, gap, hf, hs, hend, rfl⟩ := alloc_eq_ok_iff.mp h
  have hcap := ha.capacity_le
  exact serves_of_start_lt hpos ha.laidOut hf hs (by omega)

/-- A request is served exactly if it is for a word or more and there is a vacant run. -/
theorem exists_alloc_iff {a : Arena} (ha : a.Tidy) (length : Nat) :
    (∃ s b, a.alloc length = .ok (s, b)) ↔
      0 < length ∧ ∃ start, Vacant a.capacity a.live length start := by
  constructor
  · rintro ⟨s, b, h⟩
    exact ⟨(alloc_eq_ok_iff.mp h).1, s.start, (serves_of_alloc ha h).lowest.1⟩
  · rintro ⟨hpos, start, hvacant⟩
    obtain ⟨_ | gap, hf⟩ := exists_firstFit length ha.laidOut
    · have hnone := not_vacant_of_firstFit hpos ha.laidOut hf
      exact absurd ⟨Nat.zero_le _, hvacant⟩ (Set.eq_empty_iff_forall_notMem.mp hnone start)
    · have hend := (firstFit_some hpos ha.laidOut hf).1
      have hcap := ha.capacity_le
      obtain ⟨s, hs⟩ := exists_ofStart (show gap.start < 2 ^ 30 by omega) length
      exact ⟨s, _, alloc_eq_ok_iff.mpr ⟨hpos, gap, hf, hs, hend, rfl⟩⟩

theorem alloc_eq_error {a : Arena} {length : Nat} {e : SetupError} (ha : a.Tidy)
    (h : a.alloc length = .error e) :
    e = if length = 0 then .zeroSize "memory region" else .outOfMemory length a.free := by
  rcases ha.alloc_cases length with he | ⟨s, b, hs⟩
  · rw [he] at h
    exact (Except.error.inj h).symm
  · rw [hs] at h
    cases h

/-- After any history the spans in use are sorted, not empty, apart from each other and inside the
arena, and no difference that the arena takes is negative. A request gets the lowest vacant run if
there is one, and else it changes nothing and is told how many words are free. -/
theorem alloc_serves_lowest {n : Nat} (hn : n ≤ 2 ^ 30) (history : List ArenaCall)
    (length : Nat) :
    let a := (ofCapacity n).replay history
    (a.live.Pairwise (fun s t => s.offset < t.offset) ∧ a.live.Pairwise Apart ∧
      ∀ s ∈ a.live, 0 < s.length ∧ s.stop ≤ n) ∧
    a.alloc? length = some (a.alloc length) ∧ a.free? = some a.free ∧
    a.free = (uncovered n a.live).card ∧
    ((∃ s b, a.alloc length = .ok (s, b)) ↔
      0 < length ∧ ∃ start, Vacant n a.live length start) ∧
    (∀ s b, a.alloc length = .ok (s, b) → a.Serves length s b) ∧
    ∀ e, a.alloc length = .error e →
      e = (if length = 0 then .zeroSize "memory region" else .outOfMemory length a.free) ∧
        a.after (.alloc length) = a := by
  intro a
  have htidy : a.Tidy := tidy_replay hn history
  have hcap : a.capacity = n := (capacity_replay _ _).trans (capacity_ofCapacity n)
  have hlaid := htidy.laidOut
  refine ⟨⟨hlaid.pairwise_offset_lt, hlaid.pairwise_apart, ?_⟩, htidy.alloc?_eq length,
    htidy.free?_eq, hcap ▸ htidy.free_eq, hcap ▸ exists_alloc_iff htidy length,
    fun s b => serves_of_alloc htidy, ?_⟩
  · intro s hs
    obtain ⟨-, hstop, hpos, -⟩ := hlaid.mem hs
    exact ⟨hpos, hcap ▸ hstop⟩
  · intro e he
    refine ⟨alloc_eq_error htidy he, ?_⟩
    simp only [after, he]

/-- Two words are free between the spans and one after them: enough for a run of two, but not for
one of three. -/
theorem alloc_serves_lowest_of_gap :
    let a := (ofCapacity 10).replay
      [.alloc 3, .alloc 2, .alloc 4, .dealloc ⟨12, 2⟩, .write 12 1 [.one]]
    10 ≤ 2 ^ 30 ∧
      (∃ b, a.alloc 2 = .ok (⟨12, 2⟩, b) ∧ a.Serves 2 ⟨12, 2⟩ b) ∧
      a.alloc 3 = .error (.outOfMemory 3 3) ∧ ¬∃ start, Vacant 10 a.live 3 start := by
  have hserved := (alloc_serves_lowest (n := 10) (by decide)
    [.alloc 3, .alloc 2, .alloc 4, .dealloc ⟨12, 2⟩, .write 12 1 [.one]] 2).2.2.2.2.2.1
  have hrefused := (alloc_serves_lowest (n := 10) (by decide)
    [.alloc 3, .alloc 2, .alloc 4, .dealloc ⟨12, 2⟩, .write 12 1 [.one]] 3).2.2.2.2.1
  have hfault : ((ofCapacity 10).replay
      [.alloc 3, .alloc 2, .alloc 4, .dealloc ⟨12, 2⟩, .write 12 1 [.one]]).alloc 3 =
        .error (.outOfMemory 3 3) := by rfl
  refine ⟨by decide, ⟨_, rfl, hserved _ _ rfl⟩, hfault, ?_⟩
  intro hvacant
  obtain ⟨s, b, hb⟩ := hrefused.mpr ⟨by decide, hvacant⟩
  rw [hfault] at hb
  cases hb

end Arena

end AudioFraming
