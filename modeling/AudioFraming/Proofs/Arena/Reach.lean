import AudioFraming.Proofs.Arena.FirstFit
import AudioFraming.Proofs.Framer.Start

/-!
# How far byte offsets reach

A byte offset has 32 bits, so it names the words below `2 ^ 30` only, but nothing bounds the size of
an arena. What becomes of a request that is placed further up depends on what is left of the place
modulo `2 ^ 32` (`alloc_of_isLeast`). Mostly the product overflows, which ends the program. Where it
does not, the span names a lower word than the one that was silenced, and meets a span in use,
because the place was the lowest one with room (`exists_place`).

So all requests are answered, and answered right, exactly if an arena has at most `2 ^ 30` words.
Those that are answered are answered right exactly if it has at most `2 ^ 32` (`offsets_reach`).
-/

namespace AudioFraming

namespace Arena

open AudioFraming.Span

variable {a b : Arena} {length start : Nat} {s t : Span}

/-! ## One request -/

/-- A run that is named by a span apart from all spans in use is vacant. -/
theorem vacant_of_apart {capacity : Nat} {spans : List Span} (hstop : s.stop ≤ capacity)
    (h : ∀ t ∈ spans, s.Apart t) : Vacant capacity spans s.length s.start where
  stop_le := hstop
  clear t ht _ hle hlt := (h t ht).not_covers ⟨hle, hlt⟩

/-- A span that is answered is apart from the others if all spans in use are. -/
theorem apart_of_alloc (h : a.alloc length = .ok (s, b))
    (hlaid : LaidOut a.capacity 0 a.live) (hapart : b.live.Pairwise Apart) :
    ∀ t ∈ a.live, s.Apart t := by
  obtain ⟨hpos, gap, hf, -, -, rfl⟩ := alloc_eq_ok_iff.mp h
  rw [List.pairwise_middle Apart.symm, List.pairwise_cons,
    ← (firstFit_some hpos hlaid hf).2.1] at hapart
  exact hapart.1

/-- A request that is answered has been given the lowest vacant run. The span names that run if it
starts below word `2 ^ 30`. A span that starts elsewhere meets one in use, since it starts lower. -/
theorem exists_place (hlaid : LaidOut a.capacity 0 a.live) (h : a.alloc length = .ok (s, b)) :
    ∃ start, IsLeast {i | Vacant a.capacity a.live length i} start ∧
      b.words = a.words.silence start length ∧ s.start = start % 2 ^ 32 ∧
      (start < 2 ^ 30 → a.Serves length s b ∧ LaidOut b.capacity 0 b.live) ∧
      (2 ^ 30 ≤ start → 2 ^ 32 ≤ start ∧ ¬b.live.Pairwise Apart) := by
  obtain ⟨hpos, gap, hf, hs, hend, rfl⟩ := alloc_eq_ok_iff.mp h
  obtain ⟨-, -, hplace⟩ := firstFit_some hpos hlaid hf
  have hnamed := namedBy_of_ofStart hs
  have hleast : IsLeast {i | Vacant a.capacity a.live length i} gap.start := by
    simpa using firstFit_isLeast hpos hlaid hf
  refine ⟨gap.start, hleast, rfl, hnamed.start_eq, fun hlt => ⟨?_, ?_⟩, fun hfar => ?_⟩
  · exact serves_of_start_lt hpos hlaid hf hs hlt
  · have hcap : (a.words.silence gap.start length).size = a.capacity := Cells.size_silence ..
    rw [capacity, hcap]
    exact hplace s (hnamed.start_eq_of_le hlt.le) hnamed.length_eq hnamed.aligned
  · have hstart := hnamed.start_eq
    have hreach := s.start_lt
    refine ⟨by omega, fun hapart => ?_⟩
    have hothers := apart_of_alloc h hlaid hapart
    have hbelow : s.start < gap.start := by omega
    have hstop : s.stop ≤ a.capacity := by
      rw [stop, hnamed.length_eq]
      omega
    have hvacant := vacant_of_apart hstop hothers
    rw [hnamed.length_eq] at hvacant
    exact hbelow.not_ge (hleast.2 hvacant)

/-- What becomes of a request that there is room for. -/
theorem alloc_of_isLeast (hlaid : LaidOut a.capacity 0 a.live) (hpos : 0 < length)
    (hleast : IsLeast {i | Vacant a.capacity a.live length i} start) :
    (start % 2 ^ 32 < 2 ^ 30 ∧ ∃ s b, a.alloc length = .ok (s, b)) ∨
      2 ^ 30 ≤ start % 2 ^ 32 ∧ a.alloc length = .error (.aborted (.overflow "multiply")) := by
  obtain ⟨_ | gap, hf⟩ := exists_firstFit length hlaid
  · have hnone := not_vacant_of_firstFit hpos hlaid hf
    exact absurd ⟨Nat.zero_le _, hleast.1⟩ (Set.eq_empty_iff_forall_notMem.mp hnone start)
  have hgap : IsLeast {i | Vacant a.capacity a.live length i} gap.start := by
    simpa using firstFit_isLeast hpos hlaid hf
  obtain rfl := hleast.unique hgap
  have hend := (firstFit_some hpos hlaid hf).1
  rcases ofStart_cases gap.start length with ⟨hlt, s, hs, -⟩ | ⟨hle, hfault⟩
  · exact Or.inl ⟨hlt, s, _, alloc_eq_ok_iff.mpr ⟨hpos, gap, hf, hs, hend, rfl⟩⟩
  · refine Or.inr ⟨hle, ?_⟩
    simp only [alloc, if_neg hpos.ne', hf, occupy, hfault]
    rfl

/-- Below word `2 ^ 30` requests are served, and the spans stay laid out. -/
theorem exists_near (hlaid : LaidOut a.capacity 0 a.live) (hpos : 0 < length)
    (hleast : IsLeast {i | Vacant a.capacity a.live length i} start) (hlt : start < 2 ^ 30) :
    ∃ s b, a.alloc length = .ok (s, b) ∧ a.Serves length s b ∧ LaidOut b.capacity 0 b.live ∧
      s.start = start := by
  rcases alloc_of_isLeast hlaid hpos hleast with ⟨-, s, b, hs⟩ | ⟨hfar, -⟩
  · obtain ⟨start', hleast', -, -, hnear, -⟩ := exists_place hlaid hs
    obtain rfl := hleast.unique hleast'
    obtain ⟨hserves, hlaid'⟩ := hnear hlt
    exact ⟨s, b, hs, hserves, hlaid', hserves.lowest.unique hleast⟩
  · omega

/-- Beyond word `2 ^ 32` some requests are answered, with a span that meets another one. -/
theorem exists_cut (hlaid : LaidOut a.capacity 0 a.live) (hpos : 0 < length)
    (hleast : IsLeast {i | Vacant a.capacity a.live length i} start) (hfar : 2 ^ 32 ≤ start)
    (hmod : start % 2 ^ 32 < 2 ^ 30) :
    ∃ s b, a.alloc length = .ok (s, b) ∧ b.words = a.words.silence start length ∧
      s.start = start % 2 ^ 32 ∧ ¬b.live.Pairwise Apart := by
  rcases alloc_of_isLeast hlaid hpos hleast with ⟨-, s, b, hs⟩ | ⟨hover, -⟩
  · obtain ⟨start', hleast', hwords, hstart, -, hmeet⟩ := exists_place hlaid hs
    obtain rfl := hleast.unique hleast'
    exact ⟨s, b, hs, hwords, hstart, (hmeet (by omega)).2⟩
  · omega

/-! ## Histories -/

/-- Spans stay laid out as long as requests leave them so. -/
theorem laidOut_after (hlaid : LaidOut a.capacity 0 a.live) (c : ArenaCall)
    (halloc : ∀ length s, a.alloc length = .ok (s, a.after c) →
      LaidOut (a.after c).capacity 0 (a.after c).live) :
    LaidOut (a.after c).capacity 0 (a.after c).live := by
  rcases a.after_cases c with ⟨length, s, -, hs⟩ | ⟨hcap, hlive⟩
  · exact halloc length s hs
  · exact hcap ▸ hlaid.sublist hlive

/-- As long as no two spans have shared a word, the spans are laid out. -/
theorem laidOut_replay {n : Nat} {history : List ArenaCall}
    (hapart : ∀ earlier, earlier <+: history →
      ((ofCapacity n).replay earlier).live.Pairwise Apart) :
    LaidOut ((ofCapacity n).replay history).capacity 0 ((ofCapacity n).replay history).live := by
  induction history using List.reverseRecOn with
  | nil => exact Nat.zero_le _
  | append_singleton history c ih =>
    have hreplay : (ofCapacity n).replay (history ++ [c]) =
        ((ofCapacity n).replay history).after c := List.foldl_concat ..
    have hall := hapart _ List.prefix_rfl
    have hbefore := ih fun earlier h => hapart earlier (h.trans (List.prefix_append ..))
    rw [hreplay] at hall ⊢
    refine laidOut_after hbefore c fun length s hs => ?_
    obtain ⟨start, -, -, -, hnear, hfar⟩ := exists_place hbefore hs
    by_cases hlt : start < 2 ^ 30
    · exact (hnear hlt).2
    · exact absurd hall (hfar (Nat.le_of_not_lt hlt)).2

/-- Up to `2 ^ 32` words no number of a word is cut, so a span is where it says or there is none. -/
theorem exists_place_of_le (hlaid : LaidOut a.capacity 0 a.live) (hcap : a.capacity ≤ 2 ^ 32)
    (h : a.alloc length = .ok (s, b)) : a.Serves length s b ∧ LaidOut b.capacity 0 b.live := by
  obtain ⟨hpos, -⟩ := alloc_eq_ok_iff.mp h
  obtain ⟨start, hleast, -, -, hnear, hfar⟩ := exists_place hlaid h
  have hend := hleast.1.stop_le
  refine hnear ?_
  by_contra hle
  have := (hfar (Nat.le_of_not_lt hle)).1
  omega

theorem laidOut_after_of_le (hlaid : LaidOut a.capacity 0 a.live) (hcap : a.capacity ≤ 2 ^ 32)
    (c : ArenaCall) : LaidOut (a.after c).capacity 0 (a.after c).live :=
  laidOut_after hlaid c fun _ _ hs => (exists_place_of_le hlaid hcap hs).2

theorem laidOut_replay_of_le {n : Nat} (hn : n ≤ 2 ^ 32) (history : List ArenaCall) :
    LaidOut ((ofCapacity n).replay history).capacity 0 ((ofCapacity n).replay history).live :=
  (List.foldlRecOn (motive := fun a : Arena => a.capacity ≤ 2 ^ 32 ∧ LaidOut a.capacity 0 a.live)
    history after ⟨(capacity_ofCapacity n).trans_le hn, Nat.zero_le _⟩
    fun a ha c _ => ⟨(a.capacity_after c).trans_le ha.1, laidOut_after_of_le ha.2 ha.1 c⟩).2

/-! ## The end of the arena -/

/-- Each span leaves room behind its first word for itself and all that follow it in the list. This
does not say that they are apart. -/
def Stacked (capacity : Nat) : List Span → Prop
  | [] => True
  | s :: rest => s.start + total (s :: rest) ≤ capacity ∧ Stacked capacity rest

theorem total_le_of_sublist {spans fewer : List Span} (hs : fewer.Sublist spans) :
    total fewer ≤ total spans := by
  induction hs with
  | slnil => exact le_rfl
  | cons s _ ih => exact ih.trans (Nat.le_add_left ..)
  | cons_cons s _ ih => exact Nat.add_le_add_left ih s.length

theorem Stacked.sublist {capacity : Nat} {spans fewer : List Span} (hs : fewer.Sublist spans)
    (h : Stacked capacity spans) : Stacked capacity fewer := by
  induction hs with
  | slnil => trivial
  | cons s _ ih => exact ih h.2
  | cons_cons s hrest ih =>
    exact ⟨(Nat.add_le_add_left (total_le_of_sublist (hrest.cons_cons s)) _).trans h.1, ih h.2⟩

theorem Stacked.total_le {capacity : Nat} {spans : List Span} (h : Stacked capacity spans) :
    total spans ≤ capacity := by
  cases spans with
  | nil => exact Nat.zero_le _
  | cons s rest => exact (Nat.le_add_left ..).trans h.1

/-- The search only goes past a span that starts at the cursor or beyond, and so it ends where there
is room, for a span that starts there or lower as well. -/
theorem Stacked.insert {capacity cursor : Nat} {spans : List Span} {gap : Gap}
    (h : Stacked capacity spans)
    (hf : firstFit capacity length cursor spans = .ok (some gap)) (hlength : s.length = length)
    (hstart : s.start ≤ gap.start) :
    Stacked capacity (gap.below ++ s :: gap.above) ∧ gap.start + length ≤ capacity ∧
      cursor + total (gap.below ++ s :: gap.above) ≤ capacity := by
  induction spans generalizing cursor gap with
  | nil =>
    rcases Nat.lt_or_ge capacity cursor with hlt | hle
    · simp [firstFit_nil_of_lt hlt] at hf
    rw [firstFit_nil hle] at hf
    split_ifs at hf with hroom
    · cases hf
    · cases hf
      simp only [List.nil_append, Stacked, total] at hstart ⊢
      exact ⟨⟨by omega, trivial⟩, by omega, by omega⟩
  | cons t rest ih =>
    rcases Nat.lt_or_ge t.start cursor with hlt | hle
    · simp [firstFit_cons_of_lt hlt] at hf
    by_cases hroom : length ≤ t.start - cursor
    · rw [firstFit_cons hle, if_pos hroom] at hf
      cases hf
      obtain ⟨ht, hrest⟩ := h
      simp only [List.nil_append, Stacked, total] at hstart ht ⊢
      exact ⟨⟨by omega, ht, hrest⟩, by omega, by omega⟩
    · obtain ⟨behind, hr, rfl⟩ := firstFit_cons_some hle hroom hf
      obtain ⟨hstack, hend, hsum⟩ := ih h.2 hr hstart
      rw [stop] at hsum
      simp only [List.cons_append, Stacked, total]
      exact ⟨⟨by omega, hstack⟩, hend, by omega⟩

theorem stacked_after (h : Stacked a.capacity a.live) (c : ArenaCall) :
    Stacked (a.after c).capacity (a.after c).live := by
  rw [capacity_after]
  rcases a.after_cases c with ⟨length, s, -, hs⟩ | ⟨-, hlive⟩
  · obtain ⟨-, gap, hf, hoffset, -, hb⟩ := alloc_eq_ok_iff.mp hs
    have hnamed := namedBy_of_ofStart hoffset
    rw [hb]
    exact (h.insert hf hnamed.length_eq (hnamed.start_eq.trans_le (Nat.mod_le ..))).1
  · exact h.sublist hlive

theorem stacked_replay (n : Nat) (history : List ArenaCall) :
    Stacked ((ofCapacity n).replay history).capacity ((ofCapacity n).replay history).live :=
  List.foldlRecOn (motive := fun a : Arena => Stacked a.capacity a.live) history after trivial
    fun _ ha c _ => stacked_after ha c

theorem overflow_of_firstFit {capacity cursor : Nat} {spans : List Span} {cause : Abort}
    (hf : firstFit capacity length cursor spans = .error cause) :
    cause = .overflow "subtract" := by
  induction spans generalizing cursor with
  | nil =>
    rcases Nat.lt_or_ge capacity cursor with hlt | hle
    · rw [firstFit_nil_of_lt hlt] at hf
      exact (Except.error.inj hf).symm
    · simp [firstFit_nil hle] at hf
  | cons t rest ih =>
    rcases Nat.lt_or_ge t.start cursor with hlt | hle
    · rw [firstFit_cons_of_lt hlt] at hf
      exact (Except.error.inj hf).symm
    rw [firstFit_cons hle] at hf
    split_ifs at hf
    rcases hr : firstFit capacity length t.stop rest with fault | found
    · rw [hr] at hf
      cases hf
      exact ih hr
    · rw [hr] at hf
      cases hf

/-- Whatever the spans are like, the free words can be counted and the run that is silenced lies in
the arena. A request can only end the program with a number that does not fit. -/
theorem overflow_of_alloc (h : Stacked a.capacity a.live) {cause : Abort}
    (hfault : a.alloc length = .error (.aborted cause)) :
    cause = .overflow "subtract" ∨ cause = .overflow "multiply" := by
  have htotal : total a.live ≤ a.capacity := h.total_le
  unfold alloc at hfault
  split_ifs at hfault
  · cases hfault
  rcases hf : firstFit a.capacity length 0 a.live with fault | _ | gap
  · simp only [hf, Except.error.injEq, SetupError.aborted.injEq] at hfault
    exact Or.inl (hfault ▸ overflow_of_firstFit hf)
  · simp [hf, distance_of_le htotal] at hfault
  · simp only [hf, occupy] at hfault
    rcases ofStart_cases gap.start length with ⟨-, s, hs, hnamed⟩ | ⟨-, hover⟩
    · have hend :=
        (h.insert hf hnamed.length_eq (hnamed.start_eq.trans_le (Nat.mod_le ..))).2.1
      simp [hs, hend, bind, Except.bind, pure, Except.pure, Except.mapError] at hfault
    · simp only [hover, bind, Except.bind, Except.mapError, Except.error.injEq,
        SetupError.aborted.injEq] at hfault
      exact Or.inr hfault.symm

/-! ## Behind a span at the first word -/

/-- In a new arena a request gets the first words. -/
theorem exists_first {n : Nat} (hpos : 0 < length) (hle : length ≤ n) :
    ∃ s b, (ofCapacity n).alloc length = .ok (s, b) ∧ s.start = 0 ∧ s.length = length ∧
      b.capacity = n ∧ b.live = [s] ∧ LaidOut b.capacity 0 b.live := by
  have hcap : (ofCapacity n).capacity = n := capacity_ofCapacity n
  have hleast : IsLeast {i | Vacant (ofCapacity n).capacity [] length i} 0 :=
    ⟨⟨by rwa [hcap, Nat.zero_add], by simp⟩, fun i _ => Nat.zero_le i⟩
  obtain ⟨s, b, hs, hserves, hlaid, hstart⟩ :=
    exists_near (a := ofCapacity n) (Nat.zero_le _) hpos hleast (by decide)
  obtain ⟨before, after, hnil, hlive⟩ := hserves.live_eq
  obtain ⟨rfl, rfl⟩ := List.append_eq_nil_iff.mp hnil.symm
  exact ⟨s, b, hs, hstart, hserves.length_eq, hserves.capacity_eq.trans hcap, hlive, hlaid⟩

/-- Behind a span at the first word there is only the rest of the arena. -/
theorem vacant_behind_iff {capacity i : Nat} (hstart : s.start = 0) (hs : 0 < s.length)
    (hpos : 0 < length) :
    Vacant capacity [s] length i ↔ s.length ≤ i ∧ i + length ≤ capacity := by
  have hclear : (∀ j, i ≤ j → j < i + length → ¬s.Covers j) ↔ s.length ≤ i ∨ i + length ≤ 0 := by
    rw [clear_iff hs hpos, stop, hstart, Nat.zero_add]
  constructor
  · rintro ⟨hend, hfree⟩
    have := hclear.mp (hfree s (List.mem_singleton_self s))
    omega
  · rintro ⟨hle, hend⟩
    refine ⟨hend, fun t ht => ?_⟩
    obtain rfl := List.mem_singleton.mp ht
    exact hclear.mpr (Or.inl hle)

theorem isLeast_behind {capacity : Nat} (hstart : s.start = 0) (hs : 0 < s.length)
    (hpos : 0 < length) (hroom : s.length + length ≤ capacity) :
    IsLeast {i | Vacant capacity [s] length i} s.length :=
  ⟨(vacant_behind_iff hstart hs hpos).mpr ⟨le_rfl, hroom⟩,
    fun _ hi => ((vacant_behind_iff hstart hs hpos).mp hi).1⟩

/-- If a request has got the first words of a new arena, the next one gets those behind. -/
theorem exists_behind {n m : Nat} (hm : 0 < m) (hpos : 0 < length) (hroom : m + length ≤ n) :
    let a := (ofCapacity n).replay [.alloc m]
    ∃ s, (ofCapacity n).alloc m = .ok (s, a) ∧ a.live = [s] ∧ s.start = 0 ∧ s.length = m ∧
      a.capacity = n ∧ LaidOut a.capacity 0 a.live ∧
      IsLeast {i | Vacant a.capacity a.live length i} m := by
  intro a
  obtain ⟨s, b, hs, hstart, rfl, hcap, hlive, hlaid⟩ :=
    exists_first hm ((Nat.le_add_right _ _).trans hroom)
  have hb : a = b := by simp only [a, replay, List.foldl_cons, List.foldl_nil, after, hs]
  have hleast := isLeast_behind hstart hm hpos (hroom.trans_eq hcap.symm)
  rw [hb]
  exact ⟨s, hs, hlive, hstart, rfl, hcap, hlaid, hlive ▸ hleast⟩

/-! ## Two spans -/

/-- The spans of a lease are two that come out of the engine's arena. -/
theorem allocTwo_of_take {σ : Type} [Engine σ] {e e' : σ} {lease : Lease}
    (h : Lease.take e length = (.ok lease, e')) :
    ((Engine.arena e).allocTwo length).1 = .ok (lease.inputSpan, lease.outputSpan) := by
  unfold Lease.take at h
  rcases hspans : (Engine.arena e).allocTwo length with ⟨fault | ⟨s, t⟩, a⟩
  · rw [hspans] at h
    cases (Prod.mk.inj h).1
  · rcases hcreate : Engine.create (Engine.withArena e a) with ⟨fault | handle, e''⟩
    · simp [hspans, hcreate] at h
    · simp only [hspans, hcreate, Prod.mk.injEq, Except.ok.injEq] at h
      obtain ⟨rfl, -⟩ := h
      rfl

/-- A lease is refused where the spans are, or by the engine. -/
theorem take_eq_aborted_iff {σ : Type} [Engine σ] (e : σ) (cause : Abort) :
    (Lease.take e length).1 = .error (.aborted cause) ↔
      ((Engine.arena e).allocTwo length).1 = .error (.aborted cause) := by
  unfold Lease.take
  rcases (Engine.arena e).allocTwo length with ⟨fault | ⟨s, t⟩, a⟩
  · simp
  · rcases hcreate : Engine.create (Engine.withArena e a) with ⟨fault | handle, e'⟩ <;>
      simp [hcreate]

theorem apart_of_allocTwo (hlaid : LaidOut a.capacity 0 a.live) (hcap : a.capacity ≤ 2 ^ 32)
    (h : (a.allocTwo length).1 = .ok (s, t)) : s.Apart t := by
  obtain ⟨b, c, hs, ht⟩ := ok_of_allocTwo h
  obtain ⟨hserves, hlaid'⟩ := exists_place_of_le hlaid hcap hs
  have hpairs := (exists_place_of_le hlaid' (hserves.capacity_eq.trans_le hcap) ht).2.pairwise_apart
  obtain ⟨before, after, -, hlive⟩ := hserves.live_eq
  have hs : s ∈ b.live := by simp [hlive]
  exact (apart_of_alloc ht hlaid' hpairs s hs).symm

/-- In a new arena the second span starts right behind the first one, or should. -/
theorem apart_iff_of_allocTwo {n : Nat} (h : ((ofCapacity n).allocTwo length).1 = .ok (s, t)) :
    s.Apart t ↔ length < 2 ^ 30 := by
  obtain ⟨b, c, hs, ht⟩ := ok_of_allocTwo h
  obtain ⟨hpos, -⟩ := alloc_eq_ok_iff.mp hs
  have hle : length ≤ n := by
    obtain ⟨start, hleast, -⟩ := exists_place (a := ofCapacity n) (Nat.zero_le _) hs
    have hend := hleast.1.stop_le
    rw [capacity_ofCapacity] at hend
    omega
  obtain ⟨s', b', hs', hstart, rfl, -, hlive, hlaid⟩ := exists_first hpos hle
  rw [hs] at hs'
  obtain ⟨rfl, rfl⟩ := Prod.mk.inj (Except.ok.inj hs')
  obtain ⟨start, hleast, -, hnext, -⟩ := exists_place hlaid ht
  rw [hlive] at hleast
  obtain ⟨hbehind, hend⟩ := (vacant_behind_iff hstart hpos hpos).mp hleast.1
  obtain rfl := hleast.unique (isLeast_behind hstart hpos hpos (by omega))
  have hreach := t.start_lt
  rw [Apart, stop, stop, hstart, hnext, length_of_alloc ht]
  omega

theorem aborted_of_allocTwo {n : Nat} (hpos : 0 < length) (hroom : length + length ≤ n)
    (hfar : 2 ^ 30 ≤ length % 2 ^ 32) :
    ((ofCapacity n).allocTwo length).1 = .error (.aborted (.overflow "multiply")) := by
  obtain ⟨s, hs, -, -, -, -, hlaid, hleast⟩ := exists_behind hpos hpos hroom
  rcases alloc_of_isLeast hlaid hpos hleast with ⟨hnear, -⟩ | ⟨-, hfault⟩
  · omega
  · simp only [allocTwo, hs, hfault]

/-! ## How large an arena may be -/

/-- If a request is answered, the span is where words have been silenced for it, and no two spans
share a word. -/
def AnswersRight (a : Arena) (length : Nat) : Prop :=
  ∀ s b, a.alloc length = .ok (s, b) → a.Serves length s b ∧ b.live.Pairwise Apart

theorem answersRight_replay {n : Nat} (hn : n ≤ 2 ^ 32) (history : List ArenaCall) (length : Nat) :
    ((ofCapacity n).replay history).AnswersRight length := by
  intro s b h
  have hcap : ((ofCapacity n).replay history).capacity = n :=
    (capacity_replay _ _).trans (capacity_ofCapacity n)
  obtain ⟨hserves, hlaid⟩ :=
    exists_place_of_le (laidOut_replay_of_le hn history) (hcap.trans_le hn) h
  exact ⟨hserves, hlaid.pairwise_apart⟩

/-- If `2 ^ 30` words are not all, a request behind them ends the program. -/
theorem aborted_behind {n : Nat} (hn : 2 ^ 30 < n) :
    ((ofCapacity n).replay [.alloc (2 ^ 30)]).alloc 1 =
      .error (.aborted (.overflow "multiply")) := by
  obtain ⟨s, -, -, -, -, -, hlaid, hleast⟩ := exists_behind (by decide) Nat.one_pos hn
  rcases alloc_of_isLeast hlaid Nat.one_pos hleast with ⟨hnear, -⟩ | ⟨-, hfault⟩
  · exact absurd hnear (by decide)
  · exact hfault

/-- If `2 ^ 32` words are not all, a request behind them gets the first one. -/
theorem not_answersRight_behind {n : Nat} (hn : 2 ^ 32 < n) :
    ¬((ofCapacity n).replay [.alloc (2 ^ 32)]).AnswersRight 1 := by
  intro hright
  obtain ⟨s, -, -, -, -, -, hlaid, hleast⟩ := exists_behind (by decide) Nat.one_pos hn
  obtain ⟨t, b, halloc, -, -, hmeet⟩ := exists_cut hlaid Nat.one_pos hleast le_rfl (by decide)
  exact hmeet (hright t b halloc).2

/-- What becomes of a start in an arena that is too large for byte offsets. -/
theorem started_cases {n : Nat} {σ : Type} [Engine σ] {sizing : Sizing} {e : σ}
    {history : List ArenaCall} (harena : Engine.arena e = (ofCapacity n).replay history)
    (hcheck : sizing.check (Engine.frameSize e) = .ok ()) :
    let o := Framer.started sizing e
    let frame := (Engine.frameSize e).toNat
    (n ≤ 2 ^ 30 → ∀ cause, o.result ≠ .error (.aborted cause)) ∧
      (o.result = .ok () → ∃ h ∈ o.framer.holdings,
        (n ≤ 2 ^ 32 → h.lease.inputSpan.Apart h.lease.outputSpan) ∧
        (history = [] → (h.lease.inputSpan.Apart h.lease.outputSpan ↔ frame < 2 ^ 30))) ∧
      (history = [] → 2 * frame ≤ n → 2 ^ 30 ≤ frame % 2 ^ 32 →
        o.result = .error (.aborted (.overflow "multiply"))) := by
  intro o frame
  have hcap : (Engine.arena e).capacity = n :=
    harena ▸ (capacity_replay _ _).trans (capacity_ofCapacity n)
  have hresult : o.result = (Lease.take e frame).1.map fun _ => () := Framer.result_started hcheck
  have haborted (cause : Abort) : o.result = .error (.aborted cause) ↔
      ((Engine.arena e).allocTwo frame).1 = .error (.aborted cause) := by
    rw [hresult, ← take_eq_aborted_iff]
    cases (Lease.take e frame).1 <;> simp [Except.map]
  refine ⟨fun hn cause hfault => ?_, fun hstarted => ?_, ?_⟩
  · have htidy : (Engine.arena e).Tidy := harena ▸ tidy_replay hn history
    rcases error_of_allocTwo ((haborted cause).mp hfault) with he | ⟨s, b, hs, he⟩
    · exact htidy.alloc_ne_aborted frame cause he
    · exact (takes_of_alloc htidy hs).tidy.alloc_ne_aborted frame cause he
  · obtain ⟨-, e', lease, hpos, htake, hframer⟩ := Framer.exists_of_started_ok hstarted
    have hspans := allocTwo_of_take htake
    refine ⟨_, congrArg Framer.holdings hframer, fun hn => ?_, ?_⟩
    · have hlaid : LaidOut (Engine.arena e).capacity 0 (Engine.arena e).live :=
        harena ▸ laidOut_replay_of_le hn history
      exact apart_of_allocTwo hlaid (hcap.trans_le hn) hspans
    · rintro rfl
      rw [harena] at hspans
      exact apart_iff_of_allocTwo hspans
  · rintro rfl hroom hfar
    have hfits := Sizing.fits_of_check hcheck
    have hpos : 0 < (Engine.frameSize e).toNat := hfits.frame_eq ▸ hfits.frame_pos
    rw [haborted, harena]
    exact aborted_of_allocTwo hpos (by omega) hfar

/-- No request in any history of an arena ends the program or is answered wrong exactly if the arena
has at most `2 ^ 30` words. Up to `2 ^ 32` words some requests end the program, but no answer is
wrong, and beyond that some are. What ends the program is always a number that does not fit.

In an arena of any size, as long as the spans in use are apart, the place decides: a request for the
lowest vacant run is served if the run starts below word `2 ^ 30`. Else the product with the size of
a sample overflows, or the word has been cut to a lower one, at which the span starts, and not where
words have been silenced for it.

So no start of a framer ends the program in an arena of at most `2 ^ 30` words, and its spans are
apart in one of at most `2 ^ 32`. In a new arena of any size they are apart exactly if a frame has
less than `2 ^ 30` samples, and with larger frames a start ends the program unless the cut hides
it. -/
theorem offsets_reach (n : Nat) :
    ((∀ (history : List ArenaCall) (length : Nat),
        let a := (ofCapacity n).replay history
        a.AnswersRight length ∧ ∀ cause, a.alloc length ≠ .error (.aborted cause)) ↔
      n ≤ 2 ^ 30) ∧
    ((∀ (history : List ArenaCall) (length : Nat),
        ((ofCapacity n).replay history).AnswersRight length) ↔ n ≤ 2 ^ 32) ∧
    (∀ (history : List ArenaCall) (length : Nat) (cause : Abort),
      ((ofCapacity n).replay history).alloc length = .error (.aborted cause) →
        cause = .overflow "subtract" ∨ cause = .overflow "multiply") ∧
    (∀ history : List ArenaCall,
      (∀ earlier, earlier <+: history → ((ofCapacity n).replay earlier).live.Pairwise Apart) →
      ∀ length start : Nat, 0 < length →
        let a := (ofCapacity n).replay history
        IsLeast {i | Vacant n a.live length i} start →
          (start < 2 ^ 30 →
            ∃ s b, a.alloc length = .ok (s, b) ∧ a.Serves length s b ∧ b.live.Pairwise Apart) ∧
          (2 ^ 30 ≤ start % 2 ^ 32 →
            a.alloc length = .error (.aborted (.overflow "multiply"))) ∧
          (2 ^ 32 ≤ start → start % 2 ^ 32 < 2 ^ 30 →
            ∃ s b, a.alloc length = .ok (s, b) ∧ b.words = a.words.silence start length ∧
              s.start = start % 2 ^ 32 ∧ ¬b.live.Pairwise Apart)) ∧
    ∀ (σ : Type) [Engine σ] (sizing : Sizing) (e : σ) (history : List ArenaCall),
      Engine.arena e = (ofCapacity n).replay history →
      sizing.check (Engine.frameSize e) = .ok () →
        let o := Framer.started sizing e
        let frame := (Engine.frameSize e).toNat
        (n ≤ 2 ^ 30 → ∀ cause, o.result ≠ .error (.aborted cause)) ∧
        (o.result = .ok () → ∃ h ∈ o.framer.holdings,
          (n ≤ 2 ^ 32 → h.lease.inputSpan.Apart h.lease.outputSpan) ∧
          (history = [] → (h.lease.inputSpan.Apart h.lease.outputSpan ↔ frame < 2 ^ 30))) ∧
        (history = [] → 2 * frame ≤ n → 2 ^ 30 ≤ frame % 2 ^ 32 →
          o.result = .error (.aborted (.overflow "multiply"))) := by
  refine ⟨⟨fun hanswered => ?_, fun hn history length => ⟨?_, fun cause => ?_⟩⟩,
    ⟨fun hright => ?_, answersRight_replay⟩, fun history length cause => ?_, ?_,
    fun σ _ sizing e history => started_cases⟩
  · by_contra hlarge
    exact (hanswered _ 1).2 _ (aborted_behind (Nat.lt_of_not_le hlarge))
  · exact answersRight_replay (hn.trans (by decide)) history length
  · exact (tidy_replay hn history).alloc_ne_aborted length cause
  · by_contra hlarge
    exact not_answersRight_behind (Nat.lt_of_not_le hlarge) (hright _ 1)
  · exact overflow_of_alloc (stacked_replay n history)
  · intro history hapart length start hpos a hleast
    have hcap : a.capacity = n := (capacity_replay _ _).trans (capacity_ofCapacity n)
    have hlaid : LaidOut a.capacity 0 a.live := laidOut_replay hapart
    rw [← hcap] at hleast
    refine ⟨fun hlt => ?_, fun hfar => ?_, exists_cut hlaid hpos hleast⟩
    · obtain ⟨s, b, hs, hserves, hlaid', -⟩ := exists_near hlaid hpos hleast hlt
      exact ⟨s, b, hs, hserves, hlaid'.pairwise_apart⟩
    · rcases alloc_of_isLeast hlaid hpos hleast with ⟨hnear, -⟩ | ⟨-, hfault⟩
      · omega
      · exact hfault

/-- Up to the end of a small arena requests are served. A request for one word ends the program
behind `2 ^ 30` others, and is answered with the first of them behind `2 ^ 32`. Two frames of
`2 ^ 30` samples fill an arena of `2 ^ 31` words, but no framer starts there. -/
theorem offsets_reach_of_far_word :
    (∃ b, ((ofCapacity 4).replay [.alloc 1]).alloc 3 = .ok (⟨4, 3⟩, b) ∧
      ((ofCapacity 4).replay [.alloc 1]).Serves 3 ⟨4, 3⟩ b) ∧
    ((ofCapacity (2 ^ 30 + 1)).replay [.alloc (2 ^ 30)]).live = [⟨0, 2 ^ 30⟩] ∧
    ((ofCapacity (2 ^ 30 + 1)).replay [.alloc (2 ^ 30)]).alloc 1 =
      .error (.aborted (.overflow "multiply")) ∧
    (∃ s b, ((ofCapacity (2 ^ 32 + 1)).replay [.alloc (2 ^ 32)]).alloc 1 = .ok (s, b) ∧
      s.start = 0 ∧ ¬b.live.Pairwise Apart) ∧
    (Framer.started ⟨48000, 1073741824, 1073741824, 1⟩
      (IdentityEngine.ofMemory 1073741824 (2 ^ 31))).result =
        .error (.aborted (.overflow "multiply")) := by
  -- A single span is apart from all others.
  have hapart {n m : Nat} (hlt : m < n) (hm : 0 < m) : ∀ earlier, earlier <+: [.alloc m] →
      ((ofCapacity n).replay earlier).live.Pairwise Apart := by
    intro earlier h
    obtain ⟨s, -, hlive, -⟩ := exists_behind hm Nat.one_pos hlt
    rcases List.prefix_cons_iff.mp h with rfl | ⟨later, rfl, hlater⟩
    · exact List.Pairwise.nil
    · rw [List.prefix_nil.mp hlater, hlive]
      exact List.pairwise_singleton ..
  refine ⟨?_, by decide +kernel, ?_, ?_, ?_⟩
  · have hnear : ∃ b, ((ofCapacity 4).replay [.alloc 1]).alloc 3 = .ok (⟨4, 3⟩, b) := ⟨_, rfl⟩
    obtain ⟨b, hb⟩ := hnear
    exact ⟨b, hb, (((offsets_reach 4).1.mpr (by decide) [.alloc 1] 3).1 _ _ hb).1⟩
  · have hlt : 2 ^ 30 < 2 ^ 30 + 1 := Nat.lt_succ_self _
    obtain ⟨s, -, -, -, -, hcap, -, hleast⟩ := exists_behind (by decide) Nat.one_pos hlt
    rw [hcap] at hleast
    have hplaces := (offsets_reach _).2.2.2.1 _ (hapart hlt (by decide)) 1 _ Nat.one_pos hleast
    exact hplaces.2.1 (by decide)
  · have hlt : 2 ^ 32 < 2 ^ 32 + 1 := Nat.lt_succ_self _
    obtain ⟨s, -, -, -, -, hcap, -, hleast⟩ := exists_behind (by decide) Nat.one_pos hlt
    rw [hcap] at hleast
    have hplaces := (offsets_reach _).2.2.2.1 _ (hapart hlt (by decide)) 1 _ Nat.one_pos hleast
    obtain ⟨t, b, hb, -, hstart, hmeet⟩ := hplaces.2.2 le_rfl (by decide)
    exact ⟨t, b, hb, hstart, hmeet⟩
  · exact ((offsets_reach (2 ^ 31)).2.2.2.2 _ _ _ [] rfl (by decide +kernel)).2.2 rfl
      (by decide) (by decide)

end Arena

end AudioFraming
