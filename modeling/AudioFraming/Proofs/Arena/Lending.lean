import AudioFraming.Framer.Basic
import AudioFraming.Proofs.Arena.Layout

/-!
# Two spans on loan

A framer borrows two spans of one length and gives both back by value. Against the
arena of before, `Lends` says what holds in between: exactly these two are in use
beyond the former ones, no two spans in use share a word, and the former ones hold
what they held. Writing to the borrowed spans keeps this (`Lends.changesWithin`), and
giving them back ends it with the spans of before (`Lends.intact_discard`).
-/

namespace AudioFraming

namespace Cells

theorem read_congr {c d : Cells} {start n : Nat} (hsize : d.size = c.size)
    (h : ∀ i, start ≤ i → i < start + n → d.get i = c.get i) : d.read start n = c.read start n := by
  apply List.ext_getElem?
  intro i
  rw [read_getElem?, read_getElem?, hsize]
  split_ifs with hi
  · rw [h _ (Nat.le_add_right _ _) (by omega)]
  · rfl

/-- What has been written is read back. -/
theorem read_write (c : Cells) (start : Nat) (block : List Sample)
    (h : start + block.length ≤ c.size) :
    (c.write start block).read start block.length = block := by
  apply List.ext_getElem?
  intro i
  rw [read_getElem?, size_write, get_write]
  by_cases hi : i < block.length
  · rw [if_pos (by omega), if_pos (by omega), Nat.add_sub_cancel_left,
      List.getD_eq_getElem _ _ hi, List.getElem?_eq_getElem hi]
  · rw [if_neg (by omega), List.getElem?_eq_none (by omega)]

end Cells

namespace Arena

open AudioFraming.Span

/-! ## Runs of words -/

theorem locate_eq_ok {a : Arena} {offset : UInt32} {length start : Nat}
    (h : a.locate offset length = .ok start) :
    start = (offset / sampleBytes).toNat ∧ start + length ≤ a.capacity := by
  unfold locate at h
  dsimp only at h
  split_ifs at h with h1 h2
  obtain rfl := Except.ok.inj h
  exact ⟨rfl, h2⟩

theorem locate_span {a : Arena} {s : Span} {length : Nat} (hal : s.Aligned)
    (hlen : s.length = length) (hstop : s.stop ≤ a.capacity) :
    a.locate s.offset length = .ok s.start := by
  have h : (s.offset / sampleBytes).toNat + length ≤ a.capacity := by
    rw [← hlen]
    exact hstop
  simp only [locate, ne_eq, show s.offset % sampleBytes = 0 from hal, not_true, if_false, h,
    if_true]
  rfl

theorem read_of_locate {a : Arena} {offset : UInt32} {length start : Nat}
    (h : a.locate offset length = .ok start) :
    a.read offset length = .ok (a.words.read start length) := by
  simp only [read, h]

/-- What is read lies in the arena. -/
theorem read_eq_ok {a : Arena} {offset : UInt32} {length : Nat} {block : List Sample}
    (h : a.read offset length = .ok block) :
    block = a.words.read (offset / sampleBytes).toNat length ∧
      (offset / sampleBytes).toNat + length ≤ a.capacity := by
  unfold read at h
  split at h
  · rename_i start hl
    obtain ⟨rfl, hroom⟩ := locate_eq_ok hl
    exact ⟨(Except.ok.inj h).symm, hroom⟩
  · cases h

theorem length_of_read {a : Arena} {offset : UInt32} {length : Nat} {block : List Sample}
    (h : a.read offset length = .ok block) : block.length = length := by
  obtain ⟨rfl, hroom⟩ := read_eq_ok h
  have hsize : (offset / sampleBytes).toNat + length ≤ a.words.size := hroom
  rw [Cells.length_read]
  omega

theorem changesWithin_of_write {a b : Arena} {offset : UInt32} {length : Nat}
    {block : List Sample} (h : a.write offset length block = .ok b) :
    a.ChangesWithin (offset / sampleBytes).toNat length b := by
  unfold write at h
  split at h
  · rename_i start hl
    obtain rfl := Except.ok.inj h
    obtain ⟨rfl, -⟩ := locate_eq_ok hl
    exact a.changesWithin_write _ _ _
  · cases h

/-- The runs that a pair is made of, and that they do not meet. -/
theorem pair_eq_ok {a : Arena} {output input : UInt32} {length : Nat} {runs : RunPair}
    (h : a.pair output input length = .ok runs) :
    a.locate output length = .ok runs.output ∧ a.locate input length = .ok runs.input ∧
      runs.length = length ∧
      ¬(runs.output < runs.input + length ∧ runs.input < runs.output + length) := by
  unfold pair at h
  split at h
  · cases h
  · rename_i out hout
    split at h
    · cases h
    · rename_i inp hinp
      split_ifs at h with hmeet
      obtain rfl := Except.ok.inj h
      exact ⟨hout, hinp, rfl, hmeet⟩

/-! ## What stays -/

/-- The spans in use are those of before and hold what they held. -/
structure Intact (before a : Arena) : Prop where
  tidy : a.Tidy
  capacity_eq : a.capacity = before.capacity
  live_eq : a.live = before.live
  kept : ∀ u ∈ before.live, ∀ i, u.Covers i → a.words.get i = before.words.get i

theorem Intact.refl {a : Arena} (h : a.Tidy) : a.Intact a := ⟨h, rfl, rfl, fun _ _ _ _ => rfl⟩

/-- Two spans of one length are in use beyond those of before, which hold what they held. -/
structure Lends (before : Arena) (length : Nat) (s t : Span) (a : Arena) : Prop where
  tidy : a.Tidy
  capacity_eq : a.capacity = before.capacity
  length_fst : s.length = length
  length_snd : t.length = length
  perm : a.live.Perm (s :: t :: before.live)
  erase_eq : (a.live.erase s).erase t = before.live
  kept : ∀ u ∈ before.live, ∀ i, u.Covers i → a.words.get i = before.words.get i

/-- The words of a span read the same if they are the same. -/
theorem read_eq_of_kept {before a : Arena} {u : Span} (hcap : a.capacity = before.capacity)
    (h : ∀ i, u.Covers i → a.words.get i = before.words.get i) :
    a.read u.offset u.length = before.read u.offset u.length := by
  have hl : a.locate u.offset u.length = before.locate u.offset u.length := by
    unfold locate
    rw [hcap]
  unfold read
  rw [hl]
  cases hb : before.locate u.offset u.length with
  | error e => rfl
  | ok start =>
    obtain ⟨rfl, -⟩ := locate_eq_ok hb
    exact congrArg Except.ok (Cells.read_congr hcap fun i h1 h2 => h i ⟨h1, h2⟩)

theorem Takes.apart {a b : Arena} {length : Nat} {s : Span} (h : a.Takes length s b) :
    ∀ u ∈ a.live, s.Apart u := by
  have hp := (h.perm.pairwise_iff Apart.symm).mp h.tidy.laidOut.pairwise_apart
  exact (List.pairwise_cons.mp hp).1

namespace Lends

variable {before a b : Arena} {length : Nat} {s t : Span}

theorem pairwise_apart (h : before.Lends length s t a) :
    (s :: t :: before.live).Pairwise Apart :=
  (h.perm.pairwise_iff Apart.symm).mp h.tidy.laidOut.pairwise_apart

theorem apart (h : before.Lends length s t a) : s.Apart t :=
  (List.pairwise_cons.mp h.pairwise_apart).1 t (List.mem_cons_self ..)

theorem locate_fst (h : before.Lends length s t a) : a.locate s.offset length = .ok s.start := by
  have hm := h.tidy.laidOut.mem (h.perm.mem_iff.mpr (List.mem_cons_self ..))
  exact locate_span hm.2.2.2 h.length_fst hm.2.1

theorem locate_snd (h : before.Lends length s t a) : a.locate t.offset length = .ok t.start := by
  have hm := h.tidy.laidOut.mem
    (h.perm.mem_iff.mpr (List.mem_cons_of_mem _ (List.mem_cons_self ..)))
  exact locate_span hm.2.2.2 h.length_snd hm.2.1

/-- What is written to a borrowed span stays away from the spans of before. -/
theorem changesWithin {u : Span} (h : before.Lends length s t a) (hu : u = s ∨ u = t)
    (hc : a.ChangesWithin u.start length b) : before.Lends length s t b where
  tidy := hc.tidy h.tidy
  capacity_eq := hc.capacity_eq.trans h.capacity_eq
  length_fst := h.length_fst
  length_snd := h.length_snd
  perm := hc.live_eq ▸ h.perm
  erase_eq := hc.live_eq ▸ h.erase_eq
  kept v hv i hi := by
    have hp := List.pairwise_cons.mp h.pairwise_apart
    have hlen : u.length = length := by
      rcases hu with rfl | rfl
      · exact h.length_fst
      · exact h.length_snd
    have hapart : u.Apart v := by
      rcases hu with rfl | rfl
      · exact hp.1 v (List.mem_cons_of_mem _ hv)
      · exact (List.pairwise_cons.mp hp.2).1 v hv
    have hout : ¬u.Covers i := hapart.symm.not_covers hi
    rw [Covers, stop, hlen] at hout
    exact (hc.get_eq i hout).trans (h.kept v hv i hi)

theorem intact_discard (h : before.Lends length s t a) :
    before.Intact ((a.discard s).discard t) where
  tidy := (h.tidy.discard s).discard t
  capacity_eq := by
    rw [discard_eq, discard_eq]
    exact h.capacity_eq
  live_eq := by
    rw [discard_eq, discard_eq]
    exact h.erase_eq
  kept := by
    rw [discard_eq, discard_eq]
    exact h.kept

end Lends

/-- Two spans that are answered come from two requests, one after the other. -/
theorem ok_of_allocTwo {a : Arena} {length : Nat} {s t : Span}
    (h : (a.allocTwo length).1 = .ok (s, t)) :
    ∃ b c, a.alloc length = .ok (s, b) ∧ b.alloc length = .ok (t, c) := by
  unfold allocTwo at h
  rcases hs : a.alloc length with e | ⟨first, b⟩
  · simp [hs] at h
  rcases ht : b.alloc length with e | ⟨second, c⟩
  · cases e <;> simp [hs, ht] at h
  simp only [hs, ht, Except.ok.injEq, Prod.mk.injEq] at h
  obtain ⟨rfl, rfl⟩ := h
  exact ⟨b, c, rfl, ht⟩

/-- An error is that of one of the two requests. -/
theorem error_of_allocTwo {a : Arena} {length : Nat} {e : SetupError}
    (h : (a.allocTwo length).1 = .error e) :
    a.alloc length = .error e ∨
      ∃ s b, a.alloc length = .ok (s, b) ∧ b.alloc length = .error e := by
  unfold allocTwo at h
  rcases hs : a.alloc length with fault | ⟨s, b⟩
  · exact Or.inl (by simpa [hs] using h)
  refine Or.inr ⟨s, b, rfl, ?_⟩
  rcases ht : b.alloc length with fault | ⟨t, c⟩
  · cases fault <;> simpa [hs, ht] using h
  · simp [hs, ht] at h

/-- Where no word is out of reach, a request that is refused leaves nothing behind. -/
theorem allocTwo_of_error {a b : Arena} {length : Nat} {s : Span} {e : SetupError} (hb : b.Tidy)
    (hs : a.alloc length = .ok (s, b)) (he : b.alloc length = .error e) :
    a.allocTwo length = (.error e, b.discard s) := by
  cases e with
  | aborted cause => exact absurd he (hb.alloc_ne_aborted length cause)
  | _ => simp only [allocTwo, hs, he]

/-- Two spans come out of an arena, or the spans in use are as they were. -/
theorem lends_allocTwo {before a : Arena} (h : before.Intact a) (length : Nat) :
    match (a.allocTwo length).1 with
    | .error _ => before.Intact (a.allocTwo length).2
    | .ok (s, t) => before.Lends length s t (a.allocTwo length).2 := by
  cases hs : a.alloc length with
  | error e => simpa only [allocTwo, hs] using h
  | ok taken =>
  obtain ⟨s, b⟩ := taken
  have hsb := takes_of_alloc h.tidy hs
  have hkept : ∀ u ∈ before.live, ∀ i, u.Covers i → b.words.get i = before.words.get i := by
    intro u hu i hi
    have hapart := hsb.apart u (h.live_eq ▸ hu)
    exact (hsb.get_eq i (hapart.symm.not_covers hi)).trans (h.kept u hu i hi)
  cases ht : b.alloc length with
  | error e =>
    rw [allocTwo_of_error hsb.tidy hs ht, discard_eq]
    exact ⟨discard_eq b s ▸ hsb.tidy.discard s, hsb.capacity_eq.trans h.capacity_eq,
      hsb.erase_eq.trans h.live_eq, hkept⟩
  | ok taken =>
    obtain ⟨t, c⟩ := taken
    have htc := takes_of_alloc hsb.tidy ht
    simp only [allocTwo, hs, ht]
    refine ⟨htc.tidy, ?_, hsb.length_eq, htc.length_eq, ?_, ?_, ?_⟩
    · exact htc.capacity_eq.trans (hsb.capacity_eq.trans h.capacity_eq)
    · rw [← h.live_eq]
      exact (htc.perm.trans (hsb.perm.cons t)).trans (List.Perm.swap ..)
    · rw [List.erase_comm, htc.erase_eq, hsb.erase_eq, h.live_eq]
    · intro u hu i hi
      have hmem : u ∈ b.live := hsb.perm.mem_iff.mpr (List.mem_cons_of_mem _ (h.live_eq ▸ hu))
      exact (htc.get_eq i ((htc.apart u hmem).symm.not_covers hi)).trans (hkept u hu i hi)

end Arena

end AudioFraming
