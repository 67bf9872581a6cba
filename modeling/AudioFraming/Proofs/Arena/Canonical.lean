import AudioFraming.Proofs.Arena.FirstFit
import Mathlib.Data.List.Perm.Basic

/-!
# Spans decide

The spans in use are sorted and differ from each other, so which spans these are decides how
the list of them looks (`LaidOut.eq_of_mem_iff`). Nothing else about the past of an arena shows:
requests are served or refused, and spans taken back, by size and list alone (`SameBooks`).

So a span that is given back leaves the list as if it had never been taken, and several spans
can be given back in any order.
-/

namespace AudioFraming

/-- What a call on an arena answers, and what can be seen of the arena afterwards. -/
structure ArenaReport where
  answer : ArenaAnswer
  free : Nat
  live : List Span

namespace Span

/-- Spans that lie one after another are in the one order in which they can. -/
theorem LaidOut.eq_of_mem_iff {capacity cursor cursor' : Nat} {spans spans' : List Span}
    (h : LaidOut capacity cursor spans) (h' : LaidOut capacity cursor' spans')
    (hmem : ∀ s, s ∈ spans ↔ s ∈ spans') : spans = spans' := by
  have hperm : spans.Perm spans' := (List.perm_ext_iff_of_nodup h.nodup h'.nodup).mpr hmem
  refine hperm.eq_of_pairwise ?_ h.pairwise_offset_lt h'.pairwise_offset_lt
  intro s t _ _ hst hts
  exact absurd hst (UInt32.lt_asymm hts)

end Span

namespace Arena

open AudioFraming.Span

/-- What an arena answers to calls that are made one after another. -/
def reports (a : Arena) : List ArenaCall → List ArenaReport
  | [] => []
  | c :: later => ⟨a.answer c, (a.after c).free, (a.after c).live⟩ :: (a.after c).reports later

/-- Gives back several spans, one after another. -/
def deallocAll (a : Arena) : List Span → Except EngineError Arena
  | [] => .ok a
  | s :: order =>
    match a.dealloc s with
    | .ok b => b.deallocAll order
    | .error e => .error e

/-! ## Books -/

/-- The same words are in use, of as many. -/
structure SameBooks (a b : Arena) : Prop where
  capacity_eq : b.capacity = a.capacity
  live_eq : b.live = a.live

namespace SameBooks

variable {a b : Arena}

theorem free_eq (h : a.SameBooks b) : b.free = a.free := by
  simp only [free, h.capacity_eq, h.live_eq]

theorem locate_eq (h : a.SameBooks b) (offset : UInt32) (length : Nat) :
    b.locate offset length = a.locate offset length := by
  simp only [locate, h.capacity_eq]

theorem pair_eq (h : a.SameBooks b) (output input : UInt32) (length : Nat) :
    b.pair output input length = a.pair output input length := by
  simp only [pair, h.locate_eq]

/-- The same request is refused by both, or served with the same words. -/
theorem alloc (h : a.SameBooks b) (length : Nat) :
    (∃ e, a.alloc length = .error e ∧ b.alloc length = .error e) ∨
      ∃ (gap : Gap) (s : Span), NamedBy gap.start length s ∧ gap.start + length ≤ a.capacity ∧
        a.alloc length =
          .ok (s, ⟨a.words.silence gap.start length, gap.below ++ s :: gap.above⟩) ∧
        b.alloc length =
          .ok (s, ⟨b.words.silence gap.start length, gap.below ++ s :: gap.above⟩) := by
  unfold Arena.alloc occupy
  rw [h.capacity_eq, h.live_eq]
  split_ifs with h0
  · exact Or.inl ⟨_, rfl, rfl⟩
  rcases firstFit a.capacity length 0 a.live with cause | _ | gap
  · exact Or.inl ⟨_, rfl, rfl⟩
  · cases distance a.capacity (total a.live) <;> exact Or.inl ⟨_, rfl, rfl⟩
  rcases hs : Span.ofStart gap.start length with cause | s
  · exact Or.inl ⟨.aborted cause, by simp only [hs]; rfl, by simp only [hs]; rfl⟩
  by_cases hend : gap.start + length ≤ a.capacity
  · refine Or.inr ⟨gap, s, namedBy_of_ofStart hs, hend, ?_, ?_⟩ <;> simp only [hs, hend] <;> rfl
  · refine Or.inl ⟨.aborted (.outOfRange (gap.start + length) a.capacity), ?_, ?_⟩ <;>
      simp only [hs, hend] <;> rfl

theorem answer_eq (h : a.SameBooks b) (c : ArenaCall) : b.answer c = a.answer c := by
  cases c with
  | alloc length =>
    rcases h.alloc length with ⟨e, ha, hb⟩ | ⟨gap, s, -, -, ha, hb⟩
    · simp only [answer, ha, hb]
    · simp only [answer, ha, hb, Except.map]
  | dealloc span =>
    simp only [answer, dealloc, h.live_eq]
    split_ifs <;> simp only [Except.map]
  | write offset length block =>
    simp only [answer, write, h.locate_eq]
    cases a.locate offset length <;> simp only [Except.map]
  | store output input length block => simp only [answer, h.pair_eq]

theorem after (h : a.SameBooks b) (c : ArenaCall) : (a.after c).SameBooks (b.after c) where
  capacity_eq := by rw [capacity_after, capacity_after, h.capacity_eq]
  live_eq := by
    cases c with
    | alloc length =>
      rcases h.alloc length with ⟨e, ha, hb⟩ | ⟨gap, s, -, -, ha, hb⟩
      · simp only [Arena.after, ha, hb, h.live_eq]
      · simp only [Arena.after, ha, hb]
    | dealloc span => simp only [Arena.after, discard_eq, h.live_eq]
    | write offset length block =>
      simp only [Arena.after, Arena.write, h.locate_eq]
      cases a.locate offset length <;> exact h.live_eq
    | store output input length block =>
      simp only [Arena.after, h.pair_eq]
      cases a.pair output input length <;> exact h.live_eq

theorem reports_eq (h : a.SameBooks b) (later : List ArenaCall) :
    b.reports later = a.reports later := by
  induction later generalizing a b with
  | nil => simp only [reports]
  | cons c later ih =>
    have hc := h.after c
    simp only [reports, h.answer_eq c, hc.free_eq, hc.live_eq, ih hc]

end SameBooks

/-! ## Giving back -/

/-- A span has been given back: it is no longer in use, and nothing else has changed. -/
structure Releases (a : Arena) (s : Span) (b : Arena) : Prop where
  words_eq : b.words = a.words
  live_eq : ∃ before after, a.live = before ++ s :: after ∧ b.live = before ++ after
  not_mem : s ∉ b.live

theorem dealloc_of_mem {a : Arena} {s : Span} (h : s ∈ a.live) :
    a.dealloc s = .ok { a with live := a.live.erase s } := if_pos h

theorem dealloc_of_not_mem {a : Arena} {s : Span} (h : s ∉ a.live) :
    a.dealloc s = .error (.invalidRegion s.offset s.length) := if_neg h

/-- A span can be given back exactly if one with its offset and its length is in use. -/
theorem exists_dealloc_iff (a : Arena) (s : Span) :
    (∃ b, a.dealloc s = .ok b) ↔ ∃ t ∈ a.live, t.offset = s.offset ∧ t.length = s.length := by
  constructor
  · rintro ⟨b, hb⟩
    by_cases hs : s ∈ a.live
    · exact ⟨s, hs, rfl, rfl⟩
    · rw [dealloc_of_not_mem hs] at hb
      cases hb
  · rintro ⟨⟨offset, length⟩, ht, rfl, rfl⟩
    exact ⟨_, dealloc_of_mem ht⟩

namespace Tidy

variable {a b : Arena} {s : Span}

theorem releases (h : a.Tidy) (hb : a.dealloc s = .ok b) : a.Releases s b := by
  have hs : s ∈ a.live := by
    by_contra hs
    rw [dealloc_of_not_mem hs] at hb
    cases hb
  rw [dealloc_of_mem hs] at hb
  obtain rfl := Except.ok.inj hb
  obtain ⟨before, after, -, hlive, herase⟩ := List.exists_erase_eq hs
  refine ⟨rfl, ⟨before, after, hlive, herase⟩, ?_⟩
  exact h.laidOut.nodup.not_mem_erase

/-- Spans in use can be given back in any order: only which they are shows in what is left. -/
theorem deallocAll_eq (h : a.Tidy) {order : List Span} (hnodup : order.Nodup)
    (hsub : ∀ s ∈ order, s ∈ a.live) :
    a.deallocAll order = .ok { a with live := a.live.filter (· ∉ order) } := by
  induction order generalizing a with
  | nil => simp [deallocAll]
  | cons s order ih =>
    obtain ⟨hs, hrest⟩ := List.nodup_cons.mp hnodup
    have hmem : s ∈ a.live := hsub s (List.mem_cons_self ..)
    have hb : Tidy { a with live := a.live.erase s } := discard_eq a s ▸ h.discard s
    -- No span is given back twice, so the others are still in use.
    have hkept : ∀ t ∈ order, t ∈ a.live.erase s := by
      intro t ht
      have hne : t ≠ s := by
        rintro rfl
        exact hs ht
      exact (List.mem_erase_of_ne hne).mpr (hsub t (List.mem_cons_of_mem _ ht))
    have hlive : (a.live.erase s).filter (· ∉ order) = a.live.filter (· ∉ s :: order) := by
      rw [h.laidOut.nodup.erase_eq_filter s, List.filter_filter]
      apply List.filter_congr
      intro t _
      by_cases hts : t = s <;> simp [hts]
    simp only [deallocAll, dealloc_of_mem hmem]
    rw [ih hb hrest hkept, hlive]

end Tidy

/-- Which spans are in use after a history decides how they are listed, and from there on
everything that is answered. A span can be given back exactly if it looks like one in use; then
that one is gone and nothing else, and otherwise nothing changes. So giving back what has just
been taken restores the list, and any of the spans can be given back in any order. -/
theorem spans_decide {n : Nat} (hn : n ≤ 2 ^ 30) (history : List ArenaCall) :
    let a := (ofCapacity n).replay history
    (∀ other : List ArenaCall,
      let b := (ofCapacity n).replay other
      (∀ s, s ∈ a.live ↔ s ∈ b.live) →
        a.live = b.live ∧ a.free = b.free ∧ ∀ later, a.reports later = b.reports later) ∧
    (∀ s,
      ((∃ b, a.dealloc s = .ok b) ↔ ∃ t ∈ a.live, t.offset = s.offset ∧ t.length = s.length) ∧
      (∀ b, a.dealloc s = .ok b → a.Releases s b) ∧
      ∀ e, a.dealloc s = .error e →
        e = .invalidRegion s.offset s.length ∧ a.after (.dealloc s) = a) ∧
    (∀ length s b, a.alloc length = .ok (s, b) → ∃ c, b.dealloc s = .ok c ∧ c.live = a.live) ∧
    ∀ gone : Finset Span, (∀ s ∈ gone, s ∈ a.live) →
      ∀ order : List Span, order.Nodup → order.toFinset = gone →
        a.deallocAll order = .ok { a with live := a.live.filter (· ∉ gone) } := by
  intro a
  have htidy : a.Tidy := tidy_replay hn history
  have hcap : a.capacity = n := (capacity_replay _ _).trans (capacity_ofCapacity n)
  refine ⟨?_, fun s => ⟨exists_dealloc_iff a s, fun b => htidy.releases, ?_⟩, ?_, ?_⟩
  · intro other b hmem
    have hcap' : b.capacity = n := (capacity_replay _ _).trans (capacity_ofCapacity n)
    have hlaid : LaidOut a.capacity 0 b.live := by
      rw [hcap, ← hcap']
      exact (tidy_replay hn other).laidOut
    have hbooks : b.SameBooks a :=
      ⟨hcap.trans hcap'.symm, htidy.laidOut.eq_of_mem_iff hlaid hmem⟩
    exact ⟨hbooks.live_eq, hbooks.free_eq, hbooks.reports_eq⟩
  · intro e he
    by_cases hs : s ∈ a.live
    · rw [dealloc_of_mem hs] at he
      cases he
    · rw [dealloc_of_not_mem hs] at he
      refine ⟨(Except.error.inj he).symm, ?_⟩
      simp only [after, discard_eq, List.erase_of_not_mem hs]
  · intro length s b hb
    have htakes := takes_of_alloc htidy hb
    have hs : s ∈ b.live := htakes.perm.mem_iff.mpr (List.mem_cons_self ..)
    exact ⟨_, dealloc_of_mem hs, htakes.erase_eq⟩
  · rintro gone hgone order hnodup rfl
    have hall := htidy.deallocAll_eq hnodup fun s hs => hgone s (List.mem_toFinset.mpr hs)
    simpa only [List.mem_toFinset] using hall

/-- Two histories lead to the same two spans. A third one, which only the second history has
handed out, can be given back in neither arena, until a new one has its place and its length. -/
theorem spans_decide_of_two :
    let a := (ofCapacity 8).replay [.alloc 3, .alloc 2, .dealloc ⟨0, 3⟩, .alloc 1]
    let b := (ofCapacity 8).replay [.alloc 1, .alloc 2, .alloc 2, .dealloc ⟨4, 2⟩]
    8 ≤ 2 ^ 30 ∧ a.live = [⟨0, 1⟩, ⟨12, 2⟩] ∧ b.live = [⟨0, 1⟩, ⟨12, 2⟩] ∧
      (∀ later, a.reports later = b.reports later) ∧ (¬∃ c, a.dealloc ⟨4, 2⟩ = .ok c) ∧
      (∃ c, a.alloc 2 = .ok (⟨4, 2⟩, c) ∧ ∃ d, c.dealloc ⟨4, 2⟩ = .ok d ∧ d.live = a.live) ∧
      a.deallocAll [⟨12, 2⟩, ⟨0, 1⟩] = a.deallocAll [⟨0, 1⟩, ⟨12, 2⟩] := by
  intro a b
  have hlive : a.live = [⟨0, 1⟩, ⟨12, 2⟩] := by decide
  have hlive' : b.live = [⟨0, 1⟩, ⟨12, 2⟩] := by decide
  obtain ⟨hother, hgiven, htaken, hall⟩ := spans_decide (n := 8) (by decide)
    [.alloc 3, .alloc 2, .dealloc ⟨0, 3⟩, .alloc 1]
  have hmem : ∀ s, s ∈ a.live ↔ s ∈ b.live := fun s => by rw [hlive, hlive']
  have hreports := (hother [.alloc 1, .alloc 2, .alloc 2, .dealloc ⟨4, 2⟩] hmem).2.2
  have hin : ∀ s ∈ ({⟨0, 1⟩, ⟨12, 2⟩} : Finset Span), s ∈ a.live := by
    intro s hs
    simpa [hlive] using hs
  refine ⟨by decide, hlive, hlive', hreports, ?_, ⟨_, rfl, htaken 2 _ _ rfl⟩, ?_⟩
  · rw [(hgiven ⟨4, 2⟩).1]
    change ¬∃ t ∈ a.live, _
    simp [hlive]
  · exact (hall _ hin [⟨12, 2⟩, ⟨0, 1⟩] (by decide) (by decide)).trans
      (hall _ hin [⟨0, 1⟩, ⟨12, 2⟩] (by decide) (by decide)).symm

end Arena

end AudioFraming
