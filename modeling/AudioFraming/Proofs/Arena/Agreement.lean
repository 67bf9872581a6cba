import AudioFraming.Proofs.Arena.Canonical

/-!
# Arenas that agree

Two arenas agree if the same spans of them are in use and hold the same words. The other words
may differ, and nobody can tell: a span is silenced when it is taken, and requests are served
or refused by where the spans in use lie. So arenas that agree go on agreeing, whatever is done
to both of them (`Agrees.replay`).
-/

namespace AudioFraming

namespace Arena

open AudioFraming.Span

/-- The same spans are in use, and hold the same words. -/
structure Agrees (a b : Arena) : Prop where
  capacity_eq : b.capacity = a.capacity
  live_eq : b.live = a.live
  kept : ∀ u ∈ a.live, ∀ i, u.Covers i → b.words.get i = a.words.get i

theorem Intact.agrees {a b : Arena} (h : a.Intact b) : a.Agrees b :=
  ⟨h.capacity_eq, h.live_eq, h.kept⟩

namespace Agrees

variable {a b : Arena}

theorem refl (a : Arena) : a.Agrees a := ⟨rfl, rfl, fun _ _ _ _ => rfl⟩

theorem sameBooks (h : a.Agrees b) : a.SameBooks b := ⟨h.capacity_eq, h.live_eq⟩

theorem tidy (h : a.Agrees b) (ha : a.Tidy) : b.Tidy where
  capacity_le := h.capacity_eq ▸ ha.capacity_le
  laidOut := by
    rw [h.capacity_eq, h.live_eq]
    exact ha.laidOut

theorem discard (h : a.Agrees b) (s : Span) : (a.discard s).Agrees (b.discard s) := by
  rw [discard_eq, discard_eq]
  exact ⟨h.capacity_eq, congrArg (·.erase s) h.live_eq,
    fun u hu => h.kept u (List.mem_of_mem_erase hu)⟩

/-- The same words are written to both. -/
theorem write (h : a.Agrees b) (start : Nat) (block : List Sample) :
    Agrees { a with words := a.words.write start block }
      { b with words := b.words.write start block } where
  capacity_eq := by
    simp only [capacity, Cells.size_write]
    exact h.capacity_eq
  live_eq := h.live_eq
  kept u hu i hi := by
    have hsize : b.words.size = a.words.size := h.capacity_eq
    simp only [Cells.get_write, h.kept u hu i hi, hsize]

/-- The same request is refused by both, or served with the same span. -/
theorem alloc (h : a.Agrees b) (ha : a.Tidy) (length : Nat) :
    (∃ e, a.alloc length = .error e ∧ b.alloc length = .error e) ∨
      ∃ s a' b', a.alloc length = .ok (s, a') ∧ b.alloc length = .ok (s, b') ∧
        a'.Agrees b' := by
  rcases h.sameBooks.alloc length with ⟨e, hs, hs'⟩ | ⟨gap, s, hnamed, hend, hs, hs'⟩
  · exact Or.inl ⟨e, hs, hs'⟩
  · have hcap := ha.capacity_le
    have hstart : s.start = gap.start := hnamed.start_eq_of_le (by omega)
    refine Or.inr ⟨s, _, _, hs, hs', ?_, rfl, ?_⟩
    · simp only [capacity, Cells.size_silence]
      exact h.capacity_eq
    · intro u hu i hi
      simp only [Cells.get_silence]
      split_ifs with hrun
      · rfl
      · rcases List.mem_cons.mp ((takes_of_alloc ha hs).perm.mem_iff.mp hu) with rfl | hu
        · -- The new span covers only words that have been silenced.
          rw [Covers, stop, hstart, hnamed.length_eq] at hi
          exact absurd hi hrun
        · exact h.kept u hu i hi

theorem allocTwo (h : a.Agrees b) (ha : a.Tidy) (length : Nat) :
    (b.allocTwo length).1 = (a.allocTwo length).1 ∧
      (a.allocTwo length).2.Agrees (b.allocTwo length).2 := by
  rcases h.alloc ha length with ⟨e, hfst, hfst'⟩ | ⟨s, a₁, b₁, hfst, hfst', h₁⟩
  · simpa only [Arena.allocTwo, hfst, hfst', true_and] using h
  · have ha₁ := (takes_of_alloc ha hfst).tidy
    rcases h₁.alloc ha₁ length with ⟨e, hsnd, hsnd'⟩ | ⟨t, a₂, b₂, hsnd, hsnd', h₂⟩
    · rw [allocTwo_of_error ha₁ hfst hsnd, allocTwo_of_error (h₁.tidy ha₁) hfst' hsnd']
      exact ⟨rfl, h₁.discard s⟩
    · simpa only [Arena.allocTwo, hfst, hfst', hsnd, hsnd', true_and] using h₂

theorem after (h : a.Agrees b) (ha : a.Tidy) (c : ArenaCall) : (a.after c).Agrees (b.after c) := by
  cases c with
  | alloc length =>
    simp only [Arena.after]
    rcases h.alloc ha length with ⟨e, hs, hs'⟩ | ⟨s, a', b', hs, hs', h'⟩
    · rw [hs, hs']
      exact h
    · rw [hs, hs']
      exact h'
  | dealloc span => exact h.discard span
  | write offset length block =>
    simp only [Arena.after, Arena.write, h.sameBooks.locate_eq]
    cases a.locate offset length with
    | error e => exact h
    | ok start => exact h.write start _
  | store output input length block =>
    simp only [Arena.after, h.sameBooks.pair_eq]
    cases a.pair output input length with
    | error e => exact h
    | ok runs => exact h.write runs.output _

theorem replay (h : a.Agrees b) (ha : a.Tidy) (history : List ArenaCall) :
    (a.replay history).Agrees (b.replay history) := by
  induction history generalizing a b with
  | nil => exact h
  | cons c rest ih => exact ih (h.after ha c) (ha.after c)

end Agrees

end Arena

end AudioFraming
