import AudioFraming.Proofs.Arena.Lending

/-!
# Histories of an arena

Everything that anyone can do to an arena: take and give back spans, with whatever
span is given back, and write to runs. An arena that starts with no span in use
and is not too large stays tidy.
-/

namespace AudioFraming

/-- A call on an arena that may change it. -/
inductive ArenaCall where
  | alloc (length : Nat)
  | dealloc (span : Span)
  /-- Writes a block to a run. -/
  | write (offset : UInt32) (length : Nat) (block : List Sample)
  /-- Writes a block to the first of two runs that do not meet. -/
  | store (output input : UInt32) (length : Nat) (block : List Sample)
deriving DecidableEq

/-- What a call on an arena answers. -/
inductive ArenaAnswer where
  | span (result : Except SetupError Span)
  | done (result : Except EngineError Unit)

namespace Arena

/-- The arena after a call. A call that fails changes nothing. -/
def after (a : Arena) : ArenaCall → Arena
  | .alloc length =>
    match a.alloc length with
    | .ok (_, b) => b
    | .error _ => a
  | .dealloc span => a.discard span
  | .write offset length block =>
    match a.write offset length block with
    | .ok b => b
    | .error _ => a
  | .store output input length block =>
    match a.pair output input length with
    | .ok runs => runs.store a block
    | .error _ => a

/-- The answer that `after` leaves out. -/
def answer (a : Arena) : ArenaCall → ArenaAnswer
  | .alloc length => .span ((a.alloc length).map (·.1))
  | .dealloc span => .done ((a.dealloc span).map fun _ => ())
  | .write offset length block => .done ((a.write offset length block).map fun _ => ())
  | .store output input length _ => .done ((a.pair output input length).map fun _ => ())

/-- The arena after a history of calls. -/
def replay (a : Arena) (history : List ArenaCall) : Arena := history.foldl after a

/-- A request that is answered takes a span. Otherwise no span comes to those in use. -/
theorem after_cases (a : Arena) (c : ArenaCall) :
    (∃ length s, c = .alloc length ∧ a.alloc length = .ok (s, a.after c)) ∨
      (a.after c).capacity = a.capacity ∧ (a.after c).live.Sublist a.live := by
  cases c with
  | alloc length =>
    rcases hs : a.alloc length with fault | ⟨s, b⟩
    · have hsame : a.after (.alloc length) = a := by simp only [after, hs]
      rw [hsame]
      exact Or.inr ⟨rfl, List.Sublist.refl _⟩
    · refine Or.inl ⟨length, s, rfl, ?_⟩
      simp only [after, hs]
  | dealloc span =>
    refine Or.inr ?_
    simp only [after, discard_eq]
    exact ⟨rfl, List.erase_sublist⟩
  | write offset length block =>
    refine Or.inr ?_
    simp only [after]
    split
    · rename_i b hb
      have hwithin := changesWithin_of_write hb
      exact ⟨hwithin.capacity_eq, hwithin.live_eq ▸ List.Sublist.refl _⟩
    · exact ⟨rfl, List.Sublist.refl _⟩
  | store output input length block =>
    refine Or.inr ?_
    simp only [after]
    split
    · rename_i runs _
      have hwithin := a.changesWithin_write runs.output runs.length block
      exact ⟨hwithin.capacity_eq, hwithin.live_eq ▸ List.Sublist.refl _⟩
    · exact ⟨rfl, List.Sublist.refl _⟩

theorem capacity_after (a : Arena) (c : ArenaCall) : (a.after c).capacity = a.capacity := by
  rcases a.after_cases c with ⟨length, s, -, hs⟩ | ⟨hcap, -⟩
  · obtain ⟨-, gap, -, -, -, hb⟩ := alloc_eq_ok_iff.mp hs
    rw [hb]
    exact Cells.size_silence ..
  · exact hcap

theorem capacity_replay (a : Arena) (history : List ArenaCall) :
    (a.replay history).capacity = a.capacity :=
  List.foldlRecOn (motive := fun b : Arena => b.capacity = a.capacity) history after rfl
    fun b hb c _ => (b.capacity_after c).trans hb

theorem Tidy.after {a : Arena} (h : a.Tidy) (c : ArenaCall) : (a.after c).Tidy := by
  rcases a.after_cases c with ⟨length, s, -, hs⟩ | ⟨hcap, hlive⟩
  · exact (takes_of_alloc h hs).tidy
  · exact ⟨hcap.trans_le h.capacity_le, hcap ▸ h.laidOut.sublist hlive⟩

theorem Tidy.replay {a : Arena} (h : a.Tidy) (history : List ArenaCall) :
    (a.replay history).Tidy :=
  List.foldlRecOn history _ h fun _ hb c _ => hb.after c

theorem tidy_replay {n : Nat} (h : n ≤ 2 ^ 30) (history : List ArenaCall) :
    ((ofCapacity n).replay history).Tidy :=
  (tidy_ofCapacity h).replay history

end Arena

end AudioFraming
