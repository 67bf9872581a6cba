import AudioFraming.Proofs.Engine.Double

/-!
# What a lease costs an engine

A framer takes a lease from an engine and gives it back. In between the engine has one
instance and two spans more than before (`Lease.Held`); before and after it has what it
had (`IdentityEngine.Untouched`, `IdentityEngine.Restored`), and a lease that cannot be
taken leaves nothing behind. All of it is about doubles of the identity engine, seen
through their cores.
-/

namespace AudioFraming

namespace IdentityEngine

/-- Nothing that anyone owns has changed. -/
structure Untouched (before e : IdentityEngine) : Prop where
  frameSize_eq : e.frameSize = before.frameSize
  arena : before.arena.Intact e.arena
  instances_eq : e.instances = before.instances

/-- Everything that was lent out is back. Handles name what they named, if there was one to lend
in the first place. -/
structure Restored (before e : IdentityEngine) : Prop where
  frameSize_eq : e.frameSize = before.frameSize
  arena : before.arena.Intact e.arena
  count_eq : e.instances.count = before.instances.count
  get?_eq : (∃ k, before.instances.get? k = none) →
    ∀ k, e.instances.get? k = before.instances.get? k

theorem Untouched.restored {before e : IdentityEngine} (h : before.Untouched e) :
    before.Restored e :=
  ⟨h.frameSize_eq, h.arena, by rw [h.instances_eq], fun _ _ => by rw [h.instances_eq]⟩

theorem Untouched.refl {e : IdentityEngine} (h : e.arena.Tidy) : e.Untouched e :=
  ⟨rfl, .refl h, rfl⟩

end IdentityEngine

namespace Lease

/-- The engine has lent out an instance and two spans of its frame size, and nothing else has
changed hands. -/
structure Held (before : IdentityEngine) (lease : Lease) (e : IdentityEngine) : Prop where
  frameSize_eq : e.frameSize = before.frameSize
  spans : before.arena.Lends before.frameSize.toNat lease.inputSpan lease.outputSpan e.arena
  handle_eq : lease.handle = (before.instances.insert ()).1
  instances_eq : e.instances = (before.instances.insert ()).2

namespace Held

variable {before e e' : IdentityEngine} {lease : Lease}

/-- Writing to the two spans does not touch what else there is. -/
theorem changesWithin {s : Span} (h : lease.Held before e)
    (hs : s = lease.inputSpan ∨ s = lease.outputSpan) (hc : e.ChangesWithin s.start e') :
    lease.Held before e' where
  frameSize_eq := hc.frameSize_eq.trans h.frameSize_eq
  spans := h.spans.changesWithin hs (h.frameSize_eq ▸ hc.arena)
  handle_eq := h.handle_eq
  instances_eq := hc.instances_eq.trans h.instances_eq

theorem withArena {s : Span} {a : Arena} (h : lease.Held before e)
    (hs : s = lease.inputSpan ∨ s = lease.outputSpan)
    (hc : e.arena.ChangesWithin s.start before.frameSize.toNat a) :
    lease.Held before { e with arena := a } := by
  rw [← h.frameSize_eq] at hc
  exact h.changesWithin hs ⟨rfl, rfl, hc⟩

/-- Lending out two spans and a new instance makes a lease. -/
theorem insert (hframe : e.frameSize = before.frameSize) {inputSpan outputSpan : Span}
    (hspans : before.arena.Lends before.frameSize.toNat inputSpan outputSpan e.arena)
    (hinst : e.instances = before.instances) :
    Held before ⟨(e.instances.insert ()).1, inputSpan, outputSpan⟩
      { e with instances := (e.instances.insert ()).2 } where
  frameSize_eq := hframe
  spans := hspans
  handle_eq := by rw [hinst]
  instances_eq := by rw [hinst]

theorem get?_handle (h : lease.Held before e) : e.instances.get? lease.handle = some () := by
  obtain ⟨⟨⟩, hget⟩ :=
    Option.isSome_iff_exists.mp (Slots.isSome_get?_insert before.instances ())
  rw [h.handle_eq, h.instances_eq, hget]

theorem count_eq (h : lease.Held before e) :
    e.instances.count = before.instances.count + 1 := by
  rw [h.instances_eq, Slots.count_insert]

/-- The instance is new, unless all handles were taken. -/
theorem handle_new (h : lease.Held before e) :
    before.instances.get? lease.handle = none ↔ ∃ k, before.instances.get? k = none := by
  rw [h.handle_eq]
  exact before.instances.get?_handle_eq_none_iff ()

theorem get?_of_ne (h : lease.Held before e) (hfree : ∃ k, before.instances.get? k = none)
    {k : Handle} (hk : k ≠ lease.handle) :
    e.instances.get? k = before.instances.get? k := by
  rw [h.handle_eq] at hk
  rw [h.instances_eq, Slots.get?_insert_of_ne () hfree hk]

theorem restored (h : lease.Held before e) :
    before.Restored { e with
      arena := (e.arena.discard lease.inputSpan).discard lease.outputSpan
      instances := e.instances.erase lease.handle } where
  frameSize_eq := h.frameSize_eq
  arena := h.spans.intact_discard
  count_eq := by
    have hcount := Slots.count_erase h.get?_handle
    rw [h.count_eq] at hcount
    exact Nat.succ.inj hcount
  get?_eq hfree k := by
    rw [Slots.get?_erase]
    split_ifs with hk
    · rw [hk, h.handle_new.mpr hfree]
    · exact h.get?_of_ne hfree hk

end Held

variable {σ : Type} [Engine σ] [IdentityDouble σ]

open IdentityDouble

/-- A lease is taken as a whole or leaves no trace. -/
theorem held_take {before : IdentityEngine} {e : σ} (hsteady : Steady e)
    (h : before.Untouched (core e)) :
    Steady (take e before.frameSize.toNat).2 ∧
      match (take e before.frameSize.toNat).1 with
      | .error _ => before.Untouched (core (take e before.frameSize.toNat).2)
      | .ok lease => lease.Held before (core (take e before.frameSize.toNat).2) := by
  have hspans := Arena.lends_allocTwo h.arena before.frameSize.toNat
  unfold take
  rw [arena_core]
  cases hab : (core e).arena.allocTwo before.frameSize.toNat with
  | mk spans arena =>
  rw [hab] at hspans
  have hcore := core_withArena e arena
  have hst := steady_withArena e arena hsteady
  cases spans with
  | error fault =>
    refine ⟨hst, ?_⟩
    dsimp only
    rw [hcore]
    exact ⟨h.frameSize_eq, hspans, h.instances_eq⟩
  | ok pair =>
  obtain ⟨inputSpan, outputSpan⟩ := pair
  dsimp only at hspans ⊢
  have hcreate := core_create (Engine.withArena e arena)
  have hst' := steady_create _ hst
  rw [hcore] at hcreate
  cases hc : Engine.create (Engine.withArena e arena) with
  | mk created u =>
  rw [hc] at hcreate hst'
  cases created with
  | error fault =>
    refine ⟨steady_withArena _ _ hst', ?_⟩
    -- The core never refuses, so it is the double that has failed, with its core as it was.
    have hu : core u = { core e with arena := arena } := by
      rcases hcreate with hcreate | ⟨-, -, hu⟩
      · cases congrArg Prod.fst hcreate
      · exact hu
    dsimp only
    rw [core_withArena, arena_core, hu]
    exact ⟨h.frameSize_eq, hspans.intact_discard, h.instances_eq⟩
  | ok handle =>
    refine ⟨hst', ?_⟩
    rcases hcreate with hcreate | ⟨fault, hfault, -⟩
    · obtain ⟨hh, hu⟩ := Prod.mk.inj hcreate
      obtain rfl := Except.ok.inj hh
      dsimp only at hu ⊢
      rw [← hu]
      exact Held.insert (e := { core e with arena := arena }) h.frameSize_eq hspans h.instances_eq
    · cases hfault

/-- What is given back is what was taken. -/
theorem restored_giveBack {before : IdentityEngine} {e : σ} {lease : Lease}
    (h : lease.Held before (core e)) : before.Restored (core (lease.giveBack e)) := by
  have hr := h.restored
  unfold giveBack
  simp only [core_withArena, core_destroy, arena_core]
  exact hr

theorem steady_giveBack {e : σ} (hsteady : Steady e) (lease : Lease) :
    Steady (lease.giveBack e) :=
  steady_withArena _ _ (steady_destroy _ _ hsteady)

end Lease

end AudioFraming
