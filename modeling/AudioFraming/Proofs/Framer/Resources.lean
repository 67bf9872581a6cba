import AudioFraming.Proofs.Arena.History
import AudioFraming.Proofs.Framer.Service

/-!
# What a session leaves behind

Whatever is called on a framer, its engine has lent it a lease or nothing, and gets
back what it lent (`resources_balance`). What others own in the engine is not touched.
-/

namespace AudioFraming

namespace Framer

variable {σ : Type} [Engine σ] [IdentityDouble σ]

open IdentityDouble

/-- A framer holds resources exactly while it runs, pauses or is bypassed: two spans of a frame,
apart from each other and from all spans of others, and one instance. At all other times, and when
the framer is dropped, its engine has what it had before. What others own stays as it was. As long
as a handle is left for the instance, this holds for what handles name, too.

Over an identity engine nothing ever fails, and only an input longer than a ring leads to a
bypass. -/
theorem resources_balance {n : Nat} (hn : n ≤ 2 ^ 30) (history : List ArenaCall) {s : σ}
    (hsteady : Steady s) (harena : Engine.arena s = (Arena.ofCapacity n).replay history)
    (sizing : Sizing) (calls : List FramerCall) :
    let before := core s
    let f := (new sizing s).replay calls
    (f.holdings.isSome ↔ f.phase = .running ∨ f.phase = .paused ∨ f.phase = .bypassed) ∧
    (∀ h, f.holdings = some h →
      let lease := h.lease
      let e := core f.engine
      e.arena.live.Perm (lease.inputSpan :: lease.outputSpan :: before.arena.live) ∧
        lease.inputSpan.length = before.frameSize.toNat ∧
        lease.outputSpan.length = before.frameSize.toNat ∧
        (lease.inputSpan :: lease.outputSpan :: before.arena.live).Pairwise Span.Apart ∧
        e.instances.count = before.instances.count + 1 ∧
        e.instances.get? lease.handle = some () ∧
        ((∃ k, before.instances.get? k = none) →
          before.instances.get? lease.handle = none ∧
            ∀ k, k ≠ lease.handle → e.instances.get? k = before.instances.get? k)) ∧
    (f.holdings = none → before.Restored (core f.engine)) ∧ before.Restored (core f.dispose) ∧
    (∀ u ∈ before.arena.live,
      (core f.engine).arena.read u.offset u.length = before.arena.read u.offset u.length) ∧
    ∀ c fault,
      let plain := (new sizing before).replay calls
      plain.start.result ≠ .error (.engine fault) ∧
        .engineFailure fault ∉ plain.eventsOf c ∧
        (plain.phase ≠ .bypassed → (plain.after c).phase = .bypassed →
          ∃ input buffer, c = .quantum input buffer ∧
            sizing.ringCapacity.toNat < input.length) := by
  intro before f
  have htidy : before.arena.Tidy := by
    rw [← arena_core, harena]
    exact Arena.tidy_replay hn history
  obtain ⟨hsteady', hf⟩ := (balanced_new htidy sizing).replay hsteady calls
  obtain ⟨-, -, hdisposed⟩ := hf.release hsteady'
  refine ⟨hf.isSome_holdings, ?_, ?_, hdisposed, hf.kept, ?_⟩
  · intro h hsome
    have hheld := hf.held_of_some hsome
    exact ⟨hheld.spans.perm, hheld.spans.length_fst, hheld.spans.length_snd,
      hheld.spans.pairwise_apart, hheld.count_eq, hheld.get?_handle,
      fun hfree => ⟨hheld.handle_new.mpr hfree, fun k hk => hheld.get?_of_ne hfree hk⟩⟩
  · exact hf.restored_of_none
  · intro c fault plain
    have hplain := (fitted_new htidy sizing).replay calls
    exact ⟨plain.start_ne_engine fault, hplain.no_failure c fault, hplain.bypassed_after⟩

/-- Fails at its first frame. Three of its eight words are someone else's. -/
def failingEngine : ScriptedEngine where
  inner := { frameSize := 2, arena := (Arena.ofCapacity 8).replay [.alloc 3] }
  script := { failAt := some 0 }

theorem resources_balance_of_failure :
    let f := (new ⟨48000, 3, 2, 2⟩ failingEngine).replay [.start, .quantum [.one, .one, .one] []]
    Steady failingEngine ∧ f.phase = .bypassed ∧ f.holdings.isSome ∧
      (core failingEngine).Restored (core f.dispose) ∧
      ∀ u ∈ (core failingEngine).arena.live,
        (core f.engine).arena.read u.offset u.length =
          (core failingEngine).arena.read u.offset u.length := by
  have hsteady : Steady failingEngine := rfl
  have hphase : ((new ⟨48000, 3, 2, 2⟩ failingEngine).replay
      [.start, .quantum [.one, .one, .one] []]).phase = .bypassed := by rfl
  obtain ⟨hholds, -, -, hdisposed, hkept, -⟩ :=
    resources_balance (n := 8) (by decide) [.alloc 3] hsteady rfl ⟨48000, 3, 2, 2⟩
      [.start, .quantum [.one, .one, .one] []]
  exact ⟨hsteady, hphase, hholds.mpr (Or.inr (Or.inr hphase)), hdisposed, hkept⟩

end Framer

end AudioFraming
