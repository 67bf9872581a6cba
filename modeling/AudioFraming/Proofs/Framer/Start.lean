import AudioFraming.Proofs.Framer.Lease
import AudioFraming.Proofs.Sizing.Warmup

/-!
# Starting

A start takes two rings and a lease, or it changes nothing that the engine owns
(`start_cases`). What it takes fits together: the sizes have passed their check, and
a frame has room in an arena that 32 bits can address.
-/

namespace AudioFraming

theorem Lease.Held.frameSize_le {before e : IdentityEngine} {lease : Lease}
    (h : lease.Held before e) : before.frameSize.toNat ≤ 2 ^ 30 := by
  have hin := h.spans.perm.mem_iff.mpr (List.mem_cons_self ..)
  have hstop := (h.spans.tidy.laidOut.mem hin).2.1
  have hcap := h.spans.tidy.capacity_le
  rw [Span.stop, h.spans.length_fst] at hstop
  omega

namespace Framer

/-- All that a start has done that succeeds. -/
theorem exists_of_start_ok {σ : Type} [Engine σ] {f : Framer σ} (h : f.start.result = .ok ()) :
    f.phase = .created ∧ f.sizing.check f.engineFrame = .ok () ∧
      ∃ e lease, ∃ hpos : 0 < f.sizing.ringCapacity.toNat,
        Lease.take f.engine f.engineFrame.toNat = (.ok lease, e) ∧
        f.start.framer = { f with
          engine := e
          phase := .running
          holdings := some ⟨.ofCapacity f.sizing.ringCapacity.toNat hpos,
            .ofCapacity f.sizing.ringCapacity.toNat hpos, lease⟩
          warmupLeft := f.sizing.warmupQuanta.toNat } := by
  unfold start at h ⊢
  split_ifs at h ⊢ with hphase hpos
  · cases hcheck : f.sizing.check f.engineFrame with
    | error fault => simp [hcheck] at h
    | ok _ =>
    rcases htake : Lease.take f.engine f.engineFrame.toNat with ⟨fault | lease, e⟩
    · simp [hcheck, htake] at h
    · exact ⟨not_not.mp hphase, rfl, e, lease, hpos, rfl, rfl⟩
  · cases hcheck : f.sizing.check f.engineFrame <;> simp [hcheck] at h

theorem exists_of_started_ok {σ : Type} [Engine σ] {sizing : Sizing} {s : σ}
    (h : (started sizing s).result = .ok ()) :
    sizing.Fits (Engine.frameSize s) ∧
      ∃ e lease, ∃ hpos : 0 < sizing.ringCapacity.toNat,
        Lease.take s (Engine.frameSize s).toNat = (.ok lease, e) ∧
        (started sizing s).framer = {
          sizing := sizing
          engine := e
          phase := .running
          holdings := some ⟨.ofCapacity sizing.ringCapacity.toNat hpos,
            .ofCapacity sizing.ringCapacity.toNat hpos, lease⟩
          warmupLeft := sizing.warmupQuanta.toNat } := by
  obtain ⟨-, hcheck, htaken⟩ := exists_of_start_ok h
  exact ⟨Sizing.fits_of_check hcheck, htaken⟩

/-- Sizes that pass their check need nothing but a lease. -/
theorem result_started {σ : Type} [Engine σ] {sizing : Sizing} {s : σ}
    (hcheck : sizing.check (Engine.frameSize s) = .ok ()) :
    (started sizing s).result =
      (Lease.take s (Engine.frameSize s).toNat).1.map fun _ => () := by
  have hfits := Sizing.fits_of_check hcheck
  have hpos : 0 < sizing.ringCapacity.toNat := hfits.frame_pos.trans_le hfits.frame_le_ringCapacity
  rcases htake : Lease.take s (Engine.frameSize s).toNat with ⟨fault | lease, e⟩ <;>
    simp [started, start, new, engineFrame, hcheck, hpos, htake, Except.map]

variable {σ : Type} [Engine σ] [IdentityDouble σ]

open IdentityDouble

theorem start_cases {f : Framer σ} {before : IdentityEngine} (hphase : f.phase = .created)
    (hsteady : Steady f.engine) (h : before.Untouched (core f.engine)) :
    (∃ e fault, f.start = ⟨{ f with engine := e }, .error fault, []⟩ ∧ Steady e ∧
      before.Untouched (core e)) ∨
    ∃ e lease logs, ∃ hpos : 0 < f.sizing.ringCapacity.toNat,
      f.start = ⟨{ f with
        engine := e
        phase := .running
        holdings := some ⟨.ofCapacity f.sizing.ringCapacity.toNat hpos,
          .ofCapacity f.sizing.ringCapacity.toNat hpos, lease⟩
        warmupLeft := f.sizing.warmupQuanta.toNat }, .ok (), logs⟩ ∧
      Steady e ∧ lease.Held before (core e) ∧ f.sizing.Fits before.frameSize := by
  have hframe : f.engineFrame = before.frameSize :=
    (frameSize_core _ hsteady).trans h.frameSize_eq
  have htake := Lease.held_take hsteady h
  unfold start
  rw [if_neg (not_not.mpr hphase), hframe]
  cases hcheck : f.sizing.check before.frameSize with
  | error fault => exact Or.inl ⟨_, fault, rfl, hsteady, h⟩
  | ok _ =>
  dsimp only
  split_ifs with hpos
  · cases hl : Lease.take f.engine before.frameSize.toNat with
    | mk taken e =>
    rw [hl] at htake
    cases taken with
    | error fault => exact Or.inl ⟨e, fault, rfl, htake.1, htake.2⟩
    | ok lease =>
      exact Or.inr ⟨e, lease, _, hpos, rfl, htake.1, htake.2, Sizing.fits_of_check hcheck⟩
  · exact Or.inl ⟨_, _, rfl, hsteady, h⟩

/-- What a framer is like that has just started over an engine of its own. -/
theorem started_eq_ok {sizing : Sizing} {s : σ} (hsteady : Steady s) (htidy : (core s).arena.Tidy)
    (h : (started sizing s).result = .ok ()) :
    ∃ e lease, ∃ hpos : 0 < sizing.ringCapacity.toNat,
      (started sizing s).framer = {
        sizing := sizing
        engine := e
        phase := .running
        holdings := some ⟨.ofCapacity sizing.ringCapacity.toNat hpos,
          .ofCapacity sizing.ringCapacity.toNat hpos, lease⟩
        warmupLeft := sizing.warmupQuanta.toNat } ∧
      Steady e ∧ lease.Held (core s) (core e) ∧ sizing.Fits (core s).frameSize := by
  rcases start_cases (f := new sizing s) rfl hsteady (.refl htidy) with
    ⟨e, fault, hstart, -⟩ | ⟨e, lease, logs, hpos, hstart, hsteady', hheld, hfits⟩
  · unfold started at h
    rw [hstart] at h
    cases h
  · refine ⟨e, lease, hpos, ?_, hsteady', hheld, hfits⟩
    unfold started
    rw [hstart]
    rfl

end Framer

end AudioFraming
