import AudioFraming.Proofs.Framer.Session

/-!
# Service without failure

An identity engine never fails, neither when a framer takes a lease of it
(`start_ne_engine`) nor on a frame. All that can end its service is an input longer
than a ring, since that is the only callback that a framer with its rings in order
(`Fitted`) cannot serve.
-/

namespace AudioFraming

theorem Sizing.check_ne_engine (s : Sizing) (engineFrame : UInt64) (fault : EngineError) :
    s.check engineFrame ≠ .error (.engine fault) := by
  unfold check
  split_ifs <;> simp

theorem Arena.alloc_ne_engine (a : Arena) (length : Nat) (fault : EngineError) :
    a.alloc length ≠ .error (.engine fault) := by
  unfold alloc
  split_ifs
  · simp
  · rcases firstFit a.capacity length 0 a.live with cause | _ | gap
    · simp
    · cases distance a.capacity (Span.total a.live) <;> simp
    · cases htaken : a.occupy gap length <;> simp [htaken, Except.mapError]

theorem Arena.allocTwo_ne_engine (a : Arena) (length : Nat) (fault : EngineError) :
    (a.allocTwo length).1 ≠ .error (.engine fault) := by
  intro h
  rcases error_of_allocTwo h with he | ⟨s, b, -, he⟩
  · exact a.alloc_ne_engine length fault he
  · exact b.alloc_ne_engine length fault he

namespace Lease

/-- An identity engine always creates an instance. -/
theorem take_ne_engine (e : IdentityEngine) (frame : Nat) (fault : EngineError) :
    (take e frame).1 ≠ .error (.engine fault) := by
  have htwo := Arena.allocTwo_ne_engine (Engine.arena e) frame fault
  unfold take
  split
  · rename_i hab
    rw [hab] at htwo
    simpa using htwo
  · simp [Engine.create]

end Lease

namespace Framer

theorem start_ne_engine (f : Framer IdentityEngine) (fault : EngineError) :
    f.start.result ≠ .error (.engine fault) := by
  unfold start
  split_ifs with hphase hpos
  · simp
  · split
    · rename_i e he
      intro h
      obtain rfl := Except.error.inj h
      exact f.sizing.check_ne_engine _ fault he
    · split
      · rename_i e engine he
        intro h
        obtain rfl := Except.error.inj h
        exact Lease.take_ne_engine f.engine f.engineFrame.toNat fault (congrArg Prod.fst he)
      · simp
  · split
    · rename_i e he
      intro h
      obtain rfl := Except.error.inj h
      exact f.sizing.check_ne_engine _ fault he
    · simp

section calls

variable {σ : Type} [Engine σ]

@[simp] theorem sizing_release (f : Framer σ) : f.release.sizing = f.sizing := by
  unfold release
  split <;> rfl

theorem holdings_release (f : Framer σ) : f.release.holdings = none := by
  unfold release
  split
  · assumption
  · rfl

theorem holdings_apply (f : Framer σ) (c : Command) :
    (f.apply c).framer.holdings = f.holdings ∨ (f.apply c).framer.holdings = none := by
  rcases f.apply_eq c with happly | ⟨q, -, happly⟩
  · rw [happly]
    exact Or.inl rfl
  · rw [happly]
    dsimp only
    split_ifs
    · exact Or.inr f.holdings_release
    · exact Or.inl rfl

theorem sizing_apply (f : Framer σ) (c : Command) : (f.apply c).framer.sizing = f.sizing := by
  rcases f.apply_eq c with happly | ⟨q, -, happly⟩
  · rw [happly]
  · rw [happly]
    dsimp only
    split_ifs
    · exact f.sizing_release
    · rfl

theorem apply_ne_bypassed {f : Framer σ} (hbefore : f.phase ≠ .bypassed) (c : Command) :
    (f.apply c).framer.phase ≠ .bypassed := by
  rcases f.apply_eq c with happly | ⟨q, hafter, happly⟩
  · rw [happly]
    exact hbefore
  · rw [happly]
    rcases Phase.after_cases hafter with ⟨rfl, -⟩ | ⟨-, rfl | rfl⟩ <;> simp

theorem start_ne_bypassed {f : Framer σ} (hbefore : f.phase ≠ .bypassed) :
    f.start.framer.phase ≠ .bypassed := by
  rcases f.start_eq with ⟨e, fault, hstart⟩ | ⟨e, h, left, logs, hstart⟩
  · rw [hstart]
    exact hbefore
  · rw [hstart]
    simp

theorem sizing_start (f : Framer σ) : f.start.framer.sizing = f.sizing := by
  rcases f.start_eq with ⟨e, fault, hstart⟩ | ⟨e, h, left, logs, hstart⟩ <;> rw [hstart]

theorem sizing_quantum (f : Framer σ) (input buffer : List Sample) :
    (f.quantum input buffer).framer.sizing = f.sizing := by
  by_cases hphase : f.phase = .running
  · cases hsome : f.holdings with
    | none =>
      unfold quantum
      simp only [hphase, hsome]
    | some h => exact (quantum_running hphase hsome input buffer).2.2.1
  · rw [(quantum_idle hphase input buffer).1]

/-- A framer is sized once and for all. -/
theorem sizing_after (f : Framer σ) (c : FramerCall) : (f.after c).sizing = f.sizing := by
  cases c with
  | start => exact f.sizing_start
  | command c => exact f.sizing_apply c
  | stop => exact f.sizing_apply .stop
  | quantum input buffer => exact f.sizing_quantum input buffer

/-- An input longer than the ring ends the service. -/
theorem quantum_too_long {f : Framer σ} {h : Holdings} (hphase : f.phase = .running)
    (hsome : f.holdings = some h) {input : List Sample} (hlong : h.input.capacity < input.length)
    (buffer : List Sample) :
    (f.quantum input buffer).framer.holdings = some ⟨h.input.clear, h.output.clear, h.lease⟩ ∧
      (f.quantum input buffer).events =
        [.misconfigured (.pushExceedsCapacity input.length h.input.capacity),
          .phaseChanged .bypassed] := by
  have hpush := (h.input.push_eq_error_iff input _).mpr ⟨hlong, rfl⟩
  have hne : input ≠ [] := List.ne_nil_of_length_pos (Nat.zero_lt_of_lt hlong)
  have hadvance : (f.progress h).advance h.lease f.engineFrame.toNat input =
      (some (.pushExceedsCapacity input.length h.input.capacity), f.progress h) := by
    simp only [Progress.advance, Progress.absorb, progress, hpush, if_neg hne]
  rw [quantum_eq_fail hphase hsome hadvance]
  exact ⟨rfl, rfl⟩

end calls

/-- The rings of a framer over an identity engine are as large as it was sized. -/
structure Fitted (before : IdentityEngine) (sizing : Sizing) (f : Framer IdentityEngine) :
    Prop where
  balanced : Balanced before f
  sizing_eq : f.sizing = sizing
  sized : ∀ h, f.holdings = some h → h.Sized sizing before.frameSize

namespace Fitted

variable {before : IdentityEngine} {sizing : Sizing} {f : Framer IdentityEngine}

/-- A callback is served, or its input is too long. -/
theorem quantum_cases (hf : Fitted before sizing f) {h : Holdings} (hphase : f.phase = .running)
    (hsome : f.holdings = some h) (input buffer : List Sample) :
    ∃ h', (f.quantum input buffer).framer.holdings = some h' ∧
      h'.Sized sizing before.frameSize ∧
      (∀ fault, .engineFailure fault ∉ (f.quantum input buffer).events) ∧
      ((f.quantum input buffer).framer.phase = .running ∨
        sizing.ringCapacity.toNat < input.length) := by
  have hsized := hf.sized h hsome
  by_cases hlong : h.input.capacity < input.length
  · obtain ⟨hholdings, hevents⟩ := quantum_too_long hphase hsome hlong buffer
    refine ⟨_, hholdings, hsized.of_capacity_eq rfl rfl, ?_, ?_⟩
    · intro fault
      simp [hevents]
    · rw [← hsized.input_capacity]
      exact Or.inr hlong
  · have hruns := runs_of_sized hsized hphase hsome (hf.balanced.held_of_some hsome)
    obtain ⟨p, ring, hadv, hhands, hruns', -⟩ := hruns.quantum buffer (Nat.not_lt.mp hlong)
    have hmild : ∀ fault, .engineFailure fault ∉ p.events := by
      intro fault he
      rcases hadv.events _ he with he | he | ⟨side, n, he⟩ <;> cases he
    refine ⟨_, hruns'.holdings_eq, ?_, ?_, Or.inl hruns'.phase_eq⟩
    · exact hsized.of_capacity_eq hadv.input_capacity
        (hhands.capacity_eq.trans hadv.output_capacity)
    · intro fault he
      cases hhands with
      | warmup hleft hring hblock hevents => exact hmild fault (hevents ▸ he)
      | missed hleft hlt hcapacity hlist htally hblock hevents =>
        rw [hevents] at he
        rcases List.mem_append.mp he with he | he
        · exact hmild fault he
        · simp at he
      | filled hleft hle hcapacity hlist htally hblock hevents =>
        exact hmild fault (hevents ▸ he)

theorem sized_apply (hf : Fitted before sizing f) (c : Command) :
    ∀ h, (f.apply c).framer.holdings = some h → h.Sized sizing before.frameSize := by
  intro h hsome
  rcases f.holdings_apply c with hsame | hnone
  · rw [hsame] at hsome
    exact hf.sized h hsome
  · rw [hnone] at hsome
    cases hsome

theorem sized_start (hf : Fitted before sizing f) :
    ∀ h, f.start.framer.holdings = some h → h.Sized sizing before.frameSize := by
  intro h hsome
  obtain rfl := hf.sizing_eq
  by_cases hcreated : f.phase = .created
  · obtain ⟨-, huntouched⟩ := hf.balanced.untouched hcreated
    rcases start_cases hcreated trivial huntouched with
      ⟨e, fault, hstart, -⟩ | ⟨e, lease, logs, hpos, hstart, -, -, hfits⟩
    · rw [hstart] at hsome
      exact hf.sized h hsome
    · rw [hstart] at hsome
      obtain rfl := Option.some.inj hsome
      exact Holdings.sized_ofCapacity hfits hpos lease
  · rw [start_of_ne hcreated] at hsome
    exact hf.sized h hsome

theorem sized_quantum (hf : Fitted before sizing f) (input buffer : List Sample) :
    ∀ h, (f.quantum input buffer).framer.holdings = some h →
      h.Sized sizing before.frameSize := by
  intro h' hsome'
  by_cases hphase : f.phase = .running
  · obtain ⟨h, hsome, -⟩ := hf.balanced.exists_held hphase
    obtain ⟨h'', hsome'', hsized, -⟩ := hf.quantum_cases hphase hsome input buffer
    rw [hsome''] at hsome'
    obtain rfl := Option.some.inj hsome'
    exact hsized
  · rw [(quantum_idle hphase input buffer).1] at hsome'
    exact hf.sized h' hsome'

theorem after (hf : Fitted before sizing f) (c : FramerCall) :
    Fitted before sizing (f.after c) := by
  refine ⟨(hf.balanced.after trivial c).2, (f.sizing_after c).trans hf.sizing_eq, ?_⟩
  cases c with
  | start => exact hf.sized_start
  | command c => exact hf.sized_apply c
  | stop => exact hf.sized_apply .stop
  | quantum input buffer => exact hf.sized_quantum input buffer

theorem replay (hf : Fitted before sizing f) (calls : List FramerCall) :
    Fitted before sizing (f.replay calls) := by
  induction calls generalizing f with
  | nil => exact hf
  | cons c rest ih => exact ih (hf.after c)

theorem no_failure (hf : Fitted before sizing f) (c : FramerCall) (fault : EngineError) :
    .engineFailure fault ∉ f.eventsOf c := by
  cases c with
  | start => simp [eventsOf]
  | command c =>
    rcases f.apply_eq c with happly | ⟨q, -, happly⟩ <;> simp [eventsOf, happly]
  | stop => simp [eventsOf]
  | quantum input buffer =>
    by_cases hphase : f.phase = .running
    · obtain ⟨h, hsome, -⟩ := hf.balanced.exists_held hphase
      obtain ⟨h', -, -, hquiet, -⟩ := hf.quantum_cases hphase hsome input buffer
      exact hquiet fault
    · rw [eventsOf, (quantum_idle hphase input buffer).2]
      exact List.not_mem_nil

theorem bypassed_after (hf : Fitted before sizing f) {c : FramerCall}
    (hbefore : f.phase ≠ .bypassed) (hafter : (f.after c).phase = .bypassed) :
    ∃ input buffer, c = .quantum input buffer ∧ sizing.ringCapacity.toNat < input.length := by
  cases c with
  | start => exact absurd hafter (start_ne_bypassed hbefore)
  | command c => exact absurd hafter (apply_ne_bypassed hbefore c)
  | stop => exact absurd hafter (apply_ne_bypassed hbefore .stop)
  | quantum input buffer =>
    refine ⟨input, buffer, rfl, ?_⟩
    simp only [Framer.after] at hafter
    by_cases hphase : f.phase = .running
    · obtain ⟨h, hsome, -⟩ := hf.balanced.exists_held hphase
      obtain ⟨h', -, -, -, hend⟩ := hf.quantum_cases hphase hsome input buffer
      rcases hend with hend | hend
      · rw [hend] at hafter
        cases hafter
      · exact hend
    · rw [(quantum_idle hphase input buffer).1] at hafter
      exact absurd hafter hbefore

end Fitted

theorem fitted_new {before : IdentityEngine} (htidy : before.arena.Tidy) (sizing : Sizing) :
    Fitted before sizing (new sizing before) :=
  ⟨balanced_new htidy sizing, rfl, fun h hsome => by cases hsome⟩

end Framer

end AudioFraming
