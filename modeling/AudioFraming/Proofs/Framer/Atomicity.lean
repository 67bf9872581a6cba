import AudioFraming.Proofs.Arena.Agreement
import AudioFraming.Proofs.Framer.LifeCycle

/-!
# All or nothing

A start takes two spans and an instance, or it takes nothing. It can fail before the first span,
between the two, or for want of an instance; each time what it has taken is given back by value,
and the spans in use are the same list as before, wherever the gaps were that served it
(`Lease.intact_of_take_error`). Only words that no span covers can have changed, and they make no
difference to a later start (`start_agrees`).

Engines are arbitrary, as long as they change nothing when they refuse an instance.
-/

namespace AudioFraming

namespace Engine

variable (σ : Type) [Engine σ]

/-- An engine that refuses an instance is as it was. -/
def RefusesCleanly : Prop :=
  ∀ (e e' : σ) (fault : EngineError), create e = (.error fault, e') → e' = e

/-- Words that no span covers make no difference to what an engine tells of itself and to the making
of an instance. -/
structure Oblivious : Prop where
  name_eq : ∀ (e : σ) (a : Arena), (arena e).Agrees a → name (withArena e a) = name e
  frameSize_eq : ∀ (e : σ) (a : Arena), (arena e).Agrees a →
    frameSize (withArena e a) = frameSize e
  create_eq : ∀ (e : σ) (a : Arena), (arena e).Agrees a →
    ∃ b, create (withArena e a) = ((create e).1, withArena (create e).2 b) ∧
      (arena (create e).2).Agrees b

end Engine

namespace ScriptedEngine

theorem refusesCleanly : Engine.RefusesCleanly ScriptedEngine := by
  intro e e' fault h
  simp only [Engine.create] at h
  split at h
  · exact (Prod.mk.inj h).2.symm
  · cases congrArg Prod.fst h

theorem oblivious : Engine.Oblivious ScriptedEngine where
  name_eq _ _ _ := rfl
  frameSize_eq _ _ _ := rfl
  create_eq e a h := by
    cases hscript : e.script.createError with
    | some fault =>
      refine ⟨a, ?_, ?_⟩ <;> simp only [Engine.create, Engine.withArena, hscript]
      exact h
    | none =>
      refine ⟨a, ?_, ?_⟩ <;> simp only [Engine.create, Engine.withArena, hscript]
      exact h

end ScriptedEngine

variable {σ : Type} [Engine σ]

namespace Lease

variable {e e' : σ} {length : Nat}

theorem exists_take_iff :
    (∃ lease e', take e length = (.ok lease, e')) ↔
      ∃ first b second c, (Engine.arena e).alloc length = .ok (first, b) ∧
        b.alloc length = .ok (second, c) ∧
        ∃ handle e', Engine.create (Engine.withArena e c) = (.ok handle, e') := by
  unfold take Arena.allocTwo
  cases hfirst : (Engine.arena e).alloc length with
  | error fault => simp
  | ok taken =>
  obtain ⟨first, b⟩ := taken
  cases hsecond : b.alloc length with
  | error fault => cases fault <;> simp [hsecond]
  | ok taken =>
  obtain ⟨second, c⟩ := taken
  rcases hcreate : Engine.create (Engine.withArena e c) with ⟨fault | handle, e'⟩ <;>
    simp [hsecond, hcreate]

/-- What has been taken is given back. -/
theorem intact_of_take_error (hclean : Engine.RefusesCleanly σ) (htidy : (Engine.arena e).Tidy)
    {fault : SetupError} (h : take e length = (.error fault, e')) :
    ∃ a, e' = Engine.withArena e a ∧ (Engine.arena e).Intact a := by
  have hspans := Arena.lends_allocTwo (.refl htidy) length
  unfold take at h
  rcases hlend : (Engine.arena e).allocTwo length with ⟨refused | ⟨first, second⟩, a⟩
  · rw [hlend] at h hspans
    exact ⟨a, (Prod.mk.inj h).2.symm, hspans⟩
  · rcases hcreate : Engine.create (Engine.withArena e a) with ⟨refused | handle, e₁⟩
    · simp only [hlend, hcreate] at h hspans
      obtain rfl := hclean _ _ _ hcreate
      refine ⟨(a.discard first).discard second, ?_, hspans.intact_discard⟩
      simpa using (Prod.mk.inj h).2.symm
    · simp [hlend, hcreate] at h

/-- Over arenas that agree, the same lease is taken, or none for the same reason. -/
theorem take_agrees (hobl : Engine.Oblivious σ) (htidy : (Engine.arena e).Tidy) {a : Arena}
    (h : (Engine.arena e).Agrees a) (length : Nat) :
    ∃ b, take (Engine.withArena e a) length =
        ((take e length).1, Engine.withArena (take e length).2 b) ∧
      (Engine.arena (take e length).2).Agrees b := by
  obtain ⟨hfst, hsnd⟩ := h.allocTwo htidy length
  unfold take
  rw [Engine.arena_withArena]
  rcases hlend : (Engine.arena e).allocTwo length with ⟨refused | ⟨first, second⟩, a₁⟩
  · rcases hlend' : a.allocTwo length with ⟨taken, b₁⟩
    rw [hlend, hlend'] at hfst hsnd
    obtain rfl := hfst
    refine ⟨b₁, ?_, ?_⟩ <;> simp [hsnd]
  · rcases hlend' : a.allocTwo length with ⟨taken, b₁⟩
    rw [hlend, hlend'] at hfst hsnd
    obtain rfl := hfst
    obtain ⟨b, hcreate, hagrees⟩ := hobl.create_eq (Engine.withArena e a₁) b₁ (by simpa using hsnd)
    rw [Engine.withArena_withArena] at hcreate
    rcases hmade : Engine.create (Engine.withArena e a₁) with ⟨refused | handle, e₁⟩
    · rw [hmade] at hcreate hagrees
      refine ⟨(b.discard first).discard second, ?_, ?_⟩
      · simp [hmade, hcreate]
      · simpa [hmade] using (hagrees.discard first).discard second
    · rw [hmade] at hcreate hagrees
      exact ⟨b, by simp [hmade, hcreate], by simpa [hmade] using hagrees⟩

end Lease

namespace Framer

variable {f : Framer σ}

theorem start_ok_iff : f.start.result = .ok () ↔ f.phase = .created ∧
    f.sizing.check f.engineFrame = .ok () ∧
      ∃ lease e, Lease.take f.engine f.engineFrame.toNat = (.ok lease, e) := by
  constructor
  · intro h
    obtain ⟨hphase, hcheck, e, lease, -, htake, -⟩ := exists_of_start_ok h
    exact ⟨hphase, hcheck, lease, e, htake⟩
  · rintro ⟨hphase, hcheck, lease, e, htake⟩
    have hfits := Sizing.fits_of_check hcheck
    have hpos := hfits.frame_pos.trans_le hfits.frame_le_ringCapacity
    simp only [start, hphase, hcheck, htake, hpos]
    rfl

/-- A start that fails has changed nothing, or it has asked the engine for a lease. -/
theorem framer_of_start_error {fault : SetupError} (h : f.start.result = .error fault) :
    f.start.framer = f ∨ f.phase = .created ∧
      ∃ e, Lease.take f.engine f.engineFrame.toNat = (.error fault, e) ∧
        f.start.framer = { f with engine := e } := by
  unfold start at h ⊢
  split_ifs at h ⊢ with hphase hpos
  · exact Or.inl rfl
  · cases hcheck : f.sizing.check f.engineFrame with
    | error fault => exact Or.inl (by simp)
    | ok _ =>
    rcases htake : Lease.take f.engine f.engineFrame.toNat with ⟨refused | lease, e⟩
    · simp only [hcheck, htake] at h
      obtain rfl := Except.error.inj h
      exact Or.inr ⟨not_not.mp hphase, e, rfl, by simp⟩
    · simp [hcheck, htake] at h
  · cases hcheck : f.sizing.check f.engineFrame <;> exact Or.inl (by simp)

/-- Framers that differ only in words that no span covers start alike. -/
theorem start_agrees (hobl : Engine.Oblivious σ)
    (htidy : f.phase = .created → (Engine.arena f.engine).Tidy) {a : Arena}
    (h : (Engine.arena f.engine).Agrees a) :
    let g : Framer σ := { f with engine := Engine.withArena f.engine a }
    g.start.result = f.start.result ∧ g.start.logs = f.start.logs ∧
      ∃ b, g.start.framer =
          { f.start.framer with engine := Engine.withArena f.start.framer.engine b } ∧
        (Engine.arena f.start.framer.engine).Agrees b := by
  intro g
  by_cases hphase : f.phase = .created
  · have hframe : g.engineFrame = f.engineFrame := hobl.frameSize_eq _ _ h
    obtain ⟨b, htake, hagrees⟩ := Lease.take_agrees hobl (htidy hphase) h f.engineFrame.toNat
    have htake' : Lease.take g.engine f.engineFrame.toNat = _ := htake
    have hphase' : g.phase = .created := hphase
    have hsizing : g.sizing = f.sizing := rfl
    unfold start
    simp only [hphase, hphase', hframe, hsizing, htake', ne_eq, not_true, if_false]
    cases f.sizing.check f.engineFrame with
    | error fault => exact ⟨rfl, rfl, a, rfl, h⟩
    | ok _ =>
    dsimp only
    split_ifs with hpos
    · rcases htaken : Lease.take f.engine f.engineFrame.toNat with ⟨fault | lease, e⟩
      · rw [htaken] at hagrees
        exact ⟨rfl, rfl, b, rfl, hagrees⟩
      · rw [htaken] at hagrees
        refine ⟨rfl, ?_, b, rfl, hagrees⟩
        simp only [startRecord, hobl.name_eq e b hagrees]
    · exact ⟨rfl, rfl, a, rfl, h⟩
  · have hphase' : g.phase ≠ .created := hphase
    rw [start_of_ne hphase, start_of_ne hphase']
    exact ⟨rfl, rfl, a, rfl, h⟩

/-- Until a start succeeds, the spans in use lie as they did. -/
theorem tidy_after (hclean : Engine.RefusesCleanly σ)
    (htidy : f.phase = .created → (Engine.arena f.engine).Tidy) (c : FramerCall)
    (hphase : (f.after c).phase = .created) : (Engine.arena (f.after c).engine).Tidy := by
  have hbefore := (f.moves_after c).eq_created hphase
  have hcommand : ∀ c, (f.apply c).framer.phase = .created →
      (Engine.arena (f.apply c).framer.engine).Tidy := by
    intro c hafter
    rcases f.phase_apply c with ⟨-, happly⟩ | ⟨hmoves, -⟩
    · rw [happly]
      exact htidy hbefore
    · rw [hafter, hbefore] at hmoves
      cases c <;> cases hmoves
  cases c with
  | start =>
    cases hresult : f.start.result with
    | error fault =>
      rw [after]
      rcases framer_of_start_error hresult with hsame | ⟨-, e, htake, hframer⟩
      · rw [hsame]
        exact htidy hbefore
      · obtain ⟨a, rfl, hintact⟩ := Lease.intact_of_take_error hclean (htidy hbefore) htake
        rw [hframer, Engine.arena_withArena]
        exact hintact.tidy
    | ok _ =>
      obtain ⟨-, -, e, lease, hpos, -, hframer⟩ := exists_of_start_ok hresult
      rw [after, hframer] at hphase
      cases hphase
  | command c => exact hcommand c hphase
  | stop => exact hcommand .stop hphase
  | quantum input buffer =>
    rw [after, (quantum_idle (by simp [hbefore]) input buffer).1]
    exact htidy hbefore

theorem tidy_replay (hclean : Engine.RefusesCleanly σ)
    (htidy : f.phase = .created → (Engine.arena f.engine).Tidy) (calls : List FramerCall) :
    (f.replay calls).phase = .created → (Engine.arena (f.replay calls).engine).Tidy := by
  induction calls generalizing f with
  | nil => exact htidy
  | cons c rest ih => exact ih (tidy_after hclean htidy c)

/-- A start that fails leaves nothing behind that anyone could find. -/
theorem untouched_of_start_error (hclean : Engine.RefusesCleanly σ)
    (htidy : f.phase = .created → (Engine.arena f.engine).Tidy) {fault : SetupError}
    (h : f.start.result = .error fault) :
    ∃ a, f.start.framer = { f with engine := Engine.withArena f.engine a } ∧
      (Engine.arena f.engine).Agrees a := by
  rcases framer_of_start_error h with hsame | ⟨hcreated, e, htake, hframer⟩
  · refine ⟨Engine.arena f.engine, ?_, .refl _⟩
    rw [hsame, Engine.withArena_arena]
  · obtain ⟨a, rfl, hintact⟩ := Lease.intact_of_take_error hclean (htidy hcreated) htake
    exact ⟨a, hframer, hintact.agrees⟩

/-- A start is all or nothing. It succeeds exactly if nothing has been started yet, the sizes pass
their check, the arena serves two requests for a frame one after the other, and the engine then makes
an instance. If it fails, all that may have changed is words of the arena that no span covers: the
framer, the list of the spans in use, their contents, and everything that can be told of the engine
without its arena are as before. And if engines do not look at those words, then whatever is done to
the arena meanwhile, the next start does what it would have done without the one that failed. -/
theorem start_atomic (hclean : Engine.RefusesCleanly σ) {n : Nat} (hn : n ≤ 2 ^ 30)
    (history : List ArenaCall) {s : σ} (harena : Engine.arena s = (Arena.ofCapacity n).replay history)
    (sizing : Sizing) (calls : List FramerCall) :
    let f := (new sizing s).replay calls
    let arena := Engine.arena f.engine
    (f.start.result = .ok () ↔ f.phase = .created ∧ f.sizing.check f.engineFrame = .ok () ∧
      ∃ first b second c, arena.alloc f.engineFrame.toNat = .ok (first, b) ∧
        b.alloc f.engineFrame.toNat = .ok (second, c) ∧
        ∃ handle e, Engine.create (Engine.withArena f.engine c) = (.ok handle, e)) ∧
    ∀ fault, f.start.result = .error fault →
      (∃ a, f.start.framer = { f with engine := Engine.withArena f.engine a } ∧
        a.capacity = arena.capacity ∧ a.live = arena.live ∧
        ∀ u ∈ arena.live, a.read u.offset u.length = arena.read u.offset u.length) ∧
      (∀ {ι : Type} (view : σ → ι), (∀ e a, view (Engine.withArena e a) = view e) →
        view f.start.framer.engine = view f.engine) ∧
      (Engine.Oblivious σ → ∀ meanwhile : List ArenaCall,
        let turn (f : Framer σ) : Framer σ := { f with
          engine := Engine.withArena f.engine ((Engine.arena f.engine).replay meanwhile) }
        let first := (turn f).start
        let second := (turn f.start.framer).start
        second.result = first.result ∧ second.logs = first.logs ∧
          ∃ a, second.framer =
              { first.framer with engine := Engine.withArena first.framer.engine a } ∧
            (Engine.arena first.framer.engine).Agrees a) := by
  intro f arena
  have htidy : f.phase = .created → arena.Tidy :=
    tidy_replay hclean (fun _ => harena ▸ Arena.tidy_replay hn history) calls
  refine ⟨?_, fun fault hfault => ?_⟩
  · rw [start_ok_iff, Lease.exists_take_iff]
  obtain ⟨a, hframer, hagrees⟩ := untouched_of_start_error hclean htidy hfault
  refine ⟨⟨a, hframer, hagrees.capacity_eq, hagrees.live_eq, ?_⟩, ?_, ?_⟩
  · intro u hu
    exact Arena.read_eq_of_kept hagrees.capacity_eq (hagrees.kept u hu)
  · intro ι view hview
    rw [hframer]
    exact hview f.engine a
  · intro hobl meanwhile turn
    have hturn : ∃ b, turn f.start.framer =
          { turn f with engine := Engine.withArena (turn f).engine b } ∧
        (Engine.arena (turn f).engine).Agrees b := by
      by_cases hphase : f.phase = .created
      · refine ⟨a.replay meanwhile, ?_, ?_⟩
        · simp only [turn, hframer, Engine.arena_withArena, Engine.withArena_withArena]
        · simpa [turn] using hagrees.replay (htidy hphase) meanwhile
      · refine ⟨Engine.arena (turn f).engine, ?_, .refl _⟩
        rw [start_of_ne hphase, Engine.withArena_arena]
    obtain ⟨b, hsecond, hagrees'⟩ := hturn
    rw [hsecond]
    refine start_agrees hobl (fun hphase => ?_) hagrees'
    simpa [turn] using (htidy hphase).replay meanwhile

/-- Has room for a frame of two between the spans in use, and at its end, but for no instance. -/
def refusingEngine : ScriptedEngine where
  inner := ⟨2, (Arena.ofCapacity 12).replay [.alloc 2, .alloc 3, .alloc 1, .dealloc ⟨8, 3⟩], {}⟩
  script := { createError := some (.createFailed "") }

/-- The instance is refused once more, and again after someone else has taken a part of the gap. -/
theorem start_atomic_of_refused_instance :
    let f := (new ⟨48000, 3, 2, 2⟩ refusingEngine).replay [.start, .quantum [.one] []]
    let turn (f : Framer ScriptedEngine) : Framer ScriptedEngine := { f with
      engine := Engine.withArena f.engine ((Engine.arena f.engine).replay [.alloc 2]) }
    Engine.RefusesCleanly ScriptedEngine ∧ 12 ≤ 2 ^ 30 ∧
      f.start.result = .error (.engine (.createFailed "")) ∧
      (∃ a, f.start.framer = { f with engine := Engine.withArena f.engine a } ∧
        a.live = [⟨0, 2⟩, ⟨20, 1⟩]) ∧
      (turn f.start.framer).start.result = (turn f).start.result := by
  intro f turn
  have hf : (new ⟨48000, 3, 2, 2⟩ refusingEngine).replay [.start, .quantum [.one] []] = f := rfl
  have hatomic := start_atomic ScriptedEngine.refusesCleanly (n := 12) (by decide) _
    (s := refusingEngine) rfl ⟨48000, 3, 2, 2⟩ [.start, .quantum [.one] []]
  rw [hf] at hatomic
  have hresult : f.start.result = .error (.engine (.createFailed "")) := by decide +kernel
  have hlive : (Engine.arena f.engine).live = [⟨0, 2⟩, ⟨20, 1⟩] := by decide +kernel
  obtain ⟨⟨a, hframer, -, hsame, -⟩, -, hlater⟩ := hatomic.2 _ hresult
  exact ⟨ScriptedEngine.refusesCleanly, by decide, hresult, ⟨a, hframer, hsame.trans hlive⟩,
    (hlater ScriptedEngine.oblivious [.alloc 2]).1⟩

end Framer

end AudioFraming
