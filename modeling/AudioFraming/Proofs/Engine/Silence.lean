import AudioFraming.Engine.Identity
import AudioFraming.Engine.Recorded
import AudioFraming.Engine.Suppressor
import AudioFraming.Proofs.Arena.History
import AudioFraming.Proofs.Engine.Instances

/-!
# Silence through an engine

A denoiser that has heard nothing but silence should let silence through and find no
speech in it. On this assumption the suppressor does to silent frames what the identity
engine does, and nobody can tell the two apart as long as all frames are silent: through
every sequence of calls they give the same answers and leave the same memory and the same
handles (`session_eq_of_silence`). What else lies in the arena need not be silent, and
calls may fail in any way.

The instances of the two are compared by forgetting the filter states (`Slots.forget`).
-/

namespace AudioFraming

/-! ## Tables without what is in them -/

namespace Slots

variable {α : Type}

/-- The handles that name an instance, whatever it is. -/
def forget (s : Slots α) : Slots Unit := ⟨s.cells.map (Option.map fun _ => ())⟩

theorem get?_forget (s : Slots α) (h : Handle) :
    s.forget.get? h = (s.get? h).map fun _ => () := by
  simp only [forget, get?, List.getElem?_map]
  cases s.cells[h.raw.toNat]? with
  | none => rfl
  | some cell => cases cell <;> rfl

theorem forget_insert (s : Slots α) (value : α) :
    s.forget.insert () = ((s.insert value).1, (s.insert value).2.forget) := by
  have hempty : ∀ cells : List (Option α),
      firstEmpty (cells.map (Option.map fun _ => ())) = firstEmpty cells := by
    intro cells
    induction cells with
    | nil => rfl
    | cons c rest ih => cases c <;> simp [firstEmpty, ih]
  have hfill : ∀ cells : List (Option α),
      fill () (cells.map (Option.map fun _ => ())) =
        (fill value cells).map (Option.map fun _ => ()) := by
    intro cells
    induction cells with
    | nil => rfl
    | cons c rest ih => cases c <;> simp [fill, ih]
  simp only [insert, forget, hempty, hfill]

theorem forget_erase (s : Slots α) (h : Handle) : s.forget.erase h = (s.erase h).forget := by
  simp [forget, erase, List.map_set]

theorem getElem?_of_get? {s : Slots α} {h : Handle} {value : α} (hget : s.get? h = some value) :
    s.cells[h.raw.toNat]? = some (some value) :=
  Option.join_eq_some_iff.mp hget

theorem get?_set {s : Slots α} {h : Handle} {old : α} (hget : s.get? h = some old) (value : α)
    (k : Handle) : (s.set h value).get? k = if k = h then some value else s.get? k := by
  obtain ⟨hlt, -⟩ := List.getElem?_eq_some_iff.mp (getElem?_of_get? hget)
  by_cases hk : k = h
  · subst hk
    simp [set, get?, hlt]
  · have hne : h.raw.toNat ≠ k.raw.toNat := fun e =>
      hk (congrArg Handle.mk (UInt32.toNat_inj.mp e.symm))
    rw [if_neg hk]
    simp only [set, get?, List.getElem?_set_ne hne]

/-- An instance that takes the place of another one keeps its handle. -/
theorem forget_set {s : Slots α} {h : Handle} {old : α} (hget : s.get? h = some old) (value : α) :
    (s.set h value).forget = s.forget := by
  obtain ⟨hlt, hold⟩ := List.getElem?_eq_some_iff.mp (getElem?_of_get? hget)
  have hsame : (s.cells.map (Option.map fun _ => ())).set h.raw.toNat (some ()) =
      s.cells.map (Option.map fun _ => ()) := by
    apply List.ext_getElem?
    intro i
    by_cases hi : h.raw.toNat = i
    · subst hi
      simp [hlt, hold]
    · rw [List.getElem?_set_ne hi]
  simpa [set, forget, List.map_set] using hsame

end Slots

/-! ## Sessions with an engine -/

/-- What can be done with an engine: calls on it, and on its arena. -/
inductive EngineUse where
  | call (c : EngineCall)
  | memory (c : ArenaCall)
  | read (offset : UInt32) (length : Nat)
deriving DecidableEq

inductive EngineAnswer where
  | created (result : Except EngineError Handle)
  | destroyed
  | processed (result : Except EngineError Sample)
  | memory (answer : ArenaAnswer)
  | block (result : Except EngineError (List Sample))

theorem Arena.read_ofCapacity {n length start : Nat} {offset : UInt32}
    (h : (ofCapacity n).locate offset length = .ok start) :
    (ofCapacity n).read offset length = .ok (Sample.silence length) := by
  obtain ⟨-, hstop⟩ := locate_eq_ok h
  rw [capacity_ofCapacity] at hstop
  rw [read_of_locate h]
  refine congrArg _ (List.ext_getElem? fun i => ?_)
  rw [ofCapacity, Cells.read_getElem?, Cells.size_ofSize, Cells.get_ofSize, Sample.silence,
    List.getElem?_replicate]
  by_cases hi : i < length
  · rw [if_pos ⟨hi, by omega⟩, if_pos hi]
  · rw [if_neg (fun h => hi h.1), if_neg hi]

namespace Engine

variable {σ : Type} [Engine σ]

/-- The answer to one use of an engine, and the engine after it. -/
def used (s : σ) : EngineUse → EngineAnswer × σ
  | .call .create => (create s).map .created id
  | .call (.destroy h) => (.destroyed, destroy s h)
  | .call (.process h output input) => (processFrame s h output input).map .processed id
  | .memory c => (.memory ((arena s).answer c), withArena s ((arena s).after c))
  | .read offset length => (.block ((arena s).read offset length), s)

/-- The answers to a session of uses in their order, and the engine after it. -/
def session (s : σ) : List EngineUse → List EngineAnswer × σ
  | [] => ([], s)
  | u :: rest => (session (used s u).2 rest).map ((used s u).1 :: ·) id

end Engine

namespace SuppressorEngine

open Engine

variable {δ : Type} [Denoiser δ]

/-- The denoiser has heard nothing but silence. -/
inductive Unstirred : δ → Prop
  | fresh : Unstirred Denoiser.fresh
  | silence {state : δ} (h : Unstirred state) :
      Unstirred (Denoiser.denoise state (Sample.silence 480)).2

/-- A frame that is processed is silent. -/
def FedSilence (s : SuppressorEngine δ) : EngineUse → Prop
  | .call (.process h output input) => ∀ vad, (s.processFrame h output input).1 = .ok vad →
      s.arena.read input 480 = .ok (Sample.silence 480)
  | _ => True

/-- All frames that are processed in a session are silent. -/
def OnlySilence (s : SuppressorEngine δ) : List EngineUse → Prop
  | [] => True
  | u :: rest => s.FedSilence u ∧ OnlySilence (used s u).2 rest

/-- The engines differ in nothing that can be seen, and no denoiser has heard anything. -/
structure Alike (s : SuppressorEngine δ) (e : IdentityEngine) : Prop where
  frameSize_eq : e.frameSize = 480
  arena_eq : e.arena = s.arena
  instances_eq : e.instances = s.instances.forget
  unstirred : ∀ h state, s.instances.get? h = some state → Unstirred state

theorem alike_new : Alike (new : SuppressorEngine δ) (.ofFrameSize 480) where
  frameSize_eq := rfl
  arena_eq := rfl
  instances_eq := rfl
  unstirred := nofun

theorem map_toPcm_silence (n : Nat) : (Sample.silence n).map toPcm = Sample.silence n := by
  have h : toPcm .zero = .zero := by decide
  rw [Sample.silence, List.map_replicate, h]

theorem map_ofPcm_silence (n : Nat) : (Sample.silence n).map ofPcm = Sample.silence n := by
  have h : ofPcm .zero = .zero := by decide
  rw [Sample.silence, List.map_replicate, h]

theorem voiceActivity_silence (n : Nat) :
    IdentityEngine.voiceActivity (Sample.silence n) = .zero := by
  simp [IdentityEngine.voiceActivity, Sample.silence]

/-- The denoiser lets silence through, and finds no speech in it. -/
def PassesSilence (δ : Type) [Denoiser δ] : Prop :=
  ∀ state : δ, Unstirred state →
    (Denoiser.denoise state (Sample.silence 480)).1 = (Sample.silence 480, .zero)

namespace Alike

variable {s : SuppressorEngine δ} {e : IdentityEngine}

/-- A frame that is silent goes through both engines unchanged. -/
theorem process (hs : Alike s e) (hpass : PassesSilence δ) {h : Handle} {output input : UInt32}
    (hfed : s.FedSilence (.call (.process h output input))) :
    (s.processFrame h output input).1 = (e.processFrame h output input).1 ∧
      Alike (s.processFrame h output input).2 (e.processFrame h output input).2 := by
  obtain ⟨frameSize, arena, instances⟩ := e
  obtain ⟨rfl, rfl, rfl, hunstirred⟩ := hs
  simp only [FedSilence, processFrame, IdentityEngine.processFrame, Slots.get?_forget,
    show SuppressorEngine.frameSize.toNat = 480 from rfl, show (480 : UInt64).toNat = 480 from rfl]
    at hfed ⊢
  cases hget : s.instances.get? h with
  | none => exact ⟨rfl, rfl, rfl, rfl, hunstirred⟩
  | some state =>
    simp only [hget, Option.map_some] at hfed ⊢
    cases hpair : s.arena.pair output input 480 with
    | error fault => exact ⟨rfl, rfl, rfl, rfl, hunstirred⟩
    | ok runs =>
      simp only [hpair] at hfed ⊢
      have hread : runs.inputBlock s.arena = Sample.silence 480 := by
        obtain ⟨-, hinput, hlength, -⟩ := Arena.pair_eq_ok hpair
        have hblock := Arena.read_of_locate hinput
        rw [hfed _ rfl] at hblock
        rw [Arena.RunPair.inputBlock, hlength]
        exact (Except.ok.inj hblock).symm
      have hstate : Unstirred state := hunstirred h state hget
      have hlater := hstate.silence
      have hdenoise := hpass state hstate
      rw [hread, map_toPcm_silence]
      generalize Denoiser.denoise state (Sample.silence 480) = result at hlater hdenoise ⊢
      obtain ⟨⟨frame, vad⟩, state'⟩ := result
      obtain ⟨rfl, rfl⟩ := Prod.mk.inj hdenoise
      dsimp only
      rw [voiceActivity_silence, map_ofPcm_silence]
      refine ⟨rfl, rfl, rfl, (Slots.forget_set hget _).symm, ?_⟩
      intro k later hk
      rw [Slots.get?_set hget] at hk
      split_ifs at hk
      · cases hk
        exact hlater
      · exact hunstirred k later hk

theorem create (hs : Alike s e) :
    (Engine.create s).1 = (Engine.create e).1 ∧
      Alike (Engine.create s).2 (Engine.create e).2 := by
  obtain ⟨frameSize, arena, instances⟩ := e
  obtain ⟨rfl, rfl, rfl, hunstirred⟩ := hs
  have hinsert := s.instances.forget_insert Denoiser.fresh
  refine ⟨congrArg (fun p => Except.ok p.1) hinsert.symm, rfl, rfl, congrArg Prod.snd hinsert, ?_⟩
  intro h state hget
  replace hget : (s.instances.insert Denoiser.fresh).2.get? h = some state := hget
  rw [Slots.get?_insert] at hget
  split_ifs at hget
  · cases hget
    exact .fresh
  · exact hunstirred h state hget

theorem destroy (hs : Alike s e) (h : Handle) :
    Alike (Engine.destroy s h) (Engine.destroy e h) := by
  obtain ⟨frameSize, arena, instances⟩ := e
  obtain ⟨rfl, rfl, rfl, hunstirred⟩ := hs
  refine ⟨rfl, rfl, s.instances.forget_erase h, ?_⟩
  intro k state hget
  replace hget : (s.instances.erase h).get? k = some state := hget
  rw [Slots.get?_erase] at hget
  split_ifs at hget
  exact hunstirred k state hget

theorem withArena (hs : Alike s e) (a : Arena) :
    Alike (Engine.withArena s a) (Engine.withArena e a) :=
  ⟨hs.frameSize_eq, rfl, hs.instances_eq, hs.unstirred⟩

theorem used (hs : Alike s e) (hpass : PassesSilence δ) {u : EngineUse} (hfed : s.FedSilence u) :
    (Engine.used s u).1 = (Engine.used e u).1 ∧
      Alike (Engine.used s u).2 (Engine.used e u).2 := by
  have harena : Engine.arena e = Engine.arena s := hs.arena_eq
  match u with
  | .call .create =>
    obtain ⟨hanswer, hafter⟩ := hs.create
    exact ⟨congrArg EngineAnswer.created hanswer, hafter⟩
  | .call (.destroy h) => exact ⟨rfl, hs.destroy h⟩
  | .call (.process h output input) =>
    obtain ⟨hanswer, hafter⟩ := hs.process hpass hfed
    exact ⟨congrArg EngineAnswer.processed hanswer, hafter⟩
  | .memory c =>
    rw [Engine.used, Engine.used, harena]
    exact ⟨rfl, hs.withArena _⟩
  | .read offset length =>
    rw [Engine.used, Engine.used, harena]
    exact ⟨rfl, hs⟩

theorem session (hs : Alike s e) (hpass : PassesSilence δ) {uses : List EngineUse}
    (hsilent : s.OnlySilence uses) :
    (Engine.session s uses).1 = (Engine.session e uses).1 ∧
      Alike (Engine.session s uses).2 (Engine.session e uses).2 := by
  induction uses generalizing s e with
  | nil => exact ⟨rfl, hs⟩
  | cons u rest ih =>
    obtain ⟨hfed, hrest⟩ := hsilent
    obtain ⟨hanswer, hused⟩ := hs.used hpass hfed
    obtain ⟨hanswers, hafter⟩ := ih hused hrest
    exact ⟨congrArg₂ List.cons hanswer hanswers, hafter⟩

end Alike

/-- On silence the suppressor and the identity engine give the same answers, and leave the same
words, the same spans in use and the same handles. -/
theorem session_eq_of_silence (hpass : PassesSilence δ) {uses : List EngineUse}
    (hsilent : (new : SuppressorEngine δ).OnlySilence uses) :
    (session (new : SuppressorEngine δ) uses).1 =
        (session (IdentityEngine.ofFrameSize 480) uses).1 ∧
      (session (new : SuppressorEngine δ) uses).2.arena =
        (session (IdentityEngine.ofFrameSize 480) uses).2.arena ∧
      ∀ h, ((session (new : SuppressorEngine δ) uses).2.instances.get? h).isSome =
        ((session (IdentityEngine.ofFrameSize 480) uses).2.instances.get? h).isSome := by
  obtain ⟨hanswers, hafter⟩ := alike_new.session hpass hsilent
  refine ⟨hanswers, hafter.arena_eq.symm, fun h => ?_⟩
  rw [hafter.instances_eq, Slots.get?_forget, Option.isSome_map]

theorem passesSilence_mute : PassesSilence Mute := fun _ _ =>
  congrArg (fun n => (Sample.silence n, Sample.zero)) (Sample.length_silence 480)

/-- The muted suppressor, a frame of its own memory, a handle that names nothing, and a sample that
is written when the frame has been processed. -/
theorem session_eq_of_silence_mute :
    PassesSilence Mute ∧
      (new : SuppressorEngine Mute).OnlySilence [.call .create, .call (.process ⟨0⟩ 0 1920),
        .call (.destroy ⟨7⟩), .memory (.write 1920 1 [.one]), .read 1920 480] ∧
      (session (new : SuppressorEngine Mute) [.call .create, .call (.process ⟨0⟩ 0 1920),
          .call (.destroy ⟨7⟩), .memory (.write 1920 1 [.one]), .read 1920 480]).1 =
        (session (IdentityEngine.ofFrameSize 480) [.call .create, .call (.process ⟨0⟩ 0 1920),
          .call (.destroy ⟨7⟩), .memory (.write 1920 1 [.one]), .read 1920 480]).1 := by
  have hread : (Arena.ofCapacity 1920).read 1920 480 = .ok (Sample.silence 480) :=
    Arena.read_ofCapacity (show (Arena.ofCapacity 1920).locate 1920 480 = .ok 480 by decide)
  have hsilent : (new : SuppressorEngine Mute).OnlySilence [.call .create,
      .call (.process ⟨0⟩ 0 1920), .call (.destroy ⟨7⟩), .memory (.write 1920 1 [.one]),
      .read 1920 480] :=
    ⟨trivial, fun _ _ => hread, trivial, trivial, trivial, trivial⟩
  exact ⟨passesSilence_mute, hsilent, (session_eq_of_silence passesSilence_mute hsilent).1⟩

end SuppressorEngine

end AudioFraming
