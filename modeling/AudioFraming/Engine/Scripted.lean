import AudioFraming.Engine.Identity

/-!
# Scripted engines

An identity engine that misbehaves on cue: it can refuse to create an instance,
fail at a chosen frame, turn the output upside down, answer given probabilities,
and change the frame size it asks for.
-/

namespace AudioFraming

/-- What a scripted engine does that an identity engine does not. -/
structure Script where
  /-- Makes every creation fail. -/
  createError : Option EngineError := none
  /-- The one call of `processFrame` that fails, counted from zero. -/
  failAt : Option Nat := none
  failError : EngineError := .invalidHandle 99
  /-- Negates the output frame. -/
  negate : Bool := false
  /-- Replaces the answers of the first calls. -/
  vads : List Sample := []
  /-- After so many calls of `processFrame` another frame size is asked for. -/
  resize : Option (Nat × UInt64) := none
deriving Inhabited

structure ScriptedEngine where
  inner : IdentityEngine
  script : Script
  /-- Calls of `processFrame`, failed ones included. -/
  calls : Nat := 0

namespace ScriptedEngine

def frameSize (e : ScriptedEngine) : UInt64 :=
  match e.script.resize with
  | some (calls, size) => if calls ≤ e.calls then size else e.inner.frameSize
  | none => e.inner.frameSize

/-- Negates the frame at a byte offset. -/
def negated (e : IdentityEngine) (output : UInt32) : IdentityEngine :=
  match e.arena.read output e.frameSize.toNat with
  | .error _ => e
  | .ok frame =>
    match e.arena.write output e.frameSize.toNat (frame.map Sample.neg) with
    | .error _ => e
    | .ok arena => { e with arena := arena }

def processFrame (e : ScriptedEngine) (h : Handle) (output input : UInt32) :
    Except EngineError Sample × ScriptedEngine :=
  let counted := { e with calls := e.calls + 1 }
  if e.script.failAt = some e.calls then (.error e.script.failError, counted)
  else
    match e.inner.processFrame h output input with
    | (.error fault, inner) => (.error fault, { counted with inner := inner })
    | (.ok vad, inner) =>
      let inner := if e.script.negate then negated inner output else inner
      (.ok (e.script.vads[e.calls]?.getD vad), { counted with inner := inner })

instance : Engine ScriptedEngine where
  name _ := ""
  frameSize := frameSize
  arena e := e.inner.arena
  withArena e a := { e with inner := { e.inner with arena := a } }
  arena_withArena _ _ := rfl
  withArena_arena _ := rfl
  withArena_withArena _ _ _ := rfl
  create e :=
    match e.script.createError with
    | some fault => (.error fault, e)
    | none =>
      let (result, inner) := Engine.create e.inner
      (result, { e with inner := inner })
  destroy e h := { e with inner := Engine.destroy e.inner h }
  processFrame := processFrame

end ScriptedEngine

end AudioFraming
