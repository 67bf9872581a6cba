import AudioFraming.Sample

/-!
# Host callbacks

A host hands its callback a block of input and a buffer to write, once per
quantum. The buffer comes as the host left it, and the callback may overwrite all
of it, some of it or nothing. `render` stands in for a live host: it drives a
callback over a whole signal with one buffer for all calls.
-/

namespace AudioFraming

/-- What a callback answers: whether the host should go on, and the buffer afterwards. -/
structure Delivery where
  keepGoing : Bool
  block : List Sample
deriving DecidableEq, Inhabited

class AudioCallback (γ : Type) where
  /-- One callback, given the input and the buffer. -/
  call : γ → List Sample → List Sample → Delivery × γ
  length_call : ∀ c input buffer, (call c input buffer).1.block.length = buffer.length

/-- A signal in blocks of equal length, the last one filled up with silence. -/
def blocks (quantum : Nat) (signal : List Sample) : List (List Sample) :=
  if quantum = 0 ∨ signal = [] then []
  else
    let block := signal.take quantum
    (block ++ Sample.silence (quantum - block.length)) :: blocks quantum (signal.drop quantum)
termination_by signal.length
decreasing_by
  rename_i h
  have := List.length_pos_iff.mpr (not_or.mp h).2
  simp only [List.length_drop]
  omega

namespace AudioCallback

variable {γ : Type} [AudioCallback γ]

/-- Calls back for block after block with the same buffer, until the callback asks to stop, and
collects what the buffer holds after each call. -/
def renderBlocks : List (List Sample) → List Sample → γ → List Sample × γ
  | [], _, c => ([], c)
  | input :: rest, buffer, c =>
    let (delivery, c) := call c input buffer
    if delivery.keepGoing then
      let (rendered, c) := renderBlocks rest delivery.block c
      (delivery.block ++ rendered, c)
    else (delivery.block, c)

/-- Everything a callback makes of a signal, and the callback afterwards. -/
def render (c : γ) (signal : List Sample) (quantum : Nat) : List Sample × γ :=
  renderBlocks (blocks quantum signal) (Sample.silence quantum) c

end AudioCallback

/-! ## Two small callbacks -/

/-- Turns every block upside down, and asks to stop at a given call. -/
structure PolarityInverter where
  limit : Nat
  calls : Nat := 0

instance : AudioCallback PolarityInverter where
  call c input buffer :=
    let calls := c.calls + 1
    (⟨calls < c.limit, (input.take buffer.length).map Sample.neg ++ buffer.drop input.length⟩,
      { c with calls := calls })
  length_call c input buffer := by simp; omega

/-- Copies every other block and leaves the buffer alone in between. -/
structure BlockHold where
  calls : Nat := 0

instance : AudioCallback BlockHold where
  call c input buffer :=
    let held :=
      if c.calls % 2 = 0 then input.take buffer.length ++ buffer.drop input.length else buffer
    (⟨true, held⟩, ⟨c.calls + 1⟩)
  length_call c input buffer := by
    dsimp only
    split
    · simp; omega
    · rfl

end AudioFraming
