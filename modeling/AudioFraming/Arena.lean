import AudioFraming.Cells
import AudioFraming.Error

/-!
# Arenas

An arena is the memory that a framer and its engine share: a fixed number of
words, each holding a sample, of which some spans are in use. Engines address it
by byte offset, four bytes to a word, in 32 bits.

Spans are handed out first fit. The spans in use are kept sorted by offset, and
a span is given back by value: whoever names the offset and the length of a span
in use can release it.

Nothing bounds the size of an arena. The number of a word is cut to 32 bits when it
becomes a byte offset, and from word `2 ^ 30` on the product with the size of a sample
no longer fits: the request ends the program. Every difference and every run of words
is checked in the same way.
-/

namespace AudioFraming

/-- A run of words, by byte offset and length in samples. -/
structure Span where
  offset : UInt32
  length : Nat
deriving DecidableEq, Inhabited

namespace Span

/-- Bytes of one sample. -/
def sampleBytes : UInt32 := 4

/-- The first word of the span. -/
def start (s : Span) : Nat := (s.offset / sampleBytes).toNat

/-- The word after the last one. -/
def stop (s : Span) : Nat := s.start + s.length

/-- How many words some spans hold together. -/
def total : List Span → Nat
  | [] => 0
  | s :: rest => s.length + total rest

/-- The span of `length` words from a given word on. The number of the word is cut to 32 bits, and
the product is not. -/
def ofStart (start length : Nat) : Except Abort Span :=
  let index := UInt32.ofNat start
  if index.toNat * sampleBytes.toNat < UInt32.size then .ok ⟨index * sampleBytes, length⟩
  else .error (.overflow "multiply")

end Span

/-- A place between the spans in use: its first word, the spans below and the spans above. -/
structure Gap where
  start : Nat
  below : List Span
  above : List Span

structure Arena where
  words : Cells
  /-- The spans in use. -/
  live : List Span

namespace Arena

/-- An arena of silent words, none in use. -/
def ofCapacity (capacity : Nat) : Arena := ⟨.ofSize capacity, []⟩

def capacity (a : Arena) : Nat := a.words.size

/-- How many words no span in use covers. -/
def free (a : Arena) : Nat := a.capacity - Span.total a.live

/-- How far word `a` lies beyond word `b`. -/
def distance (a b : Nat) : Except Abort Nat :=
  if b ≤ a then .ok (a - b) else .error (.overflow "subtract")

/-- Looks for the first gap of `length` words from word `cursor` on, given the spans in use
beyond it. -/
def firstFit (capacity length cursor : Nat) : List Span → Except Abort (Option Gap)
  | [] => do
    let room ← distance capacity cursor
    return if room < length then none else some ⟨cursor, [], []⟩
  | s :: rest => do
    let room ← distance s.start cursor
    if length ≤ room then return some ⟨cursor, [], s :: rest⟩
    else
      let found ← firstFit capacity length s.stop rest
      return found.map fun gap => { gap with below := s :: gap.below }

/-- Takes the words of a gap from its first one on and silences them. -/
def occupy (a : Arena) (gap : Gap) (length : Nat) : Except Abort (Span × Arena) := do
  let s ← Span.ofStart gap.start length
  let stop := gap.start + length
  if stop ≤ a.capacity then
    return (s, ⟨a.words.silence gap.start length, gap.below ++ s :: gap.above⟩)
  else throw (.outOfRange stop a.capacity)

/-- Takes the first gap of `length` words and silences it. -/
def alloc (a : Arena) (length : Nat) : Except SetupError (Span × Arena) :=
  if length = 0 then .error (.zeroSize "memory region")
  else
    match firstFit a.capacity length 0 a.live with
    | .error cause => .error (.aborted cause)
    | .ok none =>
      match distance a.capacity (Span.total a.live) with
      | .error cause => .error (.aborted cause)
      | .ok free => .error (.outOfMemory length free)
    | .ok (some gap) => (a.occupy gap length).mapError .aborted

/-- Gives back a span that is in use. -/
def dealloc (a : Arena) (s : Span) : Except EngineError Arena :=
  if s ∈ a.live then .ok { a with live := a.live.erase s }
  else .error (.invalidRegion s.offset s.length)

/-- Gives back a span if it is in use. -/
def discard (a : Arena) (s : Span) : Arena :=
  match a.dealloc s with
  | .ok a => a
  | .error _ => a

/-- The first word of a run given by byte offset and length; the run must lie in the arena. -/
def locate (a : Arena) (offset : UInt32) (length : Nat) : Except EngineError Nat :=
  if offset % Span.sampleBytes ≠ 0 then .error (.invalidRegion offset length)
  else
    let start := (offset / Span.sampleBytes).toNat
    if start + length ≤ a.capacity then .ok start else .error (.invalidRegion offset length)

/-- The samples of a run. -/
def read (a : Arena) (offset : UInt32) (length : Nat) : Except EngineError (List Sample) :=
  match a.locate offset length with
  | .ok start => .ok (a.words.read start length)
  | .error e => .error e

/-- Writes a block at the start of a run of `length` words, as much of it as the run holds. -/
def write (a : Arena) (offset : UInt32) (length : Nat) (block : List Sample) :
    Except EngineError Arena :=
  match a.locate offset length with
  | .ok start => .ok { a with words := a.words.write start (Cells.cut block length) }
  | .error e => .error e

/-- Two runs of `length` words without a common word: one to write, one to read. -/
structure RunPair where
  output : Nat
  input : Nat
  length : Nat
deriving DecidableEq, Inhabited

/-- The runs at two byte offsets, if each lies in the arena and they do not meet. An overlap is
reported as a fault of the output run. -/
def pair (a : Arena) (output input : UInt32) (length : Nat) : Except EngineError RunPair :=
  match a.locate output length with
  | .error e => .error e
  | .ok out =>
    match a.locate input length with
    | .error e => .error e
    | .ok inp =>
      if out < inp + length ∧ inp < out + length then .error (.invalidRegion output length)
      else .ok ⟨out, inp, length⟩

namespace RunPair

/-- What the run to read holds. -/
def inputBlock (p : RunPair) (a : Arena) : List Sample := a.words.read p.input p.length

/-- What the run to write holds. -/
def outputBlock (p : RunPair) (a : Arena) : List Sample := a.words.read p.output p.length

/-- The arena with a block written to the run to write, as much of it as the run holds. -/
def store (p : RunPair) (a : Arena) (block : List Sample) : Arena :=
  { a with words := a.words.write p.output (Cells.cut block p.length) }

end RunPair

@[simp] theorem capacity_ofCapacity (n : Nat) : (ofCapacity n).capacity = n := by
  simp [ofCapacity, capacity]

end Arena

end AudioFraming
