import AudioFraming.Proofs.Callback.Blocks
import Mathlib.Algebra.Order.Floor.Div
import Mathlib.Data.ENat.Lattice

/-!
# What passes between a host and a callback

A callback can be watched: the calls made of it are written down, each with its input, the buffer
as the callback found it, and what the callback answered (`Watched`). Watching changes nothing, so
what is written down during a rendering are the calls that the rendering makes.

Beside the rendering stands a host that never stops (`before`, `exchange`): it hands over one block
after another, whatever it is answered, and always the buffer of the call before. A rendering makes
the first calls of such a host, up to the end of the signal or the first refusal
(`exists_stopsAt`, `render_exchanges`).
-/

namespace AudioFraming

/-! ## Blocks by number -/

/-- The samples from `index * quantum` on, with silence where the signal has ended. -/
def paddedBlock (quantum : Nat) (signal : List Sample) (index : Nat) : List Sample :=
  (List.range quantum).map fun i => signal.getD (index * quantum + i) .zero

theorem paddedBlock_zero (quantum : Nat) (signal : List Sample) :
    paddedBlock quantum signal 0 =
      signal.take quantum ++ Sample.silence (quantum - (signal.take quantum).length) := by
  apply List.ext_getElem
  · simp [paddedBlock]
  · intro i hi _
    have hlt : i < quantum := by simpa [paddedBlock] using hi
    by_cases h : i < signal.length
    · simp [paddedBlock, hlt, h]
    · simp [paddedBlock, List.getElem_append, hlt, h, Sample.silence]

theorem paddedBlock_succ (quantum : Nat) (signal : List Sample) (index : Nat) :
    paddedBlock quantum signal (index + 1) = paddedBlock quantum (signal.drop quantum) index := by
  refine List.map_congr_left fun i _ => ?_
  have hplace : (index + 1) * quantum + i = quantum + (index * quantum + i) := by ring
  simp [List.getD_eq_getElem?_getD, hplace]

theorem blocks_eq_map (quantum : Nat) (signal : List Sample) :
    blocks quantum signal =
      (List.range (signal.length ⌈/⌉ quantum)).map (paddedBlock quantum signal) := by
  rcases Nat.eq_zero_or_pos quantum with rfl | hpos
  · rw [blocks, if_pos (Or.inl rfl), ceilDiv_zero]
    rfl
  rw [Nat.ceilDiv_eq_add_pred_div, ← length_blocks hpos]
  induction signal using blocks.induct quantum with
  | case1 signal hend =>
    rw [blocks, if_pos hend]
    rfl
  | case2 signal hgo ih =>
    rw [blocks, if_neg hgo, List.length_cons, List.range_succ_eq_map, List.map_cons, ih,
      paddedBlock_zero, List.map_map, List.length_map, List.length_range]
    refine congrArg _ (List.map_congr_left fun i _ => ?_)
    exact (paddedBlock_succ quantum signal i).symm

namespace AudioCallback

variable {γ : Type} [AudioCallback γ]

/-! ## Watching -/

/-- One call: what the host hands over, and what it gets. -/
structure Exchange where
  input : List Sample
  buffer : List Sample
  delivery : Delivery
deriving DecidableEq, Inhabited

/-- A callback and the calls made of it, the latest last. -/
structure Watched (γ : Type) where
  callback : γ
  calls : List Exchange := []

instance : AudioCallback (Watched γ) where
  call w input buffer :=
    let (delivery, c) := call w.callback input buffer
    (delivery, ⟨c, w.calls ++ [⟨input, buffer, delivery⟩]⟩)
  length_call w input buffer := length_call w.callback input buffer

theorem call_watched (w : Watched γ) (input buffer : List Sample) :
    call w input buffer =
      let (delivery, c) := call w.callback input buffer
      (delivery, ⟨c, w.calls ++ [⟨input, buffer, delivery⟩]⟩) := rfl

/-- Watching a callback changes nothing. -/
theorem renderBlocks_watched (inputs : List (List Sample)) (buffer : List Sample)
    (w : Watched γ) :
    renderBlocks inputs buffer w.callback =
      let r := renderBlocks inputs buffer w
      (r.1, r.2.callback) := by
  induction inputs generalizing buffer w with
  | nil => rfl
  | cons input rest ih =>
    simp only [renderBlocks, call_watched]
    split_ifs
    · rw [ih _ ⟨_, _⟩]
    · rfl

/-! ## A host that never stops -/

section host

variable (c : γ) (buffer : List Sample) (inputs : Nat → List Sample)

/-- The callback and the buffer before a call, numbered from 0, if the host goes on whatever it is
answered: the buffer is as the call before has left it. -/
def before : Nat → γ × List Sample
  | 0 => (c, buffer)
  | k + 1 =>
    let (c, buffer) := before k
    let (delivery, c) := call c (inputs k) buffer
    (c, delivery.block)

def exchange (k : Nat) : Exchange :=
  let (c, buffer) := before c buffer inputs k
  ⟨inputs k, buffer, (call c (inputs k) buffer).1⟩

/-- Whether the callback asks for more after a call. -/
def goesOn (k : Nat) : Bool := (exchange c buffer inputs k).delivery.keepGoing

/-- The number, from 1, of the first call after which the callback asks for no more; unbounded if
there is none. -/
noncomputable def firstRefusal : ℕ∞ :=
  ⨅ (k : Nat) (_ : goesOn c buffer inputs k = false), ((k + 1 : Nat) : ℕ∞)

theorem length_before (k : Nat) : (before c buffer inputs k).2.length = buffer.length := by
  induction k with
  | zero => rfl
  | succ k ih => exact (length_call _ _ _).trans ih

theorem length_exchange (k : Nat) :
    (exchange c buffer inputs k).delivery.block.length = buffer.length :=
  (length_call _ _ _).trans (length_before c buffer inputs k)

variable {c buffer inputs} {delivery : Delivery} {c' : γ}

/-- After its first call, a host goes on like one that starts with the second block. -/
theorem before_succ (h : call c (inputs 0) buffer = (delivery, c')) (k : Nat) :
    before c buffer inputs (k + 1) = before c' delivery.block (fun i => inputs (i + 1)) k := by
  induction k with
  | zero => simp [before, h]
  | succ k ih => rw [before, ih, before]

theorem exchange_succ (h : call c (inputs 0) buffer = (delivery, c')) (k : Nat) :
    exchange c buffer inputs (k + 1) =
      exchange c' delivery.block (fun i => inputs (i + 1)) k := by
  rw [exchange, before_succ h, exchange]

theorem goesOn_succ (h : call c (inputs 0) buffer = (delivery, c')) (k : Nat) :
    goesOn c buffer inputs (k + 1) = goesOn c' delivery.block (fun i => inputs (i + 1)) k := by
  rw [goesOn, exchange_succ h, goesOn]

theorem exchange_zero (h : call c (inputs 0) buffer = (delivery, c')) :
    exchange c buffer inputs 0 = ⟨inputs 0, buffer, delivery⟩ := by
  simp [exchange, before, h]

end host

/-! ## Where a rendering stops -/

/-- Of `n` calls that could be made `k` are: all of them, or those up to a refusal. -/
structure StopsAt (goes : Nat → Bool) (n k : Nat) : Prop where
  le : k ≤ n
  goes_on : ∀ i, i + 1 < k → goes i = true
  refused : k < n → ∃ i, k = i + 1 ∧ goes i = false

namespace StopsAt

variable {goes : Nat → Bool} {n k : Nat}

theorem eq_min (h : StopsAt goes n k) :
    (k : ℕ∞) = min (n : ℕ∞) (⨅ (i : Nat) (_ : goes i = false), ((i + 1 : Nat) : ℕ∞)) := by
  apply le_antisymm
  · refine le_min (Nat.cast_le.mpr h.le) (le_iInf₂ fun i hi => Nat.cast_le.mpr ?_)
    by_contra hlt
    have hgoes := h.goes_on i (by omega)
    rw [hi] at hgoes
    cases hgoes
  · rcases h.le.lt_or_eq with hlt | rfl
    · obtain ⟨i, rfl, hi⟩ := h.refused hlt
      exact (min_le_right _ _).trans (iInf₂_le i hi)
    · exact min_le_left _ _

theorem of_refusal (h : goes 0 = false) : StopsAt goes (n + 1) 1 where
  le := Nat.le_add_left 1 n
  goes_on := nofun
  refused _ := ⟨0, rfl, h⟩

theorem succ (hgoes : goes 0 = true) (h : StopsAt (fun i => goes (i + 1)) n k) :
    StopsAt goes (n + 1) (k + 1) where
  le := Nat.succ_le_succ h.le
  goes_on i hi := by
    cases i with
    | zero => exact hgoes
    | succ i => exact h.goes_on i (by omega)
  refused hlt := by
    obtain ⟨i, rfl, hi⟩ := h.refused (by omega)
    exact ⟨i + 1, rfl, hi⟩

end StopsAt

/-- A rendering makes the first calls of a host that never stops, and collects what they leave in
the buffer. -/
theorem exists_stopsAt (n : Nat) (inputs : Nat → List Sample) (buffer : List Sample)
    (w : Watched γ) :
    ∃ k, StopsAt (goesOn w.callback buffer inputs) n k ∧
      renderBlocks ((List.range n).map inputs) buffer w =
        let calls := (List.range k).map (exchange w.callback buffer inputs)
        (calls.flatMap fun e => e.delivery.block,
          ⟨(before w.callback buffer inputs k).1, w.calls ++ calls⟩) := by
  induction n generalizing inputs buffer w with
  | zero => exact ⟨0, ⟨le_rfl, nofun, nofun⟩, by simp [renderBlocks, before]⟩
  | succ n ih =>
    rcases hcall : call w.callback (inputs 0) buffer with ⟨delivery, c⟩
    have hfirst := exchange_zero hcall
    rw [List.range_succ_eq_map, List.map_cons, List.map_map, renderBlocks, call_watched, hcall]
    dsimp only
    cases hgo : delivery.keepGoing with
    | false =>
      refine ⟨1, .of_refusal ?_, ?_⟩
      · rw [goesOn, hfirst, hgo]
      · simp [hfirst, before, hcall]
    | true =>
      obtain ⟨k, hk, hrest⟩ := ih (inputs ∘ Nat.succ) delivery.block
        ⟨c, w.calls ++ [⟨inputs 0, buffer, delivery⟩]⟩
      refine ⟨k + 1, .succ ?_ ?_, ?_⟩
      · rw [goesOn, hfirst, hgo]
      · rw [funext (goesOn_succ hcall)]
        exact hk
      · have hlater : exchange w.callback buffer inputs ∘ Nat.succ =
            exchange c delivery.block (inputs ∘ Nat.succ) := funext (exchange_succ hcall)
        rw [hrest, List.range_succ_eq_map, List.map_cons, List.map_map, hfirst, hlater,
          before_succ hcall]
        simp [Function.comp_def]

/-- A rendering calls back once for each block, or up to and with the first call after which the
callback asks for no more. Each call gets its own block of the signal, filled up with silence, and
the buffer as the call before has left it, the first one a silent buffer. What is rendered are the
buffers after the calls, one after the other. With blocks of no samples there is no call. -/
theorem render_exchanges (c : γ) (signal : List Sample) (quantum : Nat) :
    let inputs := paddedBlock quantum signal
    let (rendered, watched) := render (⟨c, []⟩ : Watched γ) signal quantum
    let calls := watched.calls
    render c signal quantum = (rendered, watched.callback) ∧
      (calls.length : ℕ∞) =
        min ↑(signal.length ⌈/⌉ quantum) (firstRefusal c (Sample.silence quantum) inputs) ∧
      calls = (List.range calls.length).map (exchange c (Sample.silence quantum) inputs) ∧
      watched.callback = (before c (Sample.silence quantum) inputs calls.length).1 ∧
      rendered = calls.flatMap (fun e => e.delivery.block) ∧
      rendered.length = quantum * calls.length ∧
      render (⟨c, []⟩ : Watched γ) signal 0 = ([], ⟨c, []⟩) := by
  intro inputs
  obtain ⟨k, hk, hrender⟩ := exists_stopsAt (signal.length ⌈/⌉ quantum) inputs
    (Sample.silence quantum) (⟨c, []⟩ : Watched γ)
  have hplain := renderBlocks_watched (blocks quantum signal) (Sample.silence quantum)
    (⟨c, []⟩ : Watched γ)
  rw [← blocks_eq_map] at hrender
  rw [hrender] at hplain
  have hcount : ((List.range k).map (exchange c (Sample.silence quantum) inputs)).length = k := by
    rw [List.length_map, List.length_range]
  have hlength : ((List.range k).map (exchange c (Sample.silence quantum) inputs)).map
      (fun e => e.delivery.block.length) = List.replicate k quantum := by
    refine List.eq_replicate_iff.mpr ⟨by rw [List.length_map, hcount], fun n hn => ?_⟩
    simp only [List.mem_map] at hn
    obtain ⟨_, ⟨i, -, rfl⟩, rfl⟩ := hn
    exact (length_exchange c _ inputs i).trans (Sample.length_silence quantum)
  rw [render, hrender]
  dsimp only [List.nil_append]
  rw [hcount]
  refine ⟨hplain, hk.eq_min, rfl, rfl, rfl, ?_, ?_⟩
  · rw [List.length_flatMap, hlength, List.sum_replicate, smul_eq_mul, mul_comm]
  · rw [render, blocks, if_pos (Or.inl rfl)]
    rfl

/-- A callback that leaves the buffer alone renders what the call before has left in it. -/
example : (render (BlockHold.mk 0) [.one, .one, .zero] 2).1 = [.one, .one, .one, .one] := by
  cbv

end AudioCallback

end AudioFraming
