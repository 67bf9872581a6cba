import AudioFraming.Proofs.Engine.Double
import AudioFraming.Proofs.Engine.Silence
import Mathlib.Data.Finset.Card
import Mathlib.Data.Fintype.EquivFin
import Mathlib.Order.Bounds.Basic

/-!
# Live handles as a set

Which handles of an identity engine are live is told by a set of numbers that only knows the
calls: a creation adds the least number that is missing, a destruction takes its number away,
and no other call matters (`registered`). The table of instances, whose cells are never given up,
holds an instance at exactly these numbers (`Slots.Registers`).

So after any session the engine serves the handles of the set and no other (`Serves`): it copies
a frame for them if it can borrow the two runs, and else it changes nothing.
-/

namespace AudioFraming

/-- The least number that is not in a set. -/
def leastMissing (live : Finset ℕ) : ℕ := Nat.find (Infinite.exists_notMem_finset live)

theorem isLeast_leastMissing (live : Finset ℕ) :
    IsLeast {n | n ∉ live} (leastMissing live) :=
  Nat.isLeast_find (Infinite.exists_notMem_finset live)

/-- All smaller numbers are in the set, so there are as many of them at most. -/
theorem le_card_of_isLeast {live : Finset ℕ} {n : ℕ} (h : IsLeast {n | n ∉ live} n) :
    n ≤ live.card := by
  have hsub : Finset.range n ⊆ live := by
    intro i hi
    by_contra hmissing
    exact absurd (h.2 hmissing) (Nat.not_le.mpr (Finset.mem_range.mp hi))
  simpa using Finset.card_le_card hsub

namespace EngineUse

/-- The live handles after one more use, by number. -/
def register (live : Finset ℕ) : EngineUse → Finset ℕ
  | .call .create => insert (leastMissing live) live
  | .call (.destroy h) => live.erase h.raw.toNat
  | _ => live

/-- The live handles after a session that starts with none. -/
def registered (uses : List EngineUse) : Finset ℕ := uses.foldl register ∅

end EngineUse

/-! ## Tables -/

namespace Slots

variable {α : Type} {s : Slots α} {live : Finset ℕ}

theorem erase_eq_self {h : Handle} (hget : s.get? h = none) : s.erase h = s := by
  obtain ⟨cells⟩ := s
  simp only [erase, mk.injEq]
  apply List.ext_getElem?
  intro i
  rw [List.getElem?_set]
  split_ifs with hi hlt
  · subst hi
    rw [get?, List.getElem?_eq_getElem hlt] at hget
    rw [List.getElem?_eq_getElem hlt]
    exact congrArg some hget.symm
  · subst hi
    rw [List.getElem?_eq_none (Nat.le_of_not_lt hlt)]
  · rfl

/-- The cells with these numbers hold an instance, and no other. -/
structure Registers (s : Slots α) (live : Finset ℕ) : Prop where
  mem_iff : ∀ i, i ∈ live ↔ s.cells[i]?.join.isSome
  count_eq : s.count = live.card

theorem registers_empty : ({} : Slots α).Registers ∅ where
  mem_iff i := by simp
  count_eq := by simp [count]

namespace Registers

theorem mem_handle_iff (hs : s.Registers live) (h : Handle) :
    h.raw.toNat ∈ live ↔ (s.get? h).isSome := hs.mem_iff _

theorem get?_eq_none (hs : s.Registers live) {h : Handle} (hh : h.raw.toNat ∉ live) :
    s.get? h = none := by
  rwa [hs.mem_handle_iff, Option.not_isSome_iff_eq_none] at hh

theorem isLeast_firstEmpty (hs : s.Registers live) :
    IsLeast {n | n ∉ live} (firstEmpty s.cells) := by
  constructor
  · intro hmem
    have hsome := (hs.mem_iff _).mp hmem
    rw [firstEmpty_getElem?] at hsome
    cases hsome
  · intro n hn
    by_contra hlt
    exact hn ((hs.mem_iff n).mpr (isSome_of_lt_firstEmpty (Nat.lt_of_not_le hlt)))

theorem firstEmpty_eq (hs : s.Registers live) : firstEmpty s.cells = leastMissing live :=
  hs.isLeast_firstEmpty.unique (isLeast_leastMissing live)

/-- As long as there are handles left, the new instance gets the least one. -/
theorem isLeast_insert (hs : s.Registers live) (value : α) (hfew : live.card < 2 ^ 32) :
    IsLeast {n | n ∉ live} (s.insert value).1.raw.toNat := by
  have hle := le_card_of_isLeast hs.isLeast_firstEmpty
  -- The number of the cell fits in a handle.
  rw [toNat_raw_insert, Nat.mod_eq_of_lt (by omega)]
  exact hs.isLeast_firstEmpty

theorem insert (hs : s.Registers live) (value : α) :
    (s.insert value).2.Registers (Insert.insert (leastMissing live) live) where
  mem_iff i := by
    rw [Finset.mem_insert, hs.mem_iff, ← hs.firstEmpty_eq]
    change _ ↔ ((fill value s.cells)[i]?.join).isSome
    rw [fill_getElem?]
    split_ifs with hi <;> simp [hi]
  count_eq := by
    rw [count_insert, hs.count_eq, Finset.card_insert_of_notMem (isLeast_leastMissing live).1]

theorem erase (hs : s.Registers live) (h : Handle) :
    (s.erase h).Registers (live.erase h.raw.toNat) := by
  by_cases hh : h.raw.toNat ∈ live
  · obtain ⟨value, hvalue⟩ := Option.isSome_iff_exists.mp ((hs.mem_handle_iff h).mp hh)
    constructor
    · intro i
      rw [Finset.mem_erase, hs.mem_iff]
      simp only [Slots.erase, List.getElem?_set]
      split_ifs with hi hlt
      · simp [hi]
      · simp [hi]
      · simp [Ne.symm hi]
    · have hcount := count_erase hvalue
      have hcard := Finset.card_erase_add_one hh
      have heq := hs.count_eq
      omega
  · rw [erase_eq_self (hs.get?_eq_none hh), Finset.erase_eq_of_notMem hh]
    exact hs

end Registers

end Slots

/-! ## Frames -/

theorem Cells.mem_read {c : Cells} {start n : ℕ} (h : start + n ≤ c.size) (s : Sample) :
    s ∈ c.read start n ↔ ∃ i < n, c.get (start + i) = s := by
  rw [List.mem_iff_getElem?]
  simp only [read_getElem?]
  constructor
  · rintro ⟨i, hi⟩
    split_ifs at hi with hrun
    exact ⟨i, hrun.1, Option.some.inj hi⟩
  · rintro ⟨i, hi, rfl⟩
    exact ⟨i, if_pos ⟨hi, by omega⟩⟩

namespace IdentityEngine

open AudioFraming.Engine AudioFraming.EngineUse

/-- A frame has been copied, whatever bits its samples are made of, and judged: there is speech
in it if a sample is neither of the two zeros. -/
structure Copies (e : IdentityEngine) (output input : UInt32) (vad : Sample)
    (e' : IdentityEngine) : Prop where
  changes : e.ChangesWithin (output / Span.sampleBytes).toNat e'
  copied : ∀ i < e.frameSize.toNat,
    e'.arena.words.get ((output / Span.sampleBytes).toNat + i) =
      e.arena.words.get ((input / Span.sampleBytes).toNat + i)
  speech : (∃ i < e.frameSize.toNat,
    (e.arena.words.get ((input / Span.sampleBytes).toNat + i)).bits ≠ 0 ∧
      (e.arena.words.get ((input / Span.sampleBytes).toNat + i)).bits ≠ 0x80000000) → vad = .one
  silence : (∀ i < e.frameSize.toNat,
    (e.arena.words.get ((input / Span.sampleBytes).toNat + i)).bits = 0 ∨
      (e.arena.words.get ((input / Span.sampleBytes).toNat + i)).bits = 0x80000000) → vad = .zero

/-- What processing a frame answers and leaves, given the live handles. -/
structure Processes (e : IdentityEngine) (live : Finset ℕ) (h : Handle) (output input : UInt32)
    (result : Except EngineError Sample × IdentityEngine) : Prop where
  succeeds_iff : (∃ vad, result.1 = .ok vad) ↔
    h.raw.toNat ∈ live ∧ ∃ runs, e.arena.pair output input e.frameSize.toNat = .ok runs
  copies : ∀ vad, result.1 = .ok vad → e.Copies output input vad result.2
  keeps : ∀ fault, result.1 = .error fault → result.2 = e
  /-- Whatever the runs are. -/
  refuses : h.raw.toNat ∉ live → result.1 = .error (.invalidHandle h.raw)
  faults : ∀ fault, h.raw.toNat ∈ live →
    e.arena.pair output input e.frameSize.toNat = .error fault → result.1 = .error fault

/-- The engine has these live handles, by number: it counts them, and processes frames for them
and for no other. -/
structure Serves (e : IdentityEngine) (live : Finset ℕ) : Prop where
  count_eq : e.instances.count = live.card
  processes : ∀ h output input,
    e.Processes live h output input (processFrame e h output input)

theorem voiceActivity_eq_one {frame : List Sample} {s : Sample} (hs : s ∈ frame)
    (hsound : s.bits ≠ 0 ∧ s.bits ≠ 0x80000000) : voiceActivity frame = .one := by
  refine if_neg ?_
  intro hall
  have hzero := List.all_eq_true.mp hall s hs
  simp [Sample.isZero, hsound] at hzero

theorem voiceActivity_eq_zero {frame : List Sample}
    (hzero : ∀ s ∈ frame, s.bits = 0 ∨ s.bits = 0x80000000) : voiceActivity frame = .zero := by
  refine if_pos (List.all_eq_true.mpr ?_)
  intro s hs
  simpa [Sample.isZero] using hzero s hs

/-- The runs lie in the arena, so all of the frame is read and all of it is written. -/
theorem copies_store {e : IdentityEngine} {output input : UInt32} {runs : Arena.RunPair}
    (hpair : e.arena.pair output input e.frameSize.toNat = .ok runs) :
    e.Copies output input (voiceActivity (runs.inputBlock e.arena))
      { e with arena := runs.store e.arena (runs.inputBlock e.arena) } := by
  obtain ⟨out, inp, length⟩ := runs
  obtain ⟨hout, hinp, rfl, -⟩ := Arena.pair_eq_ok hpair
  obtain ⟨rfl, hstop⟩ := Arena.locate_eq_ok hout
  obtain ⟨rfl, hstop'⟩ := Arena.locate_eq_ok hinp
  have hmem := Cells.mem_read hstop'
  refine ⟨⟨rfl, rfl, e.arena.changesWithin_write _ _ _⟩, ?_, ?_, ?_⟩
  · intro i hi
    have hsize : (output / Span.sampleBytes).toNat + i < e.arena.words.size :=
      (Nat.add_lt_add_left hi _).trans_le hstop
    have hsize' : (input / Span.sampleBytes).toNat + i < e.arena.words.size :=
      (Nat.add_lt_add_left hi _).trans_le hstop'
    simp only [Arena.RunPair.store, Arena.RunPair.inputBlock, Cells.get_write, Cells.cut_eq_take,
      Nat.add_sub_cancel_left, List.getD_eq_getElem?_getD, List.getElem?_take_of_lt hi,
      Cells.read_getElem?, hi, hsize, hsize', Nat.le_add_right, true_and, if_true,
      Option.getD_some]
  · rintro ⟨i, hi, hsound⟩
    exact voiceActivity_eq_one ((hmem _).mpr ⟨i, hi, rfl⟩) hsound
  · intro hzero
    refine voiceActivity_eq_zero fun s hs => ?_
    obtain ⟨i, hi, rfl⟩ := (hmem s).mp hs
    exact hzero i hi

/-- The handle is looked at first, and the runs only if it is live. -/
theorem processes_of_registers {e : IdentityEngine} {live : Finset ℕ}
    (hs : e.instances.Registers live) (h : Handle) (output input : UInt32) :
    e.Processes live h output input (e.processFrame h output input) := by
  unfold processFrame
  cases hget : e.instances.get? h with
  | none =>
    have hdead : h.raw.toNat ∉ live := by simp [hs.mem_handle_iff, hget]
    exact {
      succeeds_iff := by simp [hdead]
      copies := nofun
      keeps := fun _ _ => rfl
      refuses := fun _ => rfl
      faults := fun _ hlive => absurd hlive hdead }
  | some value =>
    have hlive : h.raw.toNat ∈ live := by simp [hs.mem_handle_iff, hget]
    cases hpair : e.arena.pair output input e.frameSize.toNat with
    | error fault =>
      exact {
        succeeds_iff := by simp [hpair]
        copies := nofun
        keeps := fun _ _ => rfl
        refuses := fun hdead => absurd hlive hdead
        faults := fun _ _ hfault => by rw [← Except.error.inj (hpair.symm.trans hfault)] }
    | ok runs =>
      exact {
        succeeds_iff := by simp [hlive, hpair]
        copies := by
          rintro vad ⟨⟩
          exact copies_store hpair
        keeps := nofun
        refuses := fun hdead => absurd hlive hdead
        faults := fun _ _ hfault => by cases hpair.symm.trans hfault }

theorem serves_of_registers {e : IdentityEngine} {live : Finset ℕ}
    (hs : e.instances.Registers live) : e.Serves live :=
  ⟨hs.count_eq, processes_of_registers hs⟩

/-! ## Sessions -/

theorem instances_processFrame (e : IdentityEngine) (h : Handle) (output input : UInt32) :
    (e.processFrame h output input).2.instances = e.instances :=
  (e.changesWithin_processFrame h output input).instances_eq

theorem registers_used {e : IdentityEngine} {live : Finset ℕ}
    (hs : e.instances.Registers live) (u : EngineUse) :
    (used e u).2.instances.Registers (register live u) := by
  cases u with
  | call c =>
    cases c with
    | create => exact hs.insert ()
    | destroy h => exact hs.erase h
    | process h output input =>
      have hsame : (used e (.call (.process h output input))).2.instances = e.instances :=
        e.instances_processFrame h output input
      rw [hsame]
      exact hs
  | memory c => exact hs
  | read offset length => exact hs

theorem registers_session {e : IdentityEngine} {live : Finset ℕ}
    (hs : e.instances.Registers live) (uses : List EngineUse) :
    (session e uses).2.instances.Registers (uses.foldl register live) := by
  induction uses generalizing e live with
  | nil => exact hs
  | cons u rest ih => exact ih (registers_used hs u)

/-- After any session the engine serves the handles that the calls have left live. A creation
makes the least missing number live, as long as there are handles left, and a destruction makes
its handle not live, or else changes nothing; neither touches the memory. -/
theorem serves_registered (frameSize : UInt64) (arena : Arena) (uses : List EngineUse) :
    let e := (session ({ frameSize := frameSize, arena := arena } : IdentityEngine) uses).2
    let live := registered uses
    e.Serves live ∧
    (live.card < 2 ^ 32 → ∃ h e', create e = (.ok h, e') ∧
      IsLeast {n | n ∉ live} h.raw.toNat ∧ e'.Serves (insert h.raw.toNat live) ∧
      e'.arena = e.arena ∧ e'.frameSize = e.frameSize) ∧
    ∀ h, (destroy e h).Serves (live.erase h.raw.toNat) ∧
      (destroy e h).arena = e.arena ∧ (destroy e h).frameSize = e.frameSize ∧
      (h.raw.toNat ∉ live → destroy e h = e) := by
  intro e live
  have hs : e.instances.Registers live := registers_session Slots.registers_empty uses
  refine ⟨serves_of_registers hs, ?_, ?_⟩
  · intro hfew
    have hleast := hs.isLeast_insert () hfew
    refine ⟨(e.instances.insert ()).1, (create e).2, rfl, hleast, ?_, rfl, rfl⟩
    rw [hleast.unique (isLeast_leastMissing live)]
    exact serves_of_registers (registers_used hs (.call .create))
  · intro h
    refine ⟨serves_of_registers (registers_used hs (.call (.destroy h))), rfl, rfl, ?_⟩
    intro hdead
    have hsame := Slots.erase_eq_self (hs.get?_eq_none hdead)
    change { e with instances := e.instances.erase h } = e
    rw [hsame]

/-- Two instances, the first one destroyed and its number free again, and a frame that holds a
negative zero and a one. A handle that is not live is refused, though the runs are faulty too. -/
theorem serves_registered_of_two :
    let uses : List EngineUse := [.call .create, .call .create, .call (.destroy ⟨0⟩),
      .call (.destroy ⟨9⟩), .memory (.write 8 2 [⟨0x80000000⟩, .one])]
    let e := (session ({ frameSize := 2, arena := .ofCapacity 4 } : IdentityEngine) uses).2
    registered uses = {1} ∧ (registered uses).card < 2 ^ 32 ∧
      (∃ e', create e = (.ok ⟨0⟩, e') ∧ e'.Serves {0, 1}) ∧
      (destroy e ⟨1⟩).Serves ∅ ∧ (0 ∉ registered uses ∧ destroy e ⟨0⟩ = e) ∧
      (e.processFrame ⟨1⟩ 0 8).1 = .ok .one ∧ e.Copies 0 8 .one (e.processFrame ⟨1⟩ 0 8).2 ∧
      e.arena.pair 1 1 2 = .error (.invalidRegion 1 2) ∧
      (e.processFrame ⟨0⟩ 1 1).1 = .error (.invalidHandle 0) := by
  intro uses e
  have hempty : leastMissing ∅ = 0 := (Nat.find_eq_iff _).mpr (by decide)
  have hzero : leastMissing {0} = 1 := (Nat.find_eq_iff _).mpr (by decide)
  have hlive : registered uses = {1} := by
    simp only [registered, uses, List.foldl, register, hempty, insert_empty_eq, hzero]
    decide
  obtain ⟨hserves, hcreate, hdestroy⟩ := serves_registered 2 (.ofCapacity 4) uses
  rw [hlive] at hserves hcreate hdestroy ⊢
  have hone : (e.processFrame ⟨1⟩ 0 8).1 = .ok .one := by decide
  refine ⟨rfl, by decide, ?_, (hdestroy ⟨1⟩).1, ⟨by decide, (hdestroy ⟨0⟩).2.2.2 (by decide)⟩, hone,
    (hserves.processes ⟨1⟩ 0 8).copies _ hone, by decide,
    (hserves.processes ⟨0⟩ 1 1).refuses (by decide)⟩
  obtain ⟨h, e', hnew, -, hserves', -⟩ := hcreate (by decide)
  obtain rfl : ⟨0⟩ = h := Except.ok.inj (congrArg Prod.fst hnew)
  exact ⟨e', hnew, hserves'⟩

end IdentityEngine

end AudioFraming
