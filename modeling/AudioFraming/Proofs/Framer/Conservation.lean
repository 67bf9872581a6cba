import AudioFraming.Proofs.Arena.History
import AudioFraming.Proofs.Framer.Callbacks

/-!
# Where the samples go

A host may call with inputs and buffers of any lengths, as long as no input is longer
than a ring. Over an identity engine, what it hears and what still waits is then what
it sent, in this order, without the samples that the rings have evicted and counted
(`quanta_conserve`). Each callback keeps this balance (`Runs.conserves`), and balances
of successive callbacks add up (`Holdings.Conserves.trans`).
-/

namespace AudioFraming

/-- Whether a callback found too little to deliver. -/
def Outcome.missed {σ : Type} (o : Outcome σ Delivery) : Bool := .underflow .output ∈ o.events

namespace Holdings

/-- What was delivered and what waits now is what waited before and what came in, except for
what has been evicted in between. -/
structure Conserves (h : Holdings) (input delivered : List Sample) (h' : Holdings) : Prop where
  capacity_eq : h'.input.capacity = h.input.capacity
  sublist : (delivered ++ h'.waiting).Sublist (h.waiting ++ input)
  length_eq : delivered.length + h'.waiting.length + h'.evicted =
    h.waiting.length + input.length + h.evicted
  sound : h.input.tally.Sound → h.output.tally.Sound →
    h'.input.tally.Sound ∧ h'.output.tally.Sound

namespace Conserves

variable {h h' h'' : Holdings} {input input' delivered delivered' : List Sample}

theorem refl (h : Holdings) : h.Conserves [] [] h :=
  ⟨rfl, by simp, by simp, fun hin hout => ⟨hin, hout⟩⟩

theorem trans (hc : h.Conserves input delivered h') (hc' : h'.Conserves input' delivered' h'') :
    h.Conserves (input ++ input') (delivered ++ delivered') h'' where
  capacity_eq := hc'.capacity_eq.trans hc.capacity_eq
  sublist := by
    have hlater : (delivered ++ (delivered' ++ h''.waiting)).Sublist
        (delivered ++ (h'.waiting ++ input')) := hc'.sublist.append_left _
    have hearlier : ((delivered ++ h'.waiting) ++ input').Sublist
        ((h.waiting ++ input) ++ input') := hc.sublist.append_right _
    simp only [List.append_assoc] at hlater hearlier ⊢
    exact hlater.trans hearlier
  length_eq := by
    have hlater := hc'.length_eq
    have hearlier := hc.length_eq
    simp only [List.length_append]
    omega
  sound hin hout := by
    obtain ⟨hin', hout'⟩ := hc.sound hin hout
    exact hc'.sound hin' hout'

end Conserves

end Holdings

namespace Framer

section quanta

variable {σ : Type}

/-- What the host hears: the buffers filled after the warm-up, except those that were filled up
with silence for want of samples. -/
def heard (warmup : Nat) (outcomes : List (Outcome σ Delivery)) : List Sample :=
  ((outcomes.drop warmup).filter fun o => !o.missed).flatMap fun o => o.answer.block

theorem heard_cons (warmup : Nat) (o : Outcome σ Delivery) (rest : List (Outcome σ Delivery)) :
    heard warmup (o :: rest) = heard warmup [o] ++ heard (warmup - 1) rest := by
  cases warmup with
  | zero =>
    cases hm : o.missed <;> simp [heard, hm]
  | succ warmup => simp [heard]

variable [Engine σ]

/-- One callback after the other, each with its input and its buffer. -/
def quanta (f : Framer σ) :
    List (List Sample × List Sample) → List (Outcome σ Delivery) × Framer σ
  | [] => ([], f)
  | (input, buffer) :: rest =>
    let outcome := f.quantum input buffer
    let (outcomes, last) := outcome.framer.quanta rest
    (outcome :: outcomes, last)

theorem quanta_cons (f : Framer σ) (input buffer : List Sample)
    (rest : List (List Sample × List Sample)) :
    f.quanta ((input, buffer) :: rest) =
      (f.quantum input buffer :: ((f.quantum input buffer).framer.quanta rest).1,
        ((f.quantum input buffer).framer.quanta rest).2) := rfl

@[simp] theorem length_quanta (f : Framer σ) (calls : List (List Sample × List Sample)) :
    (f.quanta calls).1.length = calls.length := by
  induction calls generalizing f with
  | nil => rfl
  | cons c rest ih => rw [quanta_cons, List.length_cons, ih, List.length_cons]

end quanta

variable {before : IdentityEngine} {h : Holdings} {f : Framer IdentityEngine}

/-- Taking samples off the front of the output ring keeps the balance of an advance. -/
theorem conserves_advance {frame : Nat} {input delivered : List Sample}
    {p : Progress IdentityEngine} {ring : SampleRing}
    (hadv : (f.progress h).Advances frame input p)
    (hlist : delivered ++ ring.toList = p.output.toList)
    (hevicted : ring.tally.evicted = p.output.tally.evicted)
    (hoverflows : ring.tally.overflows = p.output.tally.overflows) :
    h.Conserves input delivered ⟨p.input, ring, h.lease⟩ := by
  have hwaiting : delivered ++ (ring.toList ++ p.input.toList) = p.waiting := by
    rw [← List.append_assoc, hlist]
    rfl
  refine ⟨hadv.input_capacity, ?_, ?_, ?_⟩
  · exact hwaiting ▸ hadv.sublist
  · have hlen := hadv.length_eq
    have hsum := congrArg List.length hwaiting
    rw [List.length_append] at hsum
    change delivered.length + (ring.toList ++ p.input.toList).length +
      (p.input.tally.evicted + ring.tally.evicted) = _
    rw [hsum, hevicted]
    exact hlen
  · intro hin hout
    obtain ⟨hin', hout'⟩ := hadv.sound hin hout
    refine ⟨hin', ?_⟩
    intro h0
    exact hevicted.trans (hout' (hoverflows.symm.trans h0))

/-- A callback keeps the balance. Without samples to deliver it is silent. -/
theorem Runs.conserves (hf : Runs before h f) {input : List Sample} (buffer : List Sample)
    (hfit : input.length ≤ h.input.capacity) :
    ∃ h', Runs before h' (f.quantum input buffer).framer ∧
      (f.quantum input buffer).framer.warmupLeft = f.warmupLeft - 1 ∧
      h.Conserves input (heard f.warmupLeft [f.quantum input buffer]) h' ∧
      h'.output.tally.underflows = h.output.tally.underflows +
        (if (f.quantum input buffer).missed then 1 else 0) ∧
      (0 < f.warmupLeft ∨ (f.quantum input buffer).missed →
        (f.quantum input buffer).answer.block = Sample.silence buffer.length) := by
  obtain ⟨p, ring, hadv, hhands, hruns, hleft, -⟩ := hf.quantum buffer hfit
  have hquiet : .underflow .output ∉ p.events := by
    intro he
    rcases hadv.events _ he with he | he | ⟨side, n, he⟩ <;> cases he
  generalize f.quantum input buffer = o at *
  refine ⟨_, hruns, hleft, ?_⟩
  cases hhands with
  | warmup hpos hring hblock hevents =>
    have hmissed : o.missed = false := by simp [Outcome.missed, hevents, hquiet]
    have hheard : heard f.warmupLeft [o] = [] := by
      rw [heard, List.drop_eq_nil_of_le hpos]
      rfl
    subst hring
    refine ⟨?_, ?_, fun _ => hblock⟩
    · rw [hheard]
      exact conserves_advance hadv rfl rfl rfl
    · have hunderflows := hadv.underflows_eq
      simp [hmissed, hunderflows, progress]
  | missed hzero hlt hcapacity hlist htally hblock hevents =>
    have hmissed : o.missed = true := by simp [Outcome.missed, hevents]
    have hheard : heard f.warmupLeft [o] = [] := by simp [heard, hzero, hmissed]
    refine ⟨?_, ?_, fun _ => hblock⟩
    · rw [hheard]
      exact conserves_advance hadv hlist (by rw [htally]) (by rw [htally])
    · have hunderflows := hadv.underflows_eq
      simp [hmissed, htally, hunderflows, progress]
  | filled hzero hle hcapacity hlist htally hblock hevents =>
    have hmissed : o.missed = false := by simp [Outcome.missed, hevents, hquiet]
    have hheard : heard f.warmupLeft [o] = p.output.toList.take buffer.length := by
      simp [heard, hzero, hmissed, hblock]
    refine ⟨?_, ?_, ?_⟩
    · rw [hheard]
      refine conserves_advance hadv ?_ (by rw [htally]) (by rw [htally])
      rw [hlist, List.take_append_drop]
    · have hunderflows := hadv.underflows_eq
      simp [hmissed, htally, hunderflows, progress]
    · rintro (hpos | hm)
      · exact absurd hzero (Nat.ne_of_gt hpos)
      · rw [hmissed] at hm
        cases hm

/-- The balance after any number of callbacks. -/
theorem conserves_quanta :
    ∀ (calls : List (List Sample × List Sample)) (h : Holdings) (f : Framer IdentityEngine),
      Runs before h f → (∀ c ∈ calls, c.1.length ≤ h.input.capacity) →
        ∃ h', Runs before h' (f.quanta calls).2 ∧
          h.Conserves (calls.flatMap Prod.fst) (heard f.warmupLeft (f.quanta calls).1) h' ∧
          h'.output.tally.underflows = h.output.tally.underflows +
            (f.quanta calls).1.countP Outcome.missed ∧
          ∀ i c o, calls[i]? = some c → (f.quanta calls).1[i]? = some o →
            i < f.warmupLeft ∨ o.missed → o.answer.block = Sample.silence c.2.length := by
  intro calls
  induction calls with
  | nil =>
    intro h f hf hfit
    refine ⟨h, hf, ?_, rfl, ?_⟩
    · simpa [quanta, heard] using Holdings.Conserves.refl h
    · intro i c o hc
      cases hc
  | cons call rest ih =>
    intro h f hf hfit
    obtain ⟨input, buffer⟩ := call
    have hfirst : input.length ≤ h.input.capacity := hfit _ (List.mem_cons_self ..)
    obtain ⟨h', hruns, hleft, hone, hmissed, hsilent⟩ := hf.conserves buffer hfirst
    have hrest : ∀ c ∈ rest, c.1.length ≤ h'.input.capacity := by
      intro c hc
      rw [hone.capacity_eq]
      exact hfit c (List.mem_cons_of_mem _ hc)
    obtain ⟨h'', hruns', hall, hmissed', hsilent'⟩ := ih h' _ hruns hrest
    rw [hleft] at hall hsilent'
    rw [quanta_cons]
    refine ⟨h'', hruns', ?_, ?_, ?_⟩
    · rw [List.flatMap_cons, heard_cons]
      exact hone.trans hall
    · rw [hmissed', hmissed, List.countP_cons]
      omega
    · intro i c o hc ho hi
      cases i with
      | zero =>
        obtain rfl := Option.some.inj hc
        obtain rfl := Option.some.inj ho
        exact hsilent hi
      | succ i =>
        refine hsilent' i c o hc ho ?_
        rcases hi with hi | hi
        · exact Or.inl (by omega)
        · exact Or.inr hi

/-- Nothing is heard twice, out of order, or lost without being counted. -/
theorem quanta_conserve {n : Nat} (hn : n ≤ 2 ^ 30) (history : List ArenaCall)
    {engine : IdentityEngine} (harena : engine.arena = (Arena.ofCapacity n).replay history)
    {sizing : Sizing} (hstart : (started sizing engine).result = .ok ())
    (calls : List (List Sample × List Sample))
    (hfit : ∀ c ∈ calls, c.1.length ≤ sizing.ringCapacity.toNat) :
    let warmup := sizing.warmupQuanta.toNat
    let run := (started sizing engine).framer.quanta calls
    ∃ h, run.2.holdings = some h ∧ run.2.phase = .running ∧
      let accounted := heard warmup run.1 ++ h.output.toList ++ h.input.toList
      let sent := calls.flatMap Prod.fst
      accounted.Sublist sent ∧
      accounted.length + (h.input.tally.evicted + h.output.tally.evicted) = sent.length ∧
      (h.input.tally.overflows = 0 → h.output.tally.overflows = 0 → accounted = sent) ∧
      h.output.tally.underflows = run.1.countP Outcome.missed ∧
      ∀ i c o, calls[i]? = some c → run.1[i]? = some o → i < warmup ∨ o.missed →
        o.answer.block = Sample.silence c.2.length := by
  have htidy : engine.arena.Tidy := harena ▸ Arena.tidy_replay hn history
  obtain ⟨lease, hpos, hruns, -, hleft, -⟩ := runs_started htidy hstart
  have hroom : ∀ c ∈ calls, c.1.length ≤
      (SampleRing.ofCapacity sizing.ringCapacity.toNat hpos).capacity := by
    intro c hc
    rw [SampleRing.capacity_ofCapacity]
    exact hfit c hc
  obtain ⟨h, hlast, hconserves, hmissed, hsilent⟩ := conserves_quanta calls _ _ hruns hroom
  rw [hleft] at hconserves hsilent
  have hsub := hconserves.sublist
  have hlen := hconserves.length_eq
  obtain ⟨hin, hout⟩ := hconserves.sound (fun _ => rfl) (fun _ => rfl)
  -- Nothing waits in new rings.
  simp only [Holdings.waiting, SampleRing.toList_ofCapacity, List.nil_append,
    ← List.append_assoc] at hsub
  have hcount : (heard sizing.warmupQuanta.toNat ((started sizing engine).framer.quanta calls).1 ++
      h.output.toList ++ h.input.toList).length +
      (h.input.tally.evicted + h.output.tally.evicted) = (calls.flatMap Prod.fst).length := by
    simpa [Holdings.waiting, Holdings.evicted, SampleRing.ofCapacity, Nat.add_assoc] using hlen
  refine ⟨h, hlast.holdings_eq, hlast.phase_eq, hsub, hcount, ?_, ?_, hsilent⟩
  · intro hin0 hout0
    rw [hin hin0, hout hout0] at hcount
    exact hsub.eq_of_length hcount
  · rw [hmissed]
    exact Nat.zero_add _

/-- The second input makes the output ring overflow, and no buffer is as long as its input. -/
theorem quanta_conserve_of_overflow :
    let start := started ⟨48000, 3, 2, 2⟩ (IdentityEngine.ofMemory 2 8)
    let calls := [([.one, .zero, .one, .one], []),
      ([.one, .zero, .one, .one, .one], [.one, .one]), ([], [.one])]
    start.result = .ok () ∧
      ∃ h, (start.framer.quanta calls).2.holdings = some h ∧
        let accounted := heard (Sizing.warmupQuanta ⟨48000, 3, 2, 2⟩).toNat
          (start.framer.quanta calls).1 ++ h.output.toList ++ h.input.toList
        accounted.Sublist (calls.flatMap Prod.fst) ∧
        accounted.length + (h.input.tally.evicted + h.output.tally.evicted) =
          (calls.flatMap Prod.fst).length := by
  have hstart : (started ⟨48000, 3, 2, 2⟩ (IdentityEngine.ofMemory 2 8)).result = .ok () := by
    rfl
  obtain ⟨h, hholdings, -, hsub, hlen, -⟩ :=
    quanta_conserve (n := 8) (by decide) [] rfl hstart
      [([.one, .zero, .one, .one], []), ([.one, .zero, .one, .one, .one], [.one, .one]),
        ([], [.one])] (by decide)
  exact ⟨hstart, h, hholdings, hsub, hlen⟩

end Framer

end AudioFraming
