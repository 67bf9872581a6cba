import AudioFraming.Proofs.Framer.LifeCycle

/-!
# Failure

A callback of a running framer fails if its input is too long for the ring, or if one of
the frames that wait is lost: there is no room for it in the arena, or the engine refuses
it. `Framer.Fails` says so without the loop over the frames (`advance_eq_some_iff`), and
tells what the rings and the engine are like at that moment. What comes of it is the same
wherever it happens, and stays so until the framer is stopped (`failure_latches`).
-/

namespace AudioFraming

theorem Arena.read_eq_error_iff {a : Arena} {offset : UInt32} {length : Nat} {e : EngineError} :
    a.read offset length = .error e ↔ a.locate offset length = .error e := by
  unfold read
  cases a.locate offset length <;> simp

namespace Progress

variable {σ : Type}

theorem input_emit (p : Progress σ) (block : List Sample) : (p.emit block).input = p.input := by
  unfold emit
  split <;> rfl

theorem absorb_eq_some_iff {p q : Progress σ} {block : List Sample} {e : SetupError} :
    p.absorb block = (some e, q) ↔ p.input.capacity < block.length ∧
      e = .pushExceedsCapacity block.length p.input.capacity ∧ q = p := by
  unfold absorb
  cases hpush : p.input.push block with
  | error fault =>
    obtain ⟨hlong, rfl⟩ := (p.input.push_eq_error_iff block fault).mp hpush
    have hne : block ≠ [] := List.ne_nil_of_length_pos (Nat.zero_lt_of_lt hlong)
    simp only [if_neg hne]
    constructor
    · intro h
      obtain ⟨he, rfl⟩ := Prod.mk.inj h
      exact ⟨hlong, (Option.some.inj he).symm, rfl⟩
    · rintro ⟨-, rfl, rfl⟩
      rfl
  | ok pushed =>
    refine ⟨nofun, ?_⟩
    rintro ⟨hlong, -⟩
    rw [(p.input.push_eq_error_iff block _).mpr ⟨hlong, rfl⟩] at hpush
    cases hpush

variable [Engine σ]

/-- A whole frame waits, and goes through. -/
def Passes (lease : Lease) (frame : Nat) (p q : Progress σ) : Prop :=
  frame ≤ p.input.available ∧ p.pass lease frame = (none, q)

/-- The ways to lose a frame, and where they leave the callback. -/
inductive Loses (lease : Lease) (frame : Nat) (p : Progress σ) : EngineError → Progress σ → Prop
  /-- The input span does not fit into the arena. -/
  | input {e : EngineError}
      (hlocate : (Engine.arena p.engine).locate lease.inputSpan.offset frame = .error e) :
      Loses lease frame p e p
  /-- The engine refuses the frame. -/
  | engine {q : Progress σ} {e : EngineError} {s : σ} (hload : p.load lease frame = .ok q)
      (hserve : Engine.processFrame q.engine lease.handle lease.outputSpan.offset
        lease.inputSpan.offset = (.error e, s)) :
      Loses lease frame p e { q with engine := s }
  /-- The output span does not fit into the arena. -/
  | output {q : Progress σ} {vad : Sample} {e : EngineError} {s : σ}
      (hload : p.load lease frame = .ok q)
      (hserve : Engine.processFrame q.engine lease.handle lease.outputSpan.offset
        lease.inputSpan.offset = (.ok vad, s))
      (hlocate : (Engine.arena s).locate lease.outputSpan.offset frame = .error e) :
      Loses lease frame p e { q with engine := s, vad := vad }

/-- Some frames go through, and the next one that waits is lost. -/
def Falls (lease : Lease) (frame : Nat) (p : Progress σ) (e : EngineError) (r : Progress σ) :
    Prop :=
  ∃ q, Relation.ReflTransGen (Passes lease frame) p q ∧ frame ≤ q.input.available ∧
    q.Loses lease frame e r

/-- The ways for a callback to fail, with the reason, and what it has come to by then. -/
inductive Fails (lease : Lease) (frame : Nat) (p : Progress σ) (block : List Sample) :
    SetupError → Progress σ → Prop
  /-- The block is longer than the ring. -/
  | tooLong (hlong : p.input.capacity < block.length) :
      Fails lease frame p block (.pushExceedsCapacity block.length p.input.capacity) p
  /-- The block fits, but a frame is lost, the first one that waits or a later one. -/
  | frame {q r : Progress σ} {e : EngineError} (habsorb : p.absorb block = (none, q))
      (hfalls : q.Falls lease frame e r) : Fails lease frame p block (.engine e) r

variable {p q r : Progress σ} {lease : Lease} {frame : Nat}

/-- Only the span can be at fault, and a frame that has been read can be written. -/
theorem load_eq_error_iff {e : EngineError} :
    p.load lease frame = .error e ↔
      (Engine.arena p.engine).locate lease.inputSpan.offset frame = .error e := by
  unfold load Arena.read Arena.write
  cases hlocate : (Engine.arena p.engine).locate lease.inputSpan.offset frame <;> simp [hlocate]

theorem pass_eq_some_iff {e : SetupError} :
    p.pass lease frame = (some e, r) ↔
      ∃ fault, e = .engine fault ∧ p.Loses lease frame fault r := by
  constructor
  · intro h
    unfold pass at h
    split at h
    · rename_i fault hload
      obtain ⟨he, rfl⟩ := Prod.mk.inj h
      obtain rfl := Option.some.inj he
      exact ⟨fault, rfl, .input (load_eq_error_iff.mp hload)⟩
    · rename_i q hload
      split at h
      · rename_i fault s hserve
        obtain ⟨he, rfl⟩ := Prod.mk.inj h
        obtain rfl := Option.some.inj he
        exact ⟨fault, rfl, .engine hload hserve⟩
      · rename_i vad s hserve
        dsimp only at h
        split at h
        · rename_i fault hread
          obtain ⟨he, rfl⟩ := Prod.mk.inj h
          obtain rfl := Option.some.inj he
          exact ⟨fault, rfl, .output hload hserve (Arena.read_eq_error_iff.mp hread)⟩
        · cases h
  · rintro ⟨fault, rfl, hloses⟩
    cases hloses with
    | input hlocate => simp only [pass, load_eq_error_iff.mpr hlocate]
    | engine hload hserve => simp only [pass, hload, hserve]
    | output hload hserve hlocate =>
      simp only [pass, hload, hserve, Arena.read_eq_error_iff.mpr hlocate]

/-- A frame that is loaded has left the input ring for the input span. -/
theorem exists_of_load (hpos : 0 < frame) (hwaits : frame ≤ p.input.available)
    (hload : p.load lease frame = .ok q) :
    ∃ start, (Engine.arena p.engine).locate lease.inputSpan.offset frame = .ok start ∧
      q = { p with
        engine := Engine.withArena p.engine { Engine.arena p.engine with
          words := (Engine.arena p.engine).words.write start (p.input.toList.take frame) }
        input := p.input.skip frame hwaits } := by
  cases hlocate : (Engine.arena p.engine).locate lease.inputSpan.offset frame with
  | error e =>
    rw [load_eq_error_iff.mpr hlocate] at hload
    cases hload
  | ok start =>
    rw [load_eq hlocate hpos hwaits] at hload
    exact ⟨start, rfl, (Except.ok.inj hload).symm⟩

theorem available_of_load (hpos : 0 < frame) (hwaits : frame ≤ p.input.available)
    (hload : p.load lease frame = .ok q) : q.input.available = p.input.available - frame := by
  obtain ⟨start, -, rfl⟩ := exists_of_load hpos hwaits hload
  rfl

/-- A frame that goes through no longer waits. -/
theorem Passes.available_eq (hpos : 0 < frame) (h : p.Passes lease frame q) :
    q.input.available = p.input.available - frame := by
  obtain ⟨hwaits, hpass⟩ := h
  unfold pass at hpass
  split at hpass
  · cases hpass
  · rename_i loaded hload
    split at hpass
    · cases hpass
    · dsimp only at hpass
      split at hpass
      · cases hpass
      · obtain rfl := (Prod.mk.inj hpass).2
        dsimp only
        rw [input_emit]
        exact (available_of_load hpos hwaits hload :)

/-- All that happens to a frame that goes through. -/
theorem Passes.exists_made (hpos : 0 < frame) (hcap : frame ≤ p.output.capacity)
    (h : p.Passes lease frame q) :
    ∃ loaded e made ring, p.load lease frame = .ok loaded ∧
      Engine.processFrame loaded.engine lease.handle lease.outputSpan.offset
        lease.inputSpan.offset = (.ok q.vad, e) ∧
      (Engine.arena e).read lease.outputSpan.offset frame = .ok made ∧
      p.output.push made = .ok (frame, ring) ∧
      q = {
        engine := e
        input := loaded.input
        output := ring
        frames := p.frames + 1
        vad := q.vad
        events := p.events ++ overflowEvents .output p.output.tally ring.tally } := by
  obtain ⟨hwaits, hpass⟩ := h
  unfold pass at hpass
  split at hpass
  · cases hpass
  · rename_i loaded hload
    split at hpass
    · cases hpass
    · rename_i vad e hserve
      dsimp only at hpass
      split at hpass
      · cases hpass
      · rename_i made hread
        obtain ⟨start, -, rfl⟩ := exists_of_load hpos hwaits hload
        have hlen := Arena.length_of_read hread
        obtain ⟨ring, hpush⟩ := p.output.exists_push (hlen.trans_le hcap)
        obtain rfl := (Prod.mk.inj hpass).2
        rw [hlen] at hpush
        simp only [emit, hpush]
        exact ⟨_, e, made, ring, hload, hserve, hread, hpush, rfl⟩

theorem falls_iff {e : EngineError} :
    p.Falls lease frame e r ↔ frame ≤ p.input.available ∧
      (p.Loses lease frame e r ∨ ∃ q, p.Passes lease frame q ∧ q.Falls lease frame e r) := by
  constructor
  · rintro ⟨q, hreach, hwaits, hloses⟩
    rcases hreach.cases_head with rfl | ⟨p', hpasses, hrest⟩
    · exact ⟨hwaits, Or.inl hloses⟩
    · exact ⟨hpasses.1, Or.inr ⟨p', hpasses, q, hrest, hwaits, hloses⟩⟩
  · rintro ⟨hwaits, hloses | ⟨p', hpasses, q, hrest, hwaits', hloses⟩⟩
    · exact ⟨p, .refl, hwaits, hloses⟩
    · exact ⟨q, hrest.head hpasses, hwaits', hloses⟩

/-- A frame that goes through is not the one that is lost. -/
theorem Passes.falls_iff (h : p.Passes lease frame q) {e : EngineError} :
    p.Falls lease frame e r ↔ q.Falls lease frame e r := by
  constructor
  · intro hfalls
    rcases (Progress.falls_iff.mp hfalls).2 with hloses | ⟨q', ⟨-, hpass⟩, hfalls'⟩
    · have hlost := pass_eq_some_iff.mpr ⟨e, rfl, hloses⟩
      rw [h.2] at hlost
      cases hlost
    · obtain rfl := (Prod.mk.inj (h.2.symm.trans hpass)).2
      exact hfalls'
  · exact fun hfalls => Progress.falls_iff.mpr ⟨h.1, Or.inr ⟨q, h, hfalls⟩⟩

/-- Nothing comes after a frame that is lost. -/
theorem falls_iff_loses (hwaits : frame ≤ p.input.available) {lost : SetupError}
    (hpass : p.pass lease frame = (some lost, q)) {e : EngineError} :
    p.Falls lease frame e r ↔ p.Loses lease frame e r := by
  constructor
  · intro hfalls
    rcases (falls_iff.mp hfalls).2 with hloses | ⟨q', ⟨-, hpass'⟩, -⟩
    · exact hloses
    · rw [hpass] at hpass'
      cases hpass'
  · exact fun hloses => falls_iff.mpr ⟨hwaits, Or.inl hloses⟩

/-- With enough passes, the frames that wait go through until one is lost. -/
theorem drain_eq_some_iff (hpos : 0 < frame) {e : SetupError} (passes : Nat) (p : Progress σ)
    (hle : p.input.available ≤ passes) :
    p.drain lease frame passes = (some e, r) ↔
      ∃ fault, e = .engine fault ∧ p.Falls lease frame fault r := by
  have hshort : ∀ p : Progress σ, ¬frame ≤ p.input.available →
      ((none, p) = (some e, r) ↔ ∃ fault, e = .engine fault ∧ p.Falls lease frame fault r) := by
    intro p hshort
    refine ⟨nofun, ?_⟩
    rintro ⟨fault, -, hfalls⟩
    exact absurd (falls_iff.mp hfalls).1 hshort
  induction passes generalizing p with
  | zero => exact hshort p (by omega)
  | succ passes ih =>
    unfold drain
    split_ifs with hwaits
    · rcases hpass : p.pass lease frame with ⟨lost | lost, p'⟩
      · -- The frame goes through, and the rest is up to those after it.
        have hpasses : p.Passes lease frame p' := ⟨hwaits, hpass⟩
        have hless := hpasses.available_eq hpos
        have hrest := ih p' (by omega)
        simp only [hpasses.falls_iff]
        exact hrest
      · dsimp only
        rw [← hpass, pass_eq_some_iff]
        simp only [falls_iff_loses hwaits hpass]
    · exact hshort p hwaits

/-- With enough passes and none that fails, less than a frame is left. -/
theorem reaches_of_drain (hpos : 0 < frame) (passes : Nat) (p : Progress σ)
    (hle : p.input.available ≤ passes) (h : p.drain lease frame passes = (none, r)) :
    Relation.ReflTransGen (Passes lease frame) p r ∧
      r.input.available = p.input.available % frame := by
  have hshort : ∀ p : Progress σ, ¬frame ≤ p.input.available → p = r →
      Relation.ReflTransGen (Passes lease frame) p r ∧
        r.input.available = p.input.available % frame := by
    rintro p hshort rfl
    exact ⟨.refl, (Nat.mod_eq_of_lt (Nat.not_le.mp hshort)).symm⟩
  induction passes generalizing p with
  | zero => exact hshort p (by omega) (Prod.mk.inj h).2
  | succ passes ih =>
    unfold drain at h
    split_ifs at h with hwaits
    · rcases hpass : p.pass lease frame with ⟨lost | lost, p'⟩
      · rw [hpass] at h
        have hpasses : p.Passes lease frame p' := ⟨hwaits, hpass⟩
        have hless := hpasses.available_eq hpos
        obtain ⟨hreach, hmod⟩ := ih p' (by omega) h
        refine ⟨hreach.head hpasses, ?_⟩
        rw [hmod, hless, ← Nat.mod_eq_sub_mod hwaits]
      · rw [hpass] at h
        cases h
    · exact hshort p hwaits (Prod.mk.inj h).2

theorem advance_eq_some_iff (hpos : 0 < frame) {block : List Sample} {e : SetupError} :
    p.advance lease frame block = (some e, r) ↔ p.Fails lease frame block e r := by
  unfold advance
  rcases habsorb : p.absorb block with ⟨lost | lost, p'⟩
  · dsimp only
    rw [passLimit, if_neg (Nat.ne_of_gt hpos), drain_eq_some_iff hpos _ p' (Nat.le_refl _)]
    constructor
    · rintro ⟨fault, rfl, hfalls⟩
      exact .frame habsorb hfalls
    · intro h
      cases h with
      | tooLong hlong =>
        rw [absorb_eq_some_iff.mpr ⟨hlong, rfl, rfl⟩] at habsorb
        cases habsorb
      | frame habsorb' hfalls =>
        obtain rfl := (Prod.mk.inj (habsorb.symm.trans habsorb')).2
        exact ⟨_, rfl, hfalls⟩
  · constructor
    · intro h
      obtain ⟨hlong, rfl, rfl⟩ := absorb_eq_some_iff.mp (habsorb.trans h)
      exact .tooLong hlong
    · intro h
      cases h with
      | tooLong hlong => exact habsorb.symm.trans (absorb_eq_some_iff.mpr ⟨hlong, rfl, rfl⟩)
      | frame habsorb' hfalls =>
        rw [habsorb] at habsorb'
        cases habsorb'

end Progress

/-- A stop, whether anyone is told of it or not. -/
def FramerCall.isStop : FramerCall → Bool
  | stop | command .stop => true
  | _ => false

/-- A call on a framer that has failed gives the host its input back, and has no other effect. -/
structure Entry.Frozen (r : Entry) : Prop where
  left_eq : r.left = .bypassed
  events_eq : r.reply.events = []
  requests_eq : r.reply.requests = []
  started : r.call = .start →
    r.reply.answer = .started (.error (.invalidState "start" "bypassed"))
  applied : ∀ c, r.call = .command c → r.reply.answer = .applied false
  delivered : ∀ input buffer, r.call = .quantum input buffer →
    r.reply.answer = .delivered ⟨true, passThrough input buffer.length⟩

namespace Framer

variable {σ : Type} [Engine σ] {f : Framer σ}

/-- A callback fails if it has something to run with, and what it does with that fails. -/
def Fails (f : Framer σ) (input : List Sample) (e : SetupError) (p : Progress σ) : Prop :=
  ∃ h, f.holdings = some h ∧
    (f.progress h).Fails h.lease f.engineFrame.toNat input e p

theorem mild_of_fails (hpos : 0 < f.engineFrame.toNat) {input : List Sample} {e : SetupError}
    {p : Progress σ} (hfails : f.Fails input e p) : ∀ event ∈ p.events, event.Mild := by
  obtain ⟨h, -, hfails⟩ := hfails
  have hmild := (f.lapses_advance h f.engineFrame.toNat input).mild
  rwa [(Progress.advance_eq_some_iff hpos).mpr hfails] at hmild

theorem quantum_of_fails (hphase : f.phase = .running) (hpos : 0 < f.engineFrame.toNat)
    {input : List Sample} {e : SetupError} {p : Progress σ} (hfails : f.Fails input e p)
    (buffer : List Sample) :
    ∃ h, f.holdings = some h ∧ f.quantum input buffer =
      { f with callbacks := f.callbacks + 1 }.fail h.lease p e input buffer.length := by
  obtain ⟨h, hsome, hfails⟩ := hfails
  exact ⟨h, hsome,
    quantum_eq_fail hphase hsome ((Progress.advance_eq_some_iff hpos).mpr hfails) buffer⟩

/-- A callback that does not fail goes on running. -/
theorem bypassed_iff_fails (hphase : f.phase = .running) (hpos : 0 < f.engineFrame.toNat)
    (input buffer : List Sample) :
    (f.quantum input buffer).framer.phase = .bypassed ↔ ∃ e p, f.Fails input e p := by
  constructor
  · intro hbypassed
    have hne : f.phase ≠ .bypassed := hphase ▸ nofun
    cases f.quantum_case input buffer with
    | idle hruns heq =>
      rw [heq] at hbypassed
      exact absurd hbypassed hne
    | fails h p e _ hsome hadvance =>
      exact ⟨e, p, h, hsome, (Progress.advance_eq_some_iff hpos).mp hadvance⟩
    | delivers h p ring _ hsome hadvance hframer =>
      rw [hframer] at hbypassed
      exact absurd hbypassed hne
  · rintro ⟨e, p, hfails⟩
    obtain ⟨h, -, hquantum⟩ := quantum_of_fails hphase hpos hfails buffer
    rw [hquantum]
    rfl

/-! ## Afterwards -/

theorem apply_of_bypassed (hphase : f.phase = .bypassed) {c : Command} (hc : c ≠ .stop) :
    f.apply c = ⟨f, false, []⟩ := by
  have hnone : f.phase.after c = none := by
    rw [hphase]
    cases c <;> first | rfl | exact absurd rfl hc
  unfold apply
  rw [hnone]

/-- Only callbacks are counted. -/
theorem after_of_bypassed (hphase : f.phase = .bypassed) {c : FramerCall}
    (hc : c.isStop = false) :
    f.after c = { f with callbacks := f.callbacks + if c.isCallback then 1 else 0 } := by
  cases c with
  | start =>
    rw [after, start_of_ne (by simp [hphase])]
    rfl
  | command c =>
    rw [after, apply_of_bypassed hphase (by rintro rfl; cases hc)]
    rfl
  | stop => cases hc
  | quantum input buffer => exact (quantum_idle (by simp [hphase]) input buffer).1

theorem frozen_entry (hphase : f.phase = .bypassed) {c : FramerCall} (hc : c.isStop = false) :
    (f.entry c).Frozen := by
  have hleft : (f.after c).phase = .bypassed := by
    rw [after_of_bypassed hphase hc]
    exact hphase
  have hrequests : f.requests c = [] := by
    rw [requests, after_of_bypassed (f := f.recorded) hphase hc]
    rfl
  cases c with
  | start =>
    have hresult : f.start.result = .error (.invalidState "start" "bypassed") := by
      rw [start_of_ne (by simp [hphase]), hphase]
      rfl
    exact {
      left_eq := hleft
      events_eq := rfl
      requests_eq := hrequests
      started := fun _ => congrArg Answer.started hresult
      applied := by rintro c ⟨⟩
      delivered := by rintro input buffer ⟨⟩ }
  | command c =>
    have happly := apply_of_bypassed hphase (c := c) (by rintro rfl; cases hc)
    exact {
      left_eq := hleft
      events_eq := congrArg Outcome.events happly
      requests_eq := hrequests
      started := by rintro ⟨⟩
      applied := fun _ _ => congrArg (fun o : Outcome σ Bool => Answer.applied o.answer) happly
      delivered := by rintro input buffer ⟨⟩ }
  | stop => cases hc
  | quantum input buffer =>
    have hreply := reply_quantum_idle (f := f) (by simp [hphase]) input buffer
    rw [hphase] at hreply
    exact {
      left_eq := hleft
      events_eq := congrArg Reply.events hreply
      requests_eq := hrequests
      started := by rintro ⟨⟩
      applied := by rintro c ⟨⟩
      delivered := by
        rintro input buffer ⟨⟩
        exact congrArg Reply.answer hreply }

theorem replay_of_bypassed (hphase : f.phase = .bypassed) {calls : List FramerCall}
    (hcalls : ∀ c ∈ calls, c.isStop = false) :
    f.replay calls = { f with callbacks := f.callbacks + calls.countP FramerCall.isCallback } := by
  induction calls generalizing f with
  | nil => rfl
  | cons c rest ih =>
    have hafter := after_of_bypassed hphase (hcalls c List.mem_cons_self)
    have hrest := ih (f := f.after c) (by rw [hafter]; exact hphase)
      fun c' hc' => hcalls c' (List.mem_cons_of_mem c hc')
    rw [replay_cons, hrest, hafter, List.countP_cons, Nat.add_assoc,
      Nat.add_comm (List.countP ..)]

/-- A framer that has failed does not run any more, so it asks for no frame. -/
theorem process_not_mem_requests (hphase : f.phase = .bypassed) (calls : List FramerCall) :
    ∀ r ∈ f.transcript calls, ∀ handle output input,
      .process handle output input ∉ r.reply.requests := by
  refine forall_transcript (P := fun g => g.phase = .bypassed ∨ g.phase = .stopped) ?_
    (Or.inl hphase)
  intro g hg c _
  have hlawful := g.lawful_entry c
  constructor
  · intro handle output input hr
    have hrunning : g.phase = .running := hlawful.requests handle output input hr
    rw [hrunning] at hg
    rcases hg with hg | hg <;> cases hg
  · rcases hg with hg | hg
    · exact hlawful.bypassed_to hg
    · exact Or.inr (hlawful.stopped hg)

end Framer

end AudioFraming
