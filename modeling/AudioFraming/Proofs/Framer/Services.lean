import AudioFraming.Proofs.Framer.Transport

/-!
# What an engine is asked to serve

A monitor next to an engine notes each frame that is asked of it, the engine as it was then, and
what came of it. No framer notices the monitor, so `Framer.services` tells which frames are asked
for in a session, and finds all of the engine in each of them.

Without a framer, `Lease.services` is what comes of a list of frames that are put into the input
span one after the other. That it never fails is up to the engine (`Lease.Reliable`); that both
spans are there for it follows from how they were taken (`Lease.lies_of_take`).
-/

namespace AudioFraming

variable {σ : Type}

/-- A frame that was asked of an engine. -/
structure Service (σ : Type) where
  handle : Handle
  output : UInt32
  input : UInt32
  /-- The engine when it was asked. -/
  found : σ
  answer : Except EngineError Sample
  /-- The engine when it had answered. -/
  left : σ

/-- An engine and the frames that were asked of it, latest first. -/
structure Monitored (σ : Type) where
  engine : σ
  journal : List (Service σ) := []

variable [Engine σ]

instance : Engine (Monitored σ) where
  name m := Engine.name m.engine
  frameSize m := Engine.frameSize m.engine
  arena m := Engine.arena m.engine
  withArena m a := { m with engine := Engine.withArena m.engine a }
  arena_withArena _ _ := by simp
  withArena_arena _ := by simp
  withArena_withArena _ _ _ := by simp
  create m := (Engine.create m.engine).map id fun e => { m with engine := e }
  destroy m h := { m with engine := Engine.destroy m.engine h }
  processFrame m h output input :=
    let (answer, left) := Engine.processFrame m.engine h output input
    (answer, ⟨left, ⟨h, output, input, m.engine, answer, left⟩ :: m.journal⟩)

theorem Monitored.isHom : Engine.IsHom (Monitored.engine : Monitored σ → σ) where
  name_eq _ := rfl
  frameSize_eq _ := rfl
  arena_eq _ := rfl
  withArena_eq _ _ := rfl
  create_eq _ := rfl
  destroy_eq _ _ := rfl
  processFrame_eq _ _ _ _ := rfl

/-- The framer with a monitor next to its engine. -/
def Framer.monitored (f : Framer σ) : Framer (Monitored σ) where
  sizing := f.sizing
  engine := ⟨f.engine, []⟩
  phase := f.phase
  holdings := f.holdings
  warmupLeft := f.warmupLeft
  callbacks := f.callbacks
  frames := f.frames
  vad := f.vad

/-- The frames that a session asks of the engine, in order. -/
def Framer.services (f : Framer σ) (calls : List FramerCall) : List (Service σ) :=
  (f.monitored.replay calls).engine.journal.reverse

theorem Framer.eventsDuring_monitored (f : Framer σ) (calls : List FramerCall) :
    f.monitored.eventsDuring calls = f.eventsDuring calls :=
  (eventsDuring_map Monitored.isHom f.monitored calls).symm

namespace Lease

variable (lease : Lease)

/-- The engine with a block in the input span. -/
def feed (e : σ) (block : List Sample) : σ :=
  Engine.withArena e { Engine.arena e with
    words := (Engine.arena e).words.write lease.inputSpan.start block }

/-- The engine is asked for the frame that a block makes. -/
def service (e : σ) (block : List Sample) : Service σ :=
  let served := Engine.processFrame (lease.feed e block) lease.handle lease.outputSpan.offset
    lease.inputSpan.offset
  ⟨lease.handle, lease.outputSpan.offset, lease.inputSpan.offset, lease.feed e block, served.1,
    served.2⟩

/-- The engine after a list of blocks. -/
def serveAll (e : σ) (blocks : List (List Sample)) : σ :=
  blocks.foldl (fun e block => (lease.service e block).left) e

/-- The frames that a list of blocks makes. -/
def services : σ → List (List Sample) → List (Service σ)
  | _, [] => []
  | e, block :: rest => lease.service e block :: services (lease.service e block).left rest

theorem serveAll_append (e : σ) (blocks : List (List Sample)) (block : List Sample) :
    lease.serveAll e (blocks ++ [block]) =
      (lease.service (lease.serveAll e blocks) block).left := by
  simp [serveAll]

theorem services_append (e : σ) (blocks : List (List Sample)) (block : List Sample) :
    lease.services e (blocks ++ [block]) =
      lease.services e blocks ++ [lease.service (lease.serveAll e blocks) block] := by
  induction blocks generalizing e with
  | nil => rfl
  | cons first rest ih => simp [services, serveAll, ih]

theorem getElem?_services (e : σ) (blocks : List (List Sample)) (i : Nat) :
    (lease.services e blocks)[i]? =
      blocks[i]?.map (lease.service (lease.serveAll e (blocks.take i))) := by
  induction blocks generalizing e i with
  | nil => rfl
  | cons first rest ih =>
    cases i with
    | zero => rfl
    | succ i => simpa [services, serveAll] using ih _ i

@[simp] theorem length_services (e : σ) (blocks : List (List Sample)) :
    (lease.services e blocks).length = blocks.length := by
  induction blocks generalizing e with
  | nil => rfl
  | cons first rest ih => simp [services, ih]

/-- What the monitor notes. -/
theorem serveAll_monitored (m : Monitored σ) (blocks : List (List Sample)) :
    lease.serveAll m blocks =
      ⟨lease.serveAll m.engine blocks, (lease.services m.engine blocks).reverse ++ m.journal⟩ := by
  induction blocks generalizing m with
  | nil => rfl
  | cons first rest ih =>
    have hrest := ih (lease.service m first).left
    simp only [services, List.reverse_cons, List.append_assoc, List.singleton_append]
    exact hrest

/-- What an engine has made of a frame. -/
def made (frame : Nat) (service : Service σ) : List Sample :=
  (Engine.arena service.left).words.read lease.outputSpan.start frame

/-- The two spans lie in any arena of a given capacity. -/
structure Lies (capacity frame : Nat) : Prop where
  input : ∀ a : Arena, a.capacity = capacity →
    a.locate lease.inputSpan.offset frame = .ok lease.inputSpan.start
  output : ∀ a : Arena, a.capacity = capacity →
    a.locate lease.outputSpan.offset frame = .ok lease.outputSpan.start

variable {lease}

/-- The spans of a lease lie in the arena that they were taken from. -/
theorem lies_of_take {e e' : σ} (htidy : (Engine.arena e).Tidy) {frame : Nat}
    (h : take e frame = (.ok lease, e')) : lease.Lies (Engine.arena e).capacity frame := by
  have hlends := Arena.lends_allocTwo (.refl htidy) frame
  unfold take at h
  split at h
  · cases h
  · rename_i hspans
    rw [hspans] at hlends
    split at h
    · obtain ⟨hlease, -⟩ := Prod.mk.inj h
      obtain rfl := Except.ok.inj hlease
      refine ⟨fun a ha => ?_, fun a ha => ?_⟩
      · rw [← hlends.locate_fst]
        simp only [Arena.locate, ha, hlends.capacity_eq]
      · rw [← hlends.locate_snd]
        simp only [Arena.locate, ha, hlends.capacity_eq]
    · cases h

variable (lease) in
/-- What is asked of an engine while it is in one of the states `P`: it keeps the size of its frames
and of its arena, and it serves every frame. Which spans of its arena are in use makes no
difference. -/
structure Reliable (capacity : Nat) (frame : UInt64) (P : σ → Prop) : Prop where
  frameSize_eq : ∀ e, P e → Engine.frameSize e = frame
  capacity_eq : ∀ e, P e → (Engine.arena e).capacity = capacity
  feed : ∀ e block, P e → block.length = frame.toNat → P (lease.feed e block)
  serve : ∀ e, P e → ∃ vad e', Engine.processFrame e lease.handle lease.outputSpan.offset
    lease.inputSpan.offset = (.ok vad, e') ∧ P e'

namespace Reliable

variable {capacity : Nat} {frame : UInt64} {P : σ → Prop} {e : σ}

theorem exists_service (h : lease.Reliable capacity frame P) (he : P e) {block : List Sample}
    (hblock : block.length = frame.toNat) :
    (∃ vad, (lease.service e block).answer = .ok vad) ∧ P (lease.service e block).left := by
  obtain ⟨vad, e', hserve, he'⟩ := h.serve _ (h.feed e block he hblock)
  simp only [service, hserve]
  exact ⟨⟨vad, rfl⟩, he'⟩

theorem serveAll (h : lease.Reliable capacity frame P) (he : P e) {blocks : List (List Sample)}
    (hblocks : ∀ block ∈ blocks, block.length = frame.toNat) : P (lease.serveAll e blocks) := by
  induction blocks generalizing e with
  | nil => exact he
  | cons first rest ih =>
    have hfirst := (h.exists_service he (hblocks first List.mem_cons_self)).2
    exact ih hfirst fun block hblock => hblocks block (List.mem_cons_of_mem _ hblock)

/-- The block is there when the frame is asked for, and what is made of it when it has been served. -/
theorem read_service (h : lease.Reliable capacity frame P)
    (hlies : lease.Lies capacity frame.toNat) (he : P e) {block : List Sample}
    (hblock : block.length = frame.toNat) :
    (Engine.arena (lease.service e block).found).read lease.inputSpan.offset frame.toNat =
        .ok block ∧
      (Engine.arena (lease.service e block).left).read lease.outputSpan.offset frame.toNat =
        .ok (lease.made frame.toNat (lease.service e block)) := by
  have hfed := h.feed e block he hblock
  have hleft := (h.exists_service he hblock).2
  have hroom := (Arena.locate_eq_ok (hlies.input _ (h.capacity_eq e he))).2
  constructor
  · change (Engine.arena (lease.feed e block)).read lease.inputSpan.offset frame.toNat = .ok block
    rw [← hblock] at hroom hlies ⊢
    rw [Arena.read_of_locate (hlies.input _ (h.capacity_eq _ hfed))]
    simp only [Lease.feed, Engine.arena_withArena]
    rw [Cells.read_write _ _ _ hroom]
  · exact Arena.read_of_locate (hlies.output _ (h.capacity_eq _ hleft))

/-- Every frame is asked for in the same way, each with its own block. -/
theorem exists_block (h : lease.Reliable capacity frame P)
    (hlies : lease.Lies capacity frame.toNat) (he : P e) {blocks : List (List Sample)}
    (hblocks : ∀ block ∈ blocks, block.length = frame.toNat) (i : Nat) (service : Service σ)
    (hservice : (lease.services e blocks)[i]? = some service) :
    service.handle = lease.handle ∧ service.output = lease.outputSpan.offset ∧
      service.input = lease.inputSpan.offset ∧
      (∃ block, blocks[i]? = some block ∧
        (Engine.arena service.found).read service.input frame.toNat = .ok block) ∧
      (Engine.arena service.left).read service.output frame.toNat =
        .ok (lease.made frame.toNat service) := by
  rw [getElem?_services] at hservice
  obtain ⟨block, hblock, rfl⟩ := Option.map_eq_some_iff.mp hservice
  have hbefore : P (lease.serveAll e (blocks.take i)) :=
    h.serveAll he fun b hb => hblocks b (List.mem_of_mem_take hb)
  obtain ⟨hfound, hleft⟩ :=
    h.read_service hlies hbefore (hblocks block (List.mem_of_getElem? hblock))
  exact ⟨rfl, rfl, rfl, ⟨block, hblock, hfound⟩, hleft⟩

theorem monitored (h : lease.Reliable capacity frame P) :
    lease.Reliable capacity frame fun m : Monitored σ => P m.engine where
  frameSize_eq m := h.frameSize_eq m.engine
  capacity_eq m := h.capacity_eq m.engine
  feed m := h.feed m.engine
  serve m hm := by
    obtain ⟨vad, e', hserve, he'⟩ := h.serve m.engine hm
    exact ⟨vad, ⟨e', _⟩, by simp only [Engine.processFrame, hserve]; rfl, he'⟩

end Reliable

end Lease

end AudioFraming
