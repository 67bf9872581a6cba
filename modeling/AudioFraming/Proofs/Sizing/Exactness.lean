import AudioFraming.Proofs.Checked
import AudioFraming.Proofs.Sizing.Remainders

/-!
# Sizes on unbounded numbers

Sizes are words, and only some of the operations on them saturate. `warmupQuanta?`, `latency?` and
`check?` check all the others, as `Proofs.Checked` has them: whatever the sizes are, nothing goes
wrong on the way to a warm-up or to a verdict.

`demands` writes the verdict down on unbounded numbers, one demand after another. As long as the
capacity of the rings is less than the largest word, saturation is never what decides, and a verdict
is that of the first demand that is not met (`check_exact`). Sizes that meet all of them leave room
for one more quantum beyond the latency.
-/

namespace AudioFraming

namespace Sizing

/-- A result held at the largest word. -/
def saturated (n : Nat) : Nat := min n maxSize

def warmupQuanta? (s : Sizing) : Option Nat :=
  if s.frame = 0 ∨ s.quantum = 0 then some 0
  else do
    let divisor ← euclid? s.frame.toNat s.quantum.toNat
    let lag ← sub? s.frame.toNat divisor
    ceilQuotient? lag s.quantum.toNat

def latency? (s : Sizing) : Option Nat := do
  let warmup ← s.warmupQuanta?
  product? warmup s.quantum.toNat

def requiredCapacity? (s : Sizing) : Option Nat := do
  let warmup ← s.warmupQuanta?
  let callbacks ← sum? warmup 1
  return max (saturated (s.frame.toNat + s.quantum.toNat))
    (saturated (callbacks * s.quantum.toNat))

def check? (s : Sizing) (engineFrame : UInt64) : Option (Except SetupError Unit) :=
  if s.sampleRate = 0 then some (.error (.zeroSize "sample rate"))
  else if s.quantum = 0 then some (.error (.zeroSize "quantum size"))
  else if s.frame = 0 then some (.error (.zeroSize "frame size"))
  else if s.frame ≠ engineFrame then
    some (.error (.frameSizeMismatch s.frame.toNat engineFrame.toNat))
  else if maxJitter < s.jitter then
    some (.error (.jitterTooLarge s.jitter.toNat maxJitter.toNat))
  else do
    let required ← s.requiredCapacity?
    if s.ringCapacity.toNat < required then
      return .error (.capacityTooSmall s.ringCapacity.toNat required)
    else return .ok ()

/-! ## The same on unbounded numbers -/

/-- The lag in quanta, rounded up. -/
def exactWarmup (s : Sizing) : Nat :=
  (s.frame.toNat - Nat.gcd s.frame.toNat s.quantum.toNat) ⌈/⌉ s.quantum.toNat

/-- The frames that a ring holds, in samples. -/
def exactCapacity (s : Sizing) : Nat := s.frame.toNat * (s.jitter.toNat + 1)

/-- What is asked of the sizes, in order, each with the error of sizes that are not like that. -/
def demands (s : Sizing) (engineFrame : UInt64) : List (Bool × SetupError) :=
  let frame := s.frame.toNat
  let quantum := s.quantum.toNat
  let backlog := (s.exactWarmup + 1) * quantum
  let tooSmall : SetupError :=
    .capacityTooSmall s.exactCapacity (saturated (max (frame + quantum) backlog))
  [(s.sampleRate.toNat ≠ 0, .zeroSize "sample rate"),
    (quantum ≠ 0, .zeroSize "quantum size"),
    (frame ≠ 0, .zeroSize "frame size"),
    (frame = engineFrame.toNat, .frameSizeMismatch frame engineFrame.toNat),
    (s.jitter.toNat ≤ 32, .jitterTooLarge s.jitter.toNat 32),
    (frame + quantum ≤ s.exactCapacity, tooSmall),
    (backlog ≤ s.exactCapacity, tooSmall)]

theorem exactWarmup_of_zero {s : Sizing} (h : s.frame = 0 ∨ s.quantum = 0) :
    s.exactWarmup = 0 := by
  rcases h with h | h <;> simp [exactWarmup, h]

theorem toNat_warmupQuanta_eq_exactWarmup (s : Sizing) :
    s.warmupQuanta.toNat = s.exactWarmup := by
  by_cases hzero : s.frame = 0 ∨ s.quantum = 0
  · simp [warmupQuanta, hzero, exactWarmup_of_zero hzero]
  · obtain ⟨hframe, hquantum⟩ := not_or.mp hzero
    rw [toNat_warmupQuanta (toNat_pos hframe) (toNat_pos hquantum),
      toNat_lag (toNat_pos hframe), exactWarmup]

section positive

variable {s : Sizing} (hframe : 0 < s.frame.toNat) (hquantum : 0 < s.quantum.toNat)
include hframe hquantum

/-- A quantum holds a sample or more, so the warm-up is shorter than a frame is long. -/
theorem warmup_lt_frame : s.warmupQuanta.toNat < s.frame.toNat := by
  by_contra hle
  have hlag := mul_lt_lag hframe hquantum (n := s.frame.toNat - 1) (by omega)
  have hmul := Nat.le_mul_of_pos_right (s.frame.toNat - 1) hquantum
  have hgcd := Nat.gcd_pos_of_pos_left s.quantum.toNat hframe
  rw [toNat_lag hframe] at hlag
  omega

/-- One callback more than the warm-up can be counted. -/
theorem toNat_warmupQuanta_add_one : (s.warmupQuanta + 1).toNat = s.warmupQuanta.toNat + 1 := by
  have hlt := warmup_lt_frame hframe hquantum
  have hframe := s.frame.toNat_lt
  rw [UInt64.toNat_add]
  exact Nat.mod_eq_of_lt (by change _ + 1 < _; omega)

theorem toNat_requiredCapacity : s.requiredCapacity.toNat =
    saturated (max (s.frame.toNat + s.quantum.toNat) ((s.exactWarmup + 1) * s.quantum.toNat)) := by
  rw [requiredCapacity, toNat_max, toNat_saturatingAdd, toNat_saturatingMul,
    toNat_warmupQuanta_add_one hframe hquantum, toNat_warmupQuanta_eq_exactWarmup, saturated]
  omega

theorem requiredCapacity?_eq (h : s.warmupQuanta? = some s.exactWarmup) :
    s.requiredCapacity? = some s.requiredCapacity.toNat := by
  have hlt := warmup_lt_frame hframe hquantum
  have hsum : sum? s.exactWarmup 1 = some (s.exactWarmup + 1) := by
    refine sum?_eq_some (Nat.lt_of_le_of_lt ?_ s.frame.toNat_lt)
    rwa [← toNat_warmupQuanta_eq_exactWarmup]
  have hmax := toNat_requiredCapacity hframe hquantum
  simp only [requiredCapacity?, h, hsum, Option.bind_eq_bind, Option.bind_some, hmax, saturated]
  exact congrArg some (by omega)

end positive

/-! ## Nothing goes wrong -/

theorem warmupQuanta?_eq (s : Sizing) : s.warmupQuanta? = some s.exactWarmup := by
  unfold warmupQuanta?
  split_ifs with hzero
  · rw [exactWarmup_of_zero hzero]
  · obtain ⟨hframe, hquantum⟩ := not_or.mp hzero
    have hle := Nat.gcd_le_left s.quantum.toNat (toNat_pos hframe)
    have hlag : s.frame.toNat - Nat.gcd s.frame.toNat s.quantum.toNat < UInt64.size :=
      Nat.lt_of_le_of_lt (Nat.sub_le ..) s.frame.toNat_lt
    simp only [euclid?_eq_some, sub?_eq_some hle,
      ceilQuotient?_eq_some hlag (toNat_pos hquantum), Option.bind_eq_bind, Option.bind_some]
    rfl

theorem check?_eq (s : Sizing) (engineFrame : UInt64) :
    s.check? engineFrame = some (s.check engineFrame) := by
  unfold check? check
  split_ifs with _ hquantum hframe _ _ hless
  -- Only the last demand takes arithmetic, whether it is met or not.
  any_goals rfl
  all_goals
    rw [requiredCapacity?_eq (toNat_pos hframe) (toNat_pos hquantum) s.warmupQuanta?_eq]
    rw [UInt64.lt_iff_toNat_lt] at hless
    simp [hless]

/-- The rings' capacity is computed by saturating operations alone. -/
theorem toNat_ringCapacity_eq_saturated (s : Sizing) :
    s.ringCapacity.toNat = saturated (s.frame.toNat * saturated (s.jitter.toNat + 1)) := by
  rw [ringCapacity, toNat_saturatingMul, toNat_saturatingAdd]
  rfl

/-! ## Nothing is saturated that decides -/

/-- All demands are met. -/
structure Consistent (s : Sizing) (engineFrame : UInt64) : Prop where
  rate_ne : s.sampleRate.toNat ≠ 0
  quantum_ne : s.quantum.toNat ≠ 0
  frame_ne : s.frame.toNat ≠ 0
  frame_eq : s.frame.toNat = engineFrame.toNat
  jitter_le : s.jitter.toNat ≤ 32
  frame_room : s.frame.toNat + s.quantum.toNat ≤ s.exactCapacity
  backlog_room : (s.exactWarmup + 1) * s.quantum.toNat ≤ s.exactCapacity

theorem consistent_iff (s : Sizing) (engineFrame : UInt64) :
    s.Consistent engineFrame ↔ ∀ d ∈ s.demands engineFrame, d.1 = true := by
  simp only [demands, List.forall_mem_cons, decide_eq_true_eq]
  constructor
  · rintro ⟨hrate, hquantum, hframe, hengine, hjitter, hroom, hbacklog⟩
    exact ⟨hrate, hquantum, hframe, hengine, hjitter, hroom, hbacklog, nofun⟩
  · rintro ⟨hrate, hquantum, hframe, hengine, hjitter, hroom, hbacklog, -⟩
    exact ⟨hrate, hquantum, hframe, hengine, hjitter, hroom, hbacklog⟩

section small

variable {s : Sizing} (hsmall : s.exactCapacity < maxSize)
include hsmall

theorem toNat_ringCapacity_eq_exactCapacity : s.ringCapacity.toNat = s.exactCapacity := by
  rw [toNat_ringCapacity_eq_saturated, saturated, saturated]
  rw [exactCapacity] at hsmall ⊢
  rcases Nat.eq_zero_or_pos s.frame.toNat with h0 | hpos
  · simp [h0]
  · have hle := Nat.le_mul_of_pos_left (s.jitter.toNat + 1) hpos
    rw [Nat.min_eq_left (by omega : s.jitter.toNat + 1 ≤ maxSize)]
    omega

theorem ringCapacity_lt_requiredCapacity_iff (hframe : 0 < s.frame.toNat)
    (hquantum : 0 < s.quantum.toNat) :
    s.ringCapacity < s.requiredCapacity ↔
      ¬(s.frame.toNat + s.quantum.toNat ≤ s.exactCapacity ∧
        (s.exactWarmup + 1) * s.quantum.toNat ≤ s.exactCapacity) := by
  rw [UInt64.lt_iff_toNat_lt, toNat_ringCapacity_eq_exactCapacity hsmall,
    toNat_requiredCapacity hframe hquantum, saturated]
  omega

/-- The verdict is that of the first demand that is not met. -/
theorem check_eq_find? (engineFrame : UInt64) :
    s.check engineFrame =
      ((s.demands engineFrame).find? fun d => !d.1).elim (.ok ()) fun d => .error d.2 := by
  have hrate : s.sampleRate = 0 ↔ s.sampleRate.toNat = 0 := UInt32.toNat_inj.symm
  have hquantum : s.quantum = 0 ↔ s.quantum.toNat = 0 := UInt64.toNat_inj.symm
  have hframe : s.frame = 0 ↔ s.frame.toNat = 0 := UInt64.toNat_inj.symm
  have hengine : s.frame = engineFrame ↔ s.frame.toNat = engineFrame.toNat := UInt64.toNat_inj.symm
  have hjitter : maxJitter < s.jitter ↔ 32 < s.jitter.toNat := UInt64.lt_iff_toNat_lt
  have hlimit : maxJitter.toNat = 32 := rfl
  unfold check
  simp only [hrate, hquantum, hframe, hengine, hjitter, ne_eq]
  split_ifs with h1 h2 h3 h4 h5 h6
  · simp [demands, h1]
  · simp [demands, h1, h2]
  · simp [demands, h1, h2, h3]
  · simp [demands, h1, h2, h3, ← h4, Nat.not_le.mpr h5, hlimit]
  · have hframe := Nat.pos_of_ne_zero h3
    have hquantum := Nat.pos_of_ne_zero h2
    rw [ringCapacity_lt_requiredCapacity_iff hsmall hframe hquantum] at h6
    rw [toNat_ringCapacity_eq_exactCapacity hsmall, toNat_requiredCapacity hframe hquantum]
    by_cases hroom : s.frame.toNat + s.quantum.toNat ≤ s.exactCapacity
    · have hbacklog : ¬(s.exactWarmup + 1) * s.quantum.toNat ≤ s.exactCapacity :=
        fun hle => h6 ⟨hroom, hle⟩
      simp [demands, h1, h2, h3, ← h4, Nat.not_lt.mp h5, hroom, hbacklog]
    · simp [demands, h1, h2, h3, ← h4, Nat.not_lt.mp h5, hroom]
  · rw [ringCapacity_lt_requiredCapacity_iff hsmall (Nat.pos_of_ne_zero h3)
      (Nat.pos_of_ne_zero h2), not_not] at h6
    simp [demands, h1, h2, h3, ← h4, Nat.not_lt.mp h5, h6.1, h6.2]
  · simp [demands, h1, h2, h3, h4]

end small

theorem latency?_eq {s : Sizing} {engineFrame : UInt64} (hsmall : s.exactCapacity < maxSize)
    (h : s.Consistent engineFrame) :
    s.latency? = some s.latency.toNat ∧
      s.latency.toNat + s.quantum.toNat ≤ s.ringCapacity.toNat := by
  have hroom := h.backlog_room
  rw [Nat.add_one_mul] at hroom
  have hlt : s.exactWarmup * s.quantum.toNat < UInt64.size := by
    have hword : maxSize < UInt64.size := by decide
    omega
  have hlatency : s.latency.toNat = s.exactWarmup * s.quantum.toNat := by
    rw [latency, UInt64.toNat_mul, toNat_warmupQuanta_eq_exactWarmup]
    exact Nat.mod_eq_of_lt hlt
  rw [hlatency, toNat_ringCapacity_eq_exactCapacity hsmall]
  refine ⟨?_, hroom⟩
  simp only [latency?, s.warmupQuanta?_eq, Option.bind_eq_bind, Option.bind_some,
    product?_eq_some hlt]

/-- No operation on the sizes goes wrong, but for those that saturate, and the warm-up is what it is
on unbounded numbers. With rings that stay below the largest word, the sizes are accepted exactly if
they are consistent on unbounded numbers; the latency and one more quantum then fit into a ring. The
first demand that is not met is the one that is reported. -/
theorem check_exact (s : Sizing) (engineFrame : UInt64) :
    s.warmupQuanta? = some s.exactWarmup ∧ s.warmupQuanta.toNat = s.exactWarmup ∧
      s.ringCapacity.toNat = saturated (s.frame.toNat * saturated (s.jitter.toNat + 1)) ∧
      s.check? engineFrame = some (s.check engineFrame) ∧
      (s.exactCapacity < maxSize →
        (s.check engineFrame = .ok () ↔ s.Consistent engineFrame) ∧
        (s.check engineFrame = .ok () →
          s.latency? = some s.latency.toNat ∧
            s.latency.toNat + s.quantum.toNat ≤ s.ringCapacity.toNat) ∧
        ∀ e, s.check engineFrame = .error e ↔
          ∃ d, (s.demands engineFrame).find? (fun d => !d.1) = some d ∧ e = d.2) := by
  refine ⟨s.warmupQuanta?_eq, s.toNat_warmupQuanta_eq_exactWarmup,
    s.toNat_ringCapacity_eq_saturated, s.check?_eq engineFrame, fun hsmall => ?_⟩
  have hcheck := check_eq_find? hsmall engineFrame
  have haccepted : s.check engineFrame = .ok () ↔ s.Consistent engineFrame := by
    rw [consistent_iff, hcheck]
    cases hfirst : (s.demands engineFrame).find? fun d => !d.1 with
    | none => simpa using hfirst
    | some d =>
      have hunmet := List.find?_some hfirst
      have hmem := List.mem_of_find?_eq_some hfirst
      simp only [Option.elim_some, reduceCtorEq, false_iff]
      intro hall
      simp [hall d hmem] at hunmet
  refine ⟨haccepted, fun hok => latency?_eq hsmall (haccepted.mp hok), fun e => ?_⟩
  rw [hcheck]
  cases (s.demands engineFrame).find? fun d => !d.1 with
  | none => simp
  | some d => simp [eq_comm]

/-- Frames that take up three quarters of all words: consistent with quanta of three samples, and a
jitter too short for quanta of `2 ^ 63`. -/
theorem check_exact_of_large_frames :
    let s : Sizing := ⟨48000, 3, 0x4000000000000000, 2⟩
    let t : Sizing := ⟨48000, 0x8000000000000000, 0x4000000000000000, 1⟩
    s.exactCapacity < maxSize ∧ s.check s.frame = .ok () ∧ s.Consistent s.frame ∧
      s.latency.toNat + 3 ≤ s.ringCapacity.toNat ∧
      t.exactCapacity < maxSize ∧
      t.check t.frame = .error (.capacityTooSmall (2 ^ 63) (2 ^ 63 + 2 ^ 62)) := by
  intro s t
  have hs : s.exactCapacity < maxSize := by decide
  have ht : t.exactCapacity < maxSize := by decide
  have hok : s.check s.frame = .ok () := by decide +kernel
  obtain ⟨-, -, -, -, hexact⟩ := check_exact s s.frame
  obtain ⟨haccepted, hlatency, -⟩ := hexact hs
  obtain ⟨-, -, -, -, hexact⟩ := check_exact t t.frame
  exact ⟨hs, hok, haccepted.mp hok, (hlatency hok).2, ht,
    ((hexact ht).2.2 _).mpr ⟨(false, _), by decide +kernel, rfl⟩⟩

end Sizing

end AudioFraming
