import AudioFraming.Proofs.Arena.History
import AudioFraming.Proofs.Checked

/-!
# Two views of one arena

`pair` names two runs of words. Here the runs are lent out: the row of words is cut in two, and
each view is a slice of its own piece. Cutting, slicing, writing and adding up word numbers are
checked, so a wrong order of the runs or a wrong index has no result.

The checks never fail, whichever run comes first (`views?_eq`). A borrower of the run to write
can do to it whatever can be done to a list, and to no other word (`View.confines_writes`).
-/

namespace AudioFraming

/-- Words lent out: those from word `start` on, `length` of them. -/
structure View where
  start : Nat
  length : Nat
deriving DecidableEq, Inhabited

namespace View

/-- The part before word `mid` of the view, and the part from there on. -/
def splitAt? (v : View) (mid : Nat) : Option (View × View) :=
  if mid ≤ v.length then some (⟨v.start, mid⟩, ⟨v.start + mid, v.length - mid⟩) else none

/-- The part from word `first` of the view up to word `stop`. -/
def slice? (v : View) (first stop : Nat) : Option View :=
  if first ≤ stop ∧ stop ≤ v.length then some ⟨v.start + first, stop - first⟩ else none

/-- The samples in the words of the view. -/
def read (v : View) (words : Cells) : List Sample :=
  (List.range v.length).map fun i => words.get (v.start + i)

/-- Writes a block from word `position` of the view on; it must fit. -/
def write? (v : View) (words : Cells) (position : Nat) (block : List Sample) : Option Cells :=
  if position + block.length ≤ v.length then some (words.write (v.start + position) block)
  else none

/-- Writes blocks one after another, each at its position. -/
def writes? (v : View) (words : Cells) : List (Nat × List Sample) → Option Cells
  | [] => some words
  | (position, block) :: rest => do
    let words ← v.write? words position block
    v.writes? words rest

def Covers (v : View) (i : Nat) : Prop := v.start ≤ i ∧ i < v.start + v.length

end View

/-- A list with a block in place of its elements from `position` on. -/
def patch (samples : List Sample) (position : Nat) (block : List Sample) : List Sample :=
  samples.take position ++ block ++ samples.drop (position + block.length)

/-- The words of a span. -/
def Span.view (s : Span) : View := ⟨s.start, s.length⟩

namespace Arena

/-- The span starts at a whole word and lies in the arena. -/
def Contains (a : Arena) (s : Span) : Prop := s.Aligned ∧ s.stop ≤ a.capacity

/-- All words. -/
def whole (a : Arena) : View := ⟨0, a.capacity⟩

/-- The first word of a run and the word after its last one, if the run lies in the arena. -/
def range (a : Arena) (offset : UInt32) (length : Nat) : Except EngineError (Nat × Nat) :=
  if offset % Span.sampleBytes ≠ 0 then .error (.invalidRegion offset length)
  else
    let start := (offset / Span.sampleBytes).toNat
    match sum? start length with
    | none => .error (.invalidRegion offset length)
    | some stop =>
      if stop ≤ a.capacity then .ok (start, stop) else .error (.invalidRegion offset length)

/-- Lends one run. -/
def view? (a : Arena) (offset : UInt32) (length : Nat) : Option (Except EngineError View) :=
  match a.locate offset length with
  | .error e => some (.error e)
  | .ok start => do
    let view ← a.whole.slice? start (start + length)
    return .ok view

/-- Lends the run to write and the run to read. The words are cut where the later run starts. -/
def views? (a : Arena) (output input : UInt32) (length : Nat) :
    Option (Except EngineError (View × View)) :=
  match a.range output length with
  | .error e => some (.error e)
  | .ok (outStart, outStop) =>
    match a.range input length with
    | .error e => some (.error e)
    | .ok (inpStart, inpStop) =>
      if outStart < inpStop ∧ inpStart < outStop then
        some (.error (.invalidRegion output length))
      else if outStart < inpStart then do
        let (head, tail) ← a.whole.splitAt? inpStart
        let out ← head.slice? outStart outStop
        let inp ← tail.slice? 0 length
        return .ok (out, inp)
      else do
        let (head, tail) ← a.whole.splitAt? outStart
        let out ← tail.slice? 0 length
        let inp ← head.slice? inpStart inpStop
        return .ok (out, inp)

namespace RunPair

def outputView (runs : RunPair) : View := ⟨runs.output, runs.length⟩

def inputView (runs : RunPair) : View := ⟨runs.input, runs.length⟩

end RunPair

end Arena

/-! ## Writing through a view -/

theorem getElem?_patch {samples block : List Sample} {position : Nat}
    (h : position + block.length ≤ samples.length) (i : Nat) :
    (patch samples position block)[i]? =
      if position ≤ i ∧ i < position + block.length then block[i - position]? else samples[i]? := by
  have htake : (samples.take position).length = position := List.length_take_of_le (by omega)
  simp only [patch, List.append_assoc]
  rcases Nat.lt_or_ge i position with hi | hi
  · rw [List.getElem?_append_left (by omega), if_neg (by omega), List.getElem?_take_of_lt hi]
  · rw [List.getElem?_append_right (by omega), htake]
    rcases Nat.lt_or_ge i (position + block.length) with hb | hb
    · rw [if_pos ⟨hi, hb⟩, List.getElem?_append_left (by omega)]
    · rw [if_neg (by omega), List.getElem?_append_right (by omega), List.getElem?_drop]
      congr 1
      omega

namespace View

variable {v : View} {words after : Cells}

@[simp] theorem length_read (v : View) (words : Cells) : (v.read words).length = v.length := by
  simp [read]

theorem getElem?_read (v : View) (words : Cells) (i : Nat) :
    (v.read words)[i]? = if i < v.length then some (words.get (v.start + i)) else none := by
  rw [read, List.getElem?_map]
  split_ifs with h
  · rw [List.getElem?_range h]
    rfl
  · rw [List.getElem?_eq_none (by simpa using h)]
    rfl

theorem read_congr (h : ∀ i, v.Covers i → after.get i = words.get i) :
    v.read after = v.read words := by
  refine List.map_congr_left fun i hi => h _ ⟨Nat.le_add_right _ _, ?_⟩
  have := List.mem_range.mp hi
  omega

/-- A view of words that there are reads what the row reads. -/
theorem read_eq (h : v.start + v.length ≤ words.size) :
    v.read words = words.read v.start v.length := by
  apply List.ext_getElem?
  intro i
  rw [getElem?_read, Cells.read_getElem?]
  split_ifs <;> first | rfl | omega

/-- What writing through a view does: the view changes the way a list does, and no word outside
of it changes. -/
structure Confines (v : View) (words : Cells) (writes : List (Nat × List Sample))
    (after : Cells) : Prop where
  size_eq : after.size = words.size
  read_eq : v.read after =
    writes.foldl (fun samples w => patch samples w.1 w.2) (v.read words)
  get_eq : ∀ i, ¬v.Covers i → after.get i = words.get i

theorem confines_write (hv : v.start + v.length ≤ words.size) {position : Nat}
    {block : List Sample} (h : position + block.length ≤ v.length) :
    v.Confines words [(position, block)] (words.write (v.start + position) block) where
  size_eq := Cells.size_write ..
  read_eq := by
    apply List.ext_getElem?
    intro i
    simp only [List.foldl_cons, List.foldl_nil]
    rw [getElem?_patch (by simpa using h), getElem?_read, getElem?_read, Cells.get_write]
    rcases Nat.lt_or_ge i v.length with hi | hi
    · rw [if_pos hi, if_pos hi]
      by_cases hrun : position ≤ i ∧ i < position + block.length
      · have hsub : v.start + i - (v.start + position) = i - position := by omega
        rw [if_pos (by omega), if_pos hrun, hsub, List.getD_eq_getElem _ _ (by omega),
          List.getElem?_eq_getElem]
      · rw [if_neg hrun]
        split_ifs with hw
        · rw [List.getD_eq_default _ _ (by omega)]
        · rfl
    · rw [if_neg (by omega), if_neg (by omega), if_neg (by omega)]
  get_eq i hi := by
    rw [Covers] at hi
    rw [Cells.get_write]
    split_ifs with hw
    · rw [List.getD_eq_default _ _ (by omega)]
    · rfl

/-- Writes that fit into the view have a result, and stay in the view. -/
theorem confines_writes (hv : v.start + v.length ≤ words.size)
    (writes : List (Nat × List Sample)) (h : ∀ w ∈ writes, w.1 + w.2.length ≤ v.length) :
    ∃ after, v.writes? words writes = some after ∧ v.Confines words writes after := by
  induction writes generalizing words with
  | nil => exact ⟨words, rfl, rfl, rfl, fun _ _ => rfl⟩
  | cons w rest ih =>
    obtain ⟨position, block⟩ := w
    obtain ⟨hfits, hrest⟩ := List.forall_mem_cons.mp h
    have hstep := confines_write hv hfits
    obtain ⟨after, hafter, hconf⟩ := ih (by rwa [hstep.size_eq]) hrest
    refine ⟨after, ?_, hconf.size_eq.trans hstep.size_eq, ?_, fun i hi =>
      (hconf.get_eq i hi).trans (hstep.get_eq i hi)⟩
    · rw [writes?, write?, if_pos hfits]
      exact hafter
    · rw [hconf.read_eq, hstep.read_eq]
      rfl

end View

/-! ## Lending -/

namespace Arena

open AudioFraming.Span

variable {a : Arena}

theorem locate_of_not_contains {s : Span} (h : ¬a.Contains s) :
    a.locate s.offset s.length = .error (.invalidRegion s.offset s.length) := by
  unfold locate
  dsimp only
  split_ifs with hal hroom
  · rfl
  · exact absurd ⟨not_not.mp hal, hroom⟩ h
  · rfl

theorem locate_of_contains {s : Span} (h : a.Contains s) :
    a.locate s.offset s.length = .ok s.start := locate_span h.1 rfl h.2

theorem contains_of_locate {s : Span} {start : Nat}
    (h : a.locate s.offset s.length = .ok start) : a.Contains s := by
  by_contra hs
  rw [locate_of_not_contains hs] at h
  cases h

/-- Checking the sum refuses nothing else: it only overflows far beyond the last word. -/
theorem range_eq (hcap : a.capacity < UInt64.size) (offset : UInt32) (length : Nat) :
    a.range offset length =
      (a.locate offset length).map fun start => (start, start + length) := by
  unfold range locate
  dsimp only
  split_ifs with hal hroom
  · rfl
  · rw [sum?, if_pos (by omega)]
    exact if_pos hroom
  · rw [sum?]
    split_ifs
    · exact if_neg hroom
    · rfl

theorem view?_eq (a : Arena) (offset : UInt32) (length : Nat) :
    a.view? offset length = some ((a.locate offset length).map fun start => ⟨start, length⟩) := by
  unfold view?
  cases hlocate : a.locate offset length with
  | error e => rfl
  | ok start =>
    have hroom : start + length ≤ a.whole.length := (locate_eq_ok hlocate).2
    have hslice : a.whole.slice? start (start + length) = some ⟨start, length⟩ := by
      rw [View.slice?, if_pos ⟨Nat.le_add_right _ _, hroom⟩, Nat.add_sub_cancel_left, whole,
        Nat.zero_add]
    simp only [hslice, Option.bind_eq_bind, Option.bind_some]
    rfl

/-- The runs of a pair can be cut out of the words, whichever comes first. -/
theorem views?_eq (hcap : a.capacity < UInt64.size) (output input : UInt32) (length : Nat) :
    a.views? output input length =
      some ((a.pair output input length).map fun runs => (runs.outputView, runs.inputView)) := by
  unfold views? pair
  rw [range_eq hcap, range_eq hcap]
  cases hout : a.locate output length with
  | error e => rfl
  | ok out =>
    cases hinp : a.locate input length with
    | error e => rfl
    | ok inp =>
      have houtRoom := (locate_eq_ok hout).2
      have hinpRoom := (locate_eq_ok hinp).2
      dsimp only [Except.map]
      split_ifs with hmeet horder
      · rfl
      · have hsplit : inp ≤ a.capacity := by omega
        have hhead : out ≤ out + length ∧ out + length ≤ inp := by omega
        have htail : 0 ≤ length ∧ length ≤ a.capacity - inp := by omega
        simp only [whole, View.splitAt?, View.slice?, hsplit, hhead, htail, Option.bind_eq_bind,
          Option.bind_some, and_self, if_true]
        simp [RunPair.outputView, RunPair.inputView]
      · have hsplit : out ≤ a.capacity := by omega
        have hhead : inp ≤ inp + length ∧ inp + length ≤ out := by omega
        have htail : 0 ≤ length ∧ length ≤ a.capacity - out := by omega
        simp only [whole, View.splitAt?, View.slice?, hsplit, hhead, htail, Option.bind_eq_bind,
          Option.bind_some, and_self, if_true]
        simp [RunPair.outputView, RunPair.inputView]

/-- Runs of one length meet exactly if a word lies in both. -/
theorem meet_iff (s t : Span) (h : s.length = t.length) :
    (s.start < t.stop ∧ t.start < s.stop) ↔ ∃ i, s.Covers i ∧ t.Covers i := by
  simp only [Covers, stop]
  constructor
  · rintro ⟨hst, hts⟩
    exact ⟨max s.start t.start, by omega, by omega⟩
  · rintro ⟨i, hs, ht⟩
    omega

/-- What a pair of runs gives to its borrower. -/
structure RunPair.Grants (runs : RunPair) (a : Arena) (out inp : Span) : Prop where
  outputView_eq : runs.outputView = out.view
  inputView_eq : runs.inputView = inp.view
  outputBlock_eq : runs.outputBlock a = out.view.read a.words
  inputBlock_eq : runs.inputBlock a = inp.view.read a.words
  /-- Whatever is written to the one run stays in it, and the other run reads as before. -/
  confines : ∀ writes : List (Nat × List Sample), (∀ w ∈ writes, w.1 + w.2.length ≤ out.length) →
    ∃ words, out.view.writes? a.words writes = some words ∧
      out.view.Confines a.words writes words ∧ inp.view.read words = inp.view.read a.words
  /-- Storing a block is one such write. -/
  store_eq : ∀ block, out.view.writes? a.words [(0, block.take out.length)] =
    some (runs.store a block).words

theorem grants_of_pair {output input : UInt32} {length : Nat} {runs : RunPair}
    (h : a.pair output input length = .ok runs) :
    runs.Grants a ⟨output, length⟩ ⟨input, length⟩ := by
  obtain ⟨hout, hinp, hlen, hmeet⟩ := pair_eq_ok h
  obtain ⟨houtEq, houtRoom⟩ := locate_eq_ok hout
  obtain ⟨hinpEq, hinpRoom⟩ := locate_eq_ok hinp
  obtain ⟨out, inp, len⟩ := runs
  obtain rfl : len = length := hlen
  obtain rfl : out = start ⟨output, len⟩ := houtEq
  obtain rfl : inp = start ⟨input, len⟩ := hinpEq
  have hout : (Span.view ⟨output, len⟩).read a.words = _ := View.read_eq houtRoom
  have hinp : (Span.view ⟨input, len⟩).read a.words = _ := View.read_eq hinpRoom
  refine ⟨rfl, rfl, hout.symm, hinp.symm, ?_, ?_⟩
  · intro writes hfit
    obtain ⟨words, hwords, hconf⟩ :=
      View.confines_writes (v := Span.view ⟨output, len⟩) houtRoom writes hfit
    refine ⟨words, hwords, hconf, View.read_congr fun i hi => hconf.get_eq i fun ho => ?_⟩
    exact hmeet ((meet_iff ⟨output, len⟩ ⟨input, len⟩ rfl).mpr ⟨i, ho, hi⟩)
  · intro block
    have hfit : 0 + (block.take len).length ≤ (Span.view ⟨output, len⟩).length := by
      rw [Nat.zero_add]
      exact List.length_take_le ..
    rw [View.writes?, View.write?, if_pos hfit, RunPair.store, Cells.cut_eq_take]
    rfl

theorem exists_pair_iff (output input : UInt32) (length : Nat) :
    (∃ runs, a.pair output input length = .ok runs) ↔
      a.Contains ⟨output, length⟩ ∧ a.Contains ⟨input, length⟩ ∧
        ∀ i, Covers ⟨output, length⟩ i → ¬Covers ⟨input, length⟩ i := by
  constructor
  · rintro ⟨runs, h⟩
    obtain ⟨hout, hinp, -, hmeet⟩ := pair_eq_ok h
    obtain ⟨houtEq, -⟩ := locate_eq_ok hout
    obtain ⟨hinpEq, -⟩ := locate_eq_ok hinp
    rw [houtEq, hinpEq] at hmeet
    refine ⟨contains_of_locate hout, contains_of_locate hinp, fun i ho hi => ?_⟩
    exact hmeet ((meet_iff ⟨output, length⟩ ⟨input, length⟩ rfl).mpr ⟨i, ho, hi⟩)
  · rintro ⟨hout, hinp, hcover⟩
    refine ⟨⟨start ⟨output, length⟩, start ⟨input, length⟩, length⟩, ?_⟩
    rw [pair, locate_of_contains hout, locate_of_contains hinp]
    refine if_neg fun hmeet => ?_
    obtain ⟨i, ho, hi⟩ := (meet_iff ⟨output, length⟩ ⟨input, length⟩ rfl).mp hmeet
    exact hcover i ho hi

/-- The run to write is looked at first, and answers for an overlap. -/
theorem pair_eq_error {output input : UInt32} {length : Nat} {e : EngineError}
    (h : a.pair output input length = .error e) :
    (a.Contains ⟨output, length⟩ → ¬a.Contains ⟨input, length⟩ → e = .invalidRegion input length) ∧
      ((a.Contains ⟨output, length⟩ → a.Contains ⟨input, length⟩) →
        e = .invalidRegion output length) := by
  by_cases hout : a.Contains ⟨output, length⟩
  · by_cases hinp : a.Contains ⟨input, length⟩
    · rw [pair, locate_of_contains hout, locate_of_contains hinp] at h
      dsimp only at h
      split_ifs at h
      exact ⟨fun _ hn => absurd hinp hn, fun _ => (Except.error.inj h).symm⟩
    · rw [pair, locate_of_contains hout, locate_of_not_contains hinp] at h
      exact ⟨fun _ _ => (Except.error.inj h).symm, fun hn => absurd (hn hout) hinp⟩
  · rw [pair, locate_of_not_contains hout] at h
    exact ⟨fun hn => absurd hn hout, fun _ => (Except.error.inj h).symm⟩

/-- Lending two runs never goes out of range, and does what `pair` says. It succeeds exactly if
both runs lie in the arena at whole words and share no word; the borrower then gets the words of
these runs and no others. A refusal names the run that is wrong, the one to write if both are or if
they meet. -/
theorem views_exact (hcap : a.capacity < UInt64.size) (output input : UInt32) (length : Nat) :
    a.views? output input length =
        some ((a.pair output input length).map fun runs => (runs.outputView, runs.inputView)) ∧
      ((∃ runs, a.pair output input length = .ok runs) ↔
        a.Contains ⟨output, length⟩ ∧ a.Contains ⟨input, length⟩ ∧
          ∀ i, Covers ⟨output, length⟩ i → ¬Covers ⟨input, length⟩ i) ∧
      (∀ runs, a.pair output input length = .ok runs →
        runs.Grants a ⟨output, length⟩ ⟨input, length⟩) ∧
      ∀ e, a.pair output input length = .error e →
        (a.Contains ⟨output, length⟩ → ¬a.Contains ⟨input, length⟩ →
          e = .invalidRegion input length) ∧
        ((a.Contains ⟨output, length⟩ → a.Contains ⟨input, length⟩) →
          e = .invalidRegion output length) ∧
        ∀ block, a.after (.store output input length block) = a := by
  refine ⟨views?_eq hcap output input length, exists_pair_iff output input length,
    fun runs => grants_of_pair, fun e he => ?_⟩
  obtain ⟨hinp, hout⟩ := pair_eq_error he
  refine ⟨hinp, hout, fun block => ?_⟩
  simp only [after, he]

/-- In an arena of eight words the first and the last two are lent, either for writing. A run that
starts one word after the other meets it. -/
theorem views_exact_of_both_orders :
    (ofCapacity 8).capacity < UInt64.size ∧
      (ofCapacity 8).views? 0 24 2 = some (.ok (⟨0, 2⟩, ⟨6, 2⟩)) ∧
      (ofCapacity 8).views? 24 0 2 = some (.ok (⟨6, 2⟩, ⟨0, 2⟩)) ∧
      (ofCapacity 8).views? 4 0 2 = some (.error (.invalidRegion 4 2)) ∧
      ∃ words, View.writes? ⟨6, 2⟩ (Cells.ofSize 8) [(1, [.one])] = some words ∧
        View.read ⟨6, 2⟩ words = [.zero, .one] ∧ View.read ⟨0, 2⟩ words = [.zero, .zero] := by
  have hcap : (ofCapacity 8).capacity < UInt64.size := by decide
  have hpair : (ofCapacity 8).pair 24 0 2 = .ok ⟨6, 0, 2⟩ := by rfl
  obtain ⟨hviews, -, hgrants, -⟩ := views_exact hcap 24 0 2
  obtain ⟨words, hwords, hconf, hinp⟩ := (hgrants _ hpair).confines [(1, [.one])] (by simp)
  exact ⟨hcap, (views_exact hcap 0 24 2).1, hviews, (views_exact hcap 4 0 2).1, words, hwords,
    hconf.read_eq, hinp⟩

end Arena

end AudioFraming
