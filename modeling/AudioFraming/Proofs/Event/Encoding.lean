import AudioFraming.Event
import AudioFraming.Proofs.Message.Language

/-!
# The encoding of events

The text of an event spells one object. Its members are what the event tells, in order,
every text to the character and every number to the unit (`text_faithful`). None of them
has the key of a command, and whatever an engine says in its errors stands inside a string,
so no event is read as a command.
-/

namespace AudioFraming

namespace Json

/-- The natural number that a numeral spells: one of digits alone. -/
def Numeral.natural? (n : Numeral) : Option Nat :=
  if n.negative = false ∧ n.fraction = [] ∧ n.exponent = none then
    some (Nat.ofDigitChars 10 n.whole 0)
  else none

theorem Numeral.natural?_ofNat (n : Nat) : (Numeral.ofNat n).natural? = some n :=
  congrArg some (Nat.ofDigitChars_toDigits (by decide) (by decide))

end Json

/-- What a member of an event tells. -/
inductive Datum where
  | word (text : String)
  | count (n : Nat)
deriving DecidableEq

/-- What a value tells, if it is a string or a natural number. -/
def Json.datum? : Json → Option Datum
  | .string text => some (.word text)
  | .number n => n.natural?.map .count
  | _ => none

namespace Event

open Json

/-- How a phase is written. -/
def phaseWord : Phase → String
  | .created => "created"
  | .running => "running"
  | .paused => "paused"
  | .bypassed => "bypassed"
  | .stopped => "stopped"

/-- How a ring is written. -/
def sideWord : Side → String
  | .input => "input"
  | .output => "output"

/-- What an event tells: its kind, and then its fields in their order. -/
def data : Event → List (String × Datum)
  | started quantum frame latency =>
    [("type", .word "started"), ("quantum_size", .count quantum), ("frame_size", .count frame),
      ("latency_samples", .count latency)]
  | phaseChanged phase => [("type", .word "state_changed"), ("state", .word (phaseWord phase))]
  | overflow side evicted =>
    [("type", .word "overflow"), ("buffer", .word (sideWord side)), ("evicted", .count evicted)]
  | underflow side => [("type", .word "underflow"), ("buffer", .word (sideWord side))]
  | emptyPush side => [("type", .word "empty_push"), ("buffer", .word (sideWord side))]
  | engineFailure e => [("type", .word "engine_failure"), ("error", .word e.message)]
  | misconfigured e => [("type", .word "misconfigured"), ("error", .word e.message)]

theorem name_eq_phaseWord (phase : Phase) : phase.name = phaseWord phase := by
  cases phase <;> rfl

theorem name_eq_sideWord (side : Side) : side.name = sideWord side := by
  cases side <;> rfl

/-- The members of the object that an event is written as. -/
def members (e : Event) : List (String × Json) := ("type", .string e.kind) :: e.details

theorem map_datum?_members (e : Event) :
    e.members.map (fun m => (m.1, m.2.datum?)) = e.data.map fun m => (m.1, some m.2) := by
  cases e <;>
    simp [members, data, kind, details, datum?, Json.ofNat, Numeral.natural?_ofNat,
      name_eq_phaseWord, name_eq_sideWord]

/-- Every member is a string, or a number of the event. -/
theorem string_or_ofNat_of_mem {e : Event} {m : String × Json} (h : m ∈ e.members) :
    (∃ text, m.2 = .string text) ∨ ∃ n, m.2 = .ofNat n ∧ (m.1, .count n) ∈ e.data := by
  cases e <;>
    simp only [members, details, List.mem_cons, List.not_mem_nil, or_false] at h <;>
    rcases h with rfl | rfl | rfl | rfl <;> simp [data]

theorem writable_toJson {e : Event} (h : ∀ m ∈ e.data, ∀ n, m.2 = .count n → n < 2 ^ 64) :
    Writable maxDepth e.toJson := by
  intro m hm
  rcases string_or_ofNat_of_mem hm with ⟨text, htext⟩ | ⟨n, hn, hmem⟩
  · rw [htext]
    trivial
  · rw [hn]
    exact ⟨Numeral.ofNat_wellFormed n, Numeral.isFinite_ofNat (h _ hmem n rfl)⟩

theorem requests_members (e : Event) : Command.requests e.members = [] := by
  cases e <;> simp [Command.requests, members, details]

/-- The text of an event is an object that tells what the event tells and nothing else, and it is
not the text of a command. The numbers are of 64 bits. -/
theorem text_faithful (e : Event) (h : ∀ m ∈ e.data, ∀ n, m.2 = .count n → n < 2 ^ 64) :
    (∃ members, (∀ v, IsDocument e.toText v ↔ v = .object members) ∧
      members.map (fun m => (m.1, m.2.datum?)) = e.data.map fun m => (m.1, some m.2)) ∧
    Command.ofText e.toText = .error .unwanted := by
  have hdocument : ∀ v, IsDocument e.toText v ↔ v = .object e.members :=
    fun v => isDocument_render_iff (writable_toJson h)
  refine ⟨⟨e.members, hdocument, e.map_datum?_members⟩, ?_⟩
  rw [Command.ofText_eq_ofJson ((hdocument _).mpr rfl), Command.ofJson, requests_members]

/-- The largest number there is. -/
theorem text_faithful_of_overflow :
    (∀ m ∈ (overflow .input (2 ^ 64 - 1)).data, ∀ n, m.2 = .count n → n < 2 ^ 64) ∧
      Command.ofText (overflow .input (2 ^ 64 - 1)).toText = .error .unwanted := by
  have h : ∀ m ∈ (overflow .input (2 ^ 64 - 1)).data, ∀ n, m.2 = .count n → n < 2 ^ 64 := by
    simp [data]
  exact ⟨h, (text_faithful _ h).2⟩

/-- An engine that fails with the end of a string and the member of a command. -/
example : Command.ofText (engineFailure (.createFailed "\",\"cmd\":\"stop")).toText =
    .error .unwanted := by decide +kernel

end Event

end AudioFraming
