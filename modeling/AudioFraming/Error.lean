/-!
# Errors

Two families of errors: those an engine reports for one of its own calls, and
those that make a setup impossible. Each constructor is a cause; `message` holds
the wording.

An abort is not reported to anyone. It ends the program where it happens, and is
an outcome of the setup all the same, so that nothing after it takes place.
-/

namespace AudioFraming

/-- What an engine can report. -/
inductive EngineError where
  | createFailed (reason : String)
  | invalidHandle (handle : UInt32)
  /-- A byte offset and a length in samples that leave the arena, are misaligned, or overlap. -/
  | invalidRegion (offset : UInt32) (length : Nat)
deriving DecidableEq, Inhabited

namespace EngineError

def message : EngineError → String
  | .createFailed reason => s!"engine instance could not be created: {reason}"
  | .invalidHandle handle => s!"unknown engine handle {handle.toNat}"
  | .invalidRegion offset length =>
    s!"region at byte offset {offset.toNat} ({length} samples) is outside linear memory"

end EngineError

/-- Where the program ends instead of giving an answer. -/
inductive Abort where
  /-- The result of an operation on numbers does not fit their type. -/
  | overflow (operation : String)
  /-- A run of words ends beyond the last one. -/
  | outOfRange (stop size : Nat)
deriving DecidableEq, Inhabited

namespace Abort

def message : Abort → String
  | .overflow operation => s!"attempt to {operation} with overflow"
  | .outOfRange stop size => s!"range end index {stop} out of range for slice of length {size}"

end Abort

/-- Why sizes, memory or the moment do not allow an operation. -/
inductive SetupError where
  | zeroSize (what : String)
  | pushExceedsCapacity (requested capacity : Nat)
  | frameSizeMismatch (configured announced : Nat)
  | capacityTooSmall (capacity required : Nat)
  | jitterTooLarge (jitter limit : Nat)
  | outOfMemory (requested free : Nat)
  | invalidState (action state : String)
  | engine (error : EngineError)
  | aborted (cause : Abort)
deriving DecidableEq, Inhabited

namespace SetupError

def message : SetupError → String
  | .zeroSize what => s!"{what} must be non-zero"
  | .pushExceedsCapacity requested capacity =>
    s!"push of {requested} samples exceeds ring capacity {capacity}"
  | .frameSizeMismatch configured announced =>
    s!"configured frame size {configured} does not match engine frame size {announced}"
  | .capacityTooSmall capacity required =>
    s!"ring capacity {capacity} is below the required {required} samples"
  | .jitterTooLarge jitter limit =>
    s!"{jitter} jitter frames exceeds the maximum of {limit}"
  | .outOfMemory requested free =>
    s!"linear memory exhausted: requested {requested} samples, {free} free"
  | .invalidState action state => s!"cannot {action} while {state}"
  | .engine error => error.message
  | .aborted cause => cause.message

end SetupError

end AudioFraming
