/-!
# Phases and commands

A framer is created, runs, may be paused and resumed, and stops for good. A
running framer whose engine fails is bypassed: a pause that only a stop ends.
-/

namespace AudioFraming

inductive Phase where
  | created
  | running
  | paused
  | bypassed
  | stopped
deriving DecidableEq, Inhabited

/-- What the control side can ask for. -/
inductive Command where
  /-- Give everything back and stop for good. -/
  | stop
  /-- Pass audio through, keep what is buffered. -/
  | pause
  /-- Go on from what is buffered. -/
  | resume
deriving DecidableEq, Inhabited

namespace Phase

def name : Phase → String
  | created => "created"
  | running => "running"
  | paused => "paused"
  | bypassed => "bypassed"
  | stopped => "stopped"

/-- The number by which foreign hosts know the phase. -/
def code : Phase → UInt8
  | created => 0
  | running => 1
  | paused => 2
  | bypassed => 3
  | stopped => 4

/-- Whether frames go through the engine. -/
def isRunning (p : Phase) : Bool := p = running

/-- The phase that a command leads to, if it applies. -/
def after : Phase → Command → Option Phase
  | running, .pause => some paused
  | paused, .resume => some running
  | stopped, .stop => none
  | _, .stop => some stopped
  | _, _ => none

theorem after_ne_self (p q : Phase) (c : Command) (h : p.after c = some q) : q ≠ p := by
  cases p <;> cases c <;> simp [after] at h <;> subst h <;> decide

end Phase

namespace Command

def name : Command → String
  | stop => "stop"
  | pause => "pause"
  | resume => "resume"

def ofName? : String → Option Command
  | "stop" => some stop
  | "pause" => some pause
  | "resume" => some resume
  | _ => none

/-- The command with a number, for hosts that send numbers. -/
def ofCode? (code : UInt32) : Option Command :=
  if code = 0 then some stop
  else if code = 1 then some pause
  else if code = 2 then some resume
  else none

theorem ofName?_name (c : Command) : ofName? c.name = some c := by
  cases c <;> rfl

end Command

end AudioFraming
