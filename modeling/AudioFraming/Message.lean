import AudioFraming.Json.Reader
import AudioFraming.Phase

/-!
# Control messages

A command travels as a JSON text: an object whose only member of the key `cmd` is
the command's name, or an array of that name alone. Other members of the object
are read and ignored.

What makes a text another message is refused as soon as it is read: a value of
another kind, a second `cmd`, an empty array. A missing `cmd` and a longer array
show only at the closing bracket.
-/

namespace AudioFraming

namespace Command

open Json

/-- The name of a command, as a JSON string. -/
def readName : Reader Command := fun s =>
  match skipBlanks s with
  | '"' :: s => do
    let (name, s) ← readString s
    match ofName? name with
    | some c => .ok (c, s)
    | none => .error .unwanted
  | '[' :: _ | '{' :: _ => .error .unwanted
  | s => do
    let _ ← readValue 0 s
    .error .unwanted

/-- A member of a message, given the command found before it. -/
def readMember (found : Option Command) (key : String) : Reader (Option Command) := fun s =>
  if key = "cmd" then
    match found with
    | some _ => .error .unwanted
    | none => do
      let (c, s) ← readName (← readColon s)
      .ok (some c, s)
  else do
    let (_, s) ← readValue (maxDepth - 1) (← readColon s)
    .ok (found, s)

/-- An item of a message: the first is the name, and any other makes it a longer array. -/
def readItem (found : Option (Command × Bool)) : Reader (Option (Command × Bool)) := fun s =>
  match found with
  | none => do
    let (c, s) ← readName s
    .ok (some (c, true), s)
  | some (c, _) => do
    let (_, s) ← readValue (maxDepth - 1) s
    .ok (some (c, false), s)

/-- A message whose opening brace has been read. -/
def readObject : Reader Command := fun s =>
  match skipBlanks s with
  | '}' :: _ => .error .unwanted
  | _ => do
    let (found, s) ← foldMembers readMember s none s
    match found with
    | some c => .ok (c, s)
    | none => .error .unwanted

/-- A message whose opening bracket has been read. -/
def readArray : Reader Command := fun s =>
  match skipBlanks s with
  | ']' :: _ => .error .unwanted
  | _ => do
    let (found, s) ← foldItems readItem s none s
    match found with
    | some (c, true) => .ok (c, s)
    | _ => .error .unwanted

/-- A message at the front of a text. -/
def read : Reader Command := fun s =>
  match skipBlanks s with
  | '{' :: s => readObject s
  | '[' :: s => readArray s
  | s => do
    let _ ← readValue 0 s
    .error .unwanted

/-- The command that a text asks for. -/
def ofText (text : String) : Except Fault Command := do
  let (c, rest) ← read text.toList
  if skipBlanks rest = [] then .ok c else .error .malformed

/-- The usual spelling of a command. -/
def toText (c : Command) : String := (Json.object [("cmd", .string c.name)]).render

end Command

end AudioFraming
