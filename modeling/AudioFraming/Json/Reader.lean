import AudioFraming.Json.Value

/-!
# Reading JSON

Readers go from left to right and stop at the first fault. A text that ends where
more is needed is truncated, whatever could have followed; any other departure
from the grammar is malformed. `foldItems` and `foldMembers` run through an array
or an object and let a step decide, item by item, what to make of it, so that a
decoder can refuse a value before the rest is looked at.

Loops over a text are bounded by the text itself: each round takes a character off
it or more, so one round for each of its characters is enough.
-/

namespace AudioFraming

namespace Json

/-- Why a text was refused. -/
inductive Fault where
  /-- The text ended too early. -/
  | truncated
  | malformed
  /-- Well-formed so far, but not what was asked for. -/
  | unwanted
deriving DecidableEq, Inhabited

/-- Takes something off the front of a text, and answers it with the rest. -/
abbrev Reader (α : Type) := List Char → Except Fault (α × List Char)

variable {α β : Type}

def isBlank (c : Char) : Bool := c = ' ' || c = '\t' || c = '\n' || c = '\r'

def skipBlanks (s : List Char) : List Char := s.dropWhile isBlank

/-! ## Numerals -/

/-- One digit or more. -/
def readDigits : Reader (List Char) := fun s =>
  match s.span Char.isDigit with
  | ([], []) => .error .truncated
  | ([], _ :: _) => .error .malformed
  | (digits, rest) => .ok (digits, rest)

/-- The digits before the point. A leading zero stands alone. -/
def readWhole : Reader (List Char)
  | '0' :: c :: rest => if c.isDigit then .error .malformed else .ok (['0'], c :: rest)
  | s => readDigits s

def readFraction : Reader (List Char)
  | '.' :: s => readDigits s
  | s => .ok ([], s)

def readExponentSign : List Char → ExponentSign × List Char
  | '+' :: s => (.plus, s)
  | '-' :: s => (.minus, s)
  | s => (.absent, s)

def readExponent : Reader (Option Exponent)
  | [] => .ok (none, [])
  | c :: s =>
    if c = 'e' ∨ c = 'E' then
      let (sign, s) := readExponentSign s
      match readDigits s with
      | .error fault => .error fault
      | .ok (digits, rest) => .ok (some ⟨c = 'E', sign, digits⟩, rest)
    else .ok (none, c :: s)

def readNumeral : Reader Numeral := fun s => do
  let (negative, s) := match s with
    | '-' :: s => (true, s)
    | s => (false, s)
  let (whole, s) ← readWhole s
  let (fraction, s) ← readFraction s
  let (exponent, s) ← readExponent s
  let n : Numeral := ⟨negative, whole, fraction, exponent⟩
  if n.isFinite then .ok (n, s) else .error .malformed

/-! ## Strings -/

def hexValue? (c : Char) : Option Nat :=
  if '0' ≤ c ∧ c ≤ '9' then some (c.toNat - 48)
  else if 'a' ≤ c ∧ c ≤ 'f' then some (c.toNat - 87)
  else if 'A' ≤ c ∧ c ≤ 'F' then some (c.toNat - 55)
  else none

/-- Four hexadecimal digits. Where fewer than four bytes are left the text is truncated, whatever
these bytes are. -/
def readUnit : Reader Nat
  | a :: b :: c :: d :: rest =>
    match hexValue? a, hexValue? b, hexValue? c, hexValue? d with
    | some a, some b, some c, some d => .ok (((a * 16 + b) * 16 + c) * 16 + d, rest)
    | _, _, _, _ => .error .malformed
  | s =>
    if s.foldr (fun c bytes => c.utf8Size + bytes) 0 < 4 then .error .truncated
    else .error .malformed

/-- A character by its code in hexadecimal, in two halves beyond the basic plane. -/
def readCode : Reader Char := fun s => do
  let (unit, s) ← readUnit s
  if 0xDC00 ≤ unit ∧ unit < 0xE000 then .error .malformed
  else if 0xD800 ≤ unit ∧ unit < 0xDC00 then
    match s with
    | [] | ['\\'] => .error .truncated
    | '\\' :: 'u' :: s => do
      let (low, s) ← readUnit s
      if 0xDC00 ≤ low ∧ low < 0xE000 then
        .ok (Char.ofNat (0x10000 + (unit - 0xD800) * 0x400 + (low - 0xDC00)), s)
      else .error .malformed
    | _ => .error .malformed
  else .ok (Char.ofNat unit, s)

/-- What follows a backslash. -/
def readEscape : Reader Char
  | [] => .error .truncated
  | 'u' :: s => readCode s
  | '"' :: s => .ok ('"', s)
  | '\\' :: s => .ok ('\\', s)
  | '/' :: s => .ok ('/', s)
  | 'b' :: s => .ok (Char.ofNat 8, s)
  | 'f' :: s => .ok (Char.ofNat 12, s)
  | 'n' :: s => .ok ('\n', s)
  | 'r' :: s => .ok ('\r', s)
  | 't' :: s => .ok ('\t', s)
  | _ => .error .malformed

/-- The characters up to the closing quote, in at most one round for each element of the first
list. -/
def readChars : List Char → Reader (List Char)
  | [], _ => .error .truncated
  | _ :: _, [] => .error .truncated
  | _ :: _, '"' :: s => .ok ([], s)
  | _ :: rounds, '\\' :: s => do
    let (c, s) ← readEscape s
    let (rest, s) ← readChars rounds s
    .ok (c :: rest, s)
  | _ :: rounds, c :: s => do
    if c.toNat < 32 then .error .malformed
    let (rest, s) ← readChars rounds s
    .ok (c :: rest, s)

/-- A string whose opening quote has been read. -/
def readString : Reader String := fun s => do
  let (chars, s) ← readChars s s
  .ok (String.ofList chars, s)

/-! ## Arrays and objects -/

/-- Items up to the closing bracket, at least one, and at most one for each element of the list. -/
def foldItems (step : β → Reader β) : List Char → β → Reader β
  | [], _, _ => .error .truncated
  | _ :: rounds, acc, s => do
    let (acc, s) ← step acc s
    match skipBlanks s with
    | ',' :: s => foldItems step rounds acc s
    | ']' :: s => .ok (acc, s)
    | [] => .error .truncated
    | _ => .error .malformed

/-- Members up to the closing brace, at least one, and at most one for each element of the list.
The step is told the key and reads from the colon on. -/
def foldMembers (step : β → String → Reader β) : List Char → β → Reader β
  | [], _, _ => .error .truncated
  | _ :: rounds, acc, s =>
    match skipBlanks s with
    | '"' :: s => do
      let (key, s) ← readString s
      let (acc, s) ← step acc key s
      match skipBlanks s with
      | ',' :: s => foldMembers step rounds acc s
      | '}' :: s => .ok (acc, s)
      | [] => .error .truncated
      | _ => .error .malformed
    | [] => .error .truncated
    | _ => .error .malformed

def readColon (s : List Char) : Except Fault (List Char) :=
  match skipBlanks s with
  | ':' :: s => .ok s
  | [] => .error .truncated
  | _ => .error .malformed

/-- The items of an array whose opening bracket has been read. -/
def readItems (item : Reader α) : Reader (List α) := fun s =>
  match skipBlanks s with
  | ']' :: s => .ok ([], s)
  | _ => do
    let (found, s) ← foldItems (fun found s => do
      let (v, s) ← item s
      .ok (v :: found, s)) s [] s
    .ok (found.reverse, s)

/-- The members of an object whose opening brace has been read. -/
def readMembers (item : Reader α) : Reader (List (String × α)) := fun s =>
  match skipBlanks s with
  | '}' :: s => .ok ([], s)
  | _ => do
    let (found, s) ← foldMembers (fun found key s => do
      let (v, s) ← item (← readColon s)
      .ok ((key, v) :: found, s)) s [] s
    .ok (found.reverse, s)

/-- The rest of a word. -/
def readWord : List Char → Reader Unit
  | [], s => .ok ((), s)
  | _ :: _, [] => .error .truncated
  | c :: word, d :: s => if c = d then readWord word s else .error .malformed

/-- A value; the items and members of arrays and objects are left to `item`, which is absent
where no deeper nesting is allowed. -/
def readFlat (item : Option (Reader Json)) : Reader Json := fun s =>
  match skipBlanks s, item with
  | [], _ => .error .truncated
  | '"' :: s, _ => (readString s).map fun (v, s) => (.string v, s)
  | '[' :: s, some item => (readItems item s).map fun (vs, s) => (.array vs, s)
  | '{' :: s, some item => (readMembers item s).map fun (vs, s) => (.object vs, s)
  | 'n' :: s, _ => (readWord ['u', 'l', 'l'] s).map fun (_, s) => (.null, s)
  | 't' :: s, _ => (readWord ['r', 'u', 'e'] s).map fun (_, s) => (.bool true, s)
  | 'f' :: s, _ => (readWord ['a', 'l', 's', 'e'] s).map fun (_, s) => (.bool false, s)
  | c :: s, _ =>
    if c = '-' ∨ c.isDigit then (readNumeral (c :: s)).map fun (v, s) => (.number v, s)
    else .error .malformed

/-- A value in which arrays and objects are nested at most so deep. -/
def readValue : Nat → Reader Json
  | 0 => readFlat none
  | depth + 1 => readFlat (some (readValue depth))

/-- The deepest nesting that is read. -/
def maxDepth : Nat := 127

end Json

end AudioFraming
