import AudioFraming.Message
import AudioFraming.Proofs.Json.Printing

/-!
# The language of control messages

A text is a message if it spells a value that asks for a command, and what the value asks
for is the command that the text stands for (`ofText_language`). So the command does not
depend on how the value is spelled, nor on the members of an object that are not its
`cmd`, nor on their order.

A message is decoded while it is read, and refused as soon as it can be told from any
other. Still it is refused exactly if its value asks for nothing (`decodes_read`): a part
that is not looked at any more makes no difference to that.
-/

namespace AudioFraming

namespace Command

open Json

inductive IsName : String → Command → Prop
  | stop : IsName "stop" stop
  | pause : IsName "pause" pause
  | resume : IsName "resume" resume

/-- The value asks for the command: an object with one member of the key `cmd`, or an array of one
item, and that is the command's name. -/
inductive Asks : Json → Command → Prop
  | object {name : String} {c : Command} {before after : List (String × Json)}
      (hname : IsName name c) (hbefore : ∀ m ∈ before, m.1 ≠ "cmd")
      (hafter : ∀ m ∈ after, m.1 ≠ "cmd") :
      Asks (.object (before ++ ("cmd", .string name) :: after)) c
  | array {name : String} {c : Command} (hname : IsName name c) : Asks (.array [.string name]) c

/-- The members of a message that are looked at. -/
def requests (members : List (String × Json)) : List (String × Json) :=
  members.filter fun m => m.1 = "cmd"

/-- Two values ask for the same in the same way: they are equal, or objects whose members of the key
`cmd` are the same. -/
inductive SameRequest : Json → Json → Prop
  | refl (v : Json) : SameRequest v v
  | object {members others : List (String × Json)} (h : (requests members).Perm (requests others)) :
      SameRequest (.object members) (.object others)

/-! ## What a value asks for -/

theorem ofName?_eq_some_iff {name : String} {c : Command} :
    ofName? name = some c ↔ IsName name c := by
  constructor
  · intro h
    unfold ofName? at h
    split at h <;> cases h
    · exact .stop
    · exact .pause
    · exact .resume
  · intro h
    cases h <;> rfl

theorem isName_name (c : Command) : IsName c.name c := by
  cases c
  · exact .stop
  · exact .pause
  · exact .resume

/-- The command that a name stands for. -/
def ofName (v : Json) : Except Fault Command :=
  match v with
  | .string name => (ofName? name).elim (.error .unwanted) .ok
  | _ => .error .unwanted

/-- The command that a value asks for. -/
def ofJson : Json → Except Fault Command
  | .object members =>
    match requests members with
    | [m] => ofName m.2
    | _ => .error .unwanted
  | .array [v] => ofName v
  | _ => .error .unwanted

theorem ofName_eq_ok_iff {v : Json} {c : Command} :
    ofName v = .ok c ↔ ∃ name, v = .string name ∧ IsName name c := by
  constructor
  · intro h
    unfold ofName at h
    split at h
    · rename_i name
      cases hname : ofName? name with
      | none =>
        rw [hname] at h
        cases h
      | some d =>
        rw [hname] at h
        cases h
        exact ⟨name, rfl, ofName?_eq_some_iff.mp hname⟩
    · cases h
  · rintro ⟨name, rfl, hname⟩
    rw [ofName, ofName?_eq_some_iff.mpr hname]
    rfl

/-- A value that is no command's name is unwanted, whatever it is. -/
theorem fault_of_ofName {v : Json} {fault : Fault} (h : ofName v = .error fault) :
    fault = .unwanted := by
  unfold ofName at h
  split at h
  · rename_i name
    cases hname : ofName? name <;> rw [hname] at h <;> cases h
    rfl
  · cases h
    rfl

theorem requests_eq_singleton_iff {members : List (String × Json)} {m : String × Json} :
    requests members = [m] ↔ ∃ before after, members = before ++ m :: after ∧ m.1 = "cmd" ∧
      (∀ m ∈ before, m.1 ≠ "cmd") ∧ ∀ m ∈ after, m.1 ≠ "cmd" := by
  rw [requests, List.filter_eq_cons_iff]
  simp only [List.filter_eq_nil_iff, decide_eq_true_eq]
  constructor
  · rintro ⟨before, after, hmembers, hbefore, hm, hafter⟩
    exact ⟨before, after, hmembers, hm, hbefore, hafter⟩
  · rintro ⟨before, after, hmembers, hm, hbefore, hafter⟩
    exact ⟨before, after, hmembers, hbefore, hm, hafter⟩

theorem requests_cons_of_eq {m : String × Json} (h : m.1 = "cmd") (members : List (String × Json)) :
    requests (m :: members) = m :: requests members :=
  List.filter_cons_of_pos (by simpa using h)

theorem requests_cons_of_ne {m : String × Json} (h : m.1 ≠ "cmd") (members : List (String × Json)) :
    requests (m :: members) = requests members :=
  List.filter_cons_of_neg (by simpa using h)

theorem ofJson_eq_ok_iff {v : Json} {c : Command} : ofJson v = .ok c ↔ Asks v c := by
  constructor
  · intro h
    unfold ofJson at h
    split at h
    · split at h
      · rename_i m hrequests
        obtain ⟨key, v⟩ := m
        obtain ⟨before, after, rfl, rfl, hbefore, hafter⟩ :=
          requests_eq_singleton_iff.mp hrequests
        obtain ⟨name, rfl, hname⟩ := ofName_eq_ok_iff.mp h
        exact .object hname hbefore hafter
      · cases h
    · obtain ⟨name, rfl, hname⟩ := ofName_eq_ok_iff.mp h
      exact .array hname
    · cases h
  · intro h
    cases h with
    | @object name c before after hname hbefore hafter =>
      have hrequests : requests (before ++ ("cmd", .string name) :: after) =
          [("cmd", .string name)] :=
        requests_eq_singleton_iff.mpr ⟨before, after, rfl, rfl, hbefore, hafter⟩
      simp only [ofJson, hrequests]
      exact ofName_eq_ok_iff.mpr ⟨name, rfl, hname⟩
    | @array name c hname => exact ofName_eq_ok_iff.mpr ⟨name, rfl, hname⟩

/-- What a value asks for does not depend on what surrounds the request. -/
theorem SameRequest.ofJson_eq {v w : Json} (h : SameRequest v w) : ofJson v = ofJson w := by
  cases h with
  | refl => rfl
  | @object members others h =>
    have hlength := h.length_eq
    match hv : requests members, hw : requests others with
    | [], [] => simp [ofJson, hv, hw]
    | [m], [n] =>
      rw [hv, hw, List.singleton_perm_singleton] at h
      simp [ofJson, hv, hw, h]
    | _ :: _ :: _, _ :: _ :: _ => simp [ofJson, hv, hw]
    | [], _ :: _ | [_], [] | [_], _ :: _ :: _ | _ :: _ :: _, [] | _ :: _ :: _, [_] =>
      simp [hv, hw] at hlength

/-! ## Decoding while reading -/

theorem readName_of_quote {s t : List Char} (h : skipBlanks s = '"' :: t) :
    readName s = readString t >>= fun (name, t) => (ofName (.string name)).map (·, t) := by
  unfold readName
  rw [h]
  change readString t >>= _ = _
  refine congrArg _ (funext fun ⟨name, t⟩ => ?_)
  dsimp only [ofName]
  cases ofName? name <;> rfl

theorem readName_of_scalar {s body rest : List Char} {v : Json} (h : ScalarSpelling body v)
    (hname : ∀ name, v ≠ .string name) (hends : Ends rest) (hs : skipBlanks s = body ++ rest) :
    readName s = .error .unwanted := by
  have hread : readValue 0 (body ++ rest) = .ok (v, rest) :=
    readFlat_scalar h none Blank.nil hends
  obtain ⟨c, t, rfl, hbracket, hbrace, hquote⟩ := h.exists_cons
  have hne : c ≠ '"' := fun hc => (hquote hc).elim hname
  unfold readName
  rw [hs]
  split
  · rename_i heq
    exact absurd (List.cons.inj heq).1 hne
  · rename_i heq
    exact absurd (List.cons.inj heq).1 hbracket
  · rename_i heq
    exact absurd (List.cons.inj heq).1 hbrace
  · exact bind_of_ok hread _

theorem read_of_scalar {s body rest : List Char} {v : Json} (h : ScalarSpelling body v)
    (hends : Ends rest) (hs : skipBlanks s = body ++ rest) : read s = .error .unwanted := by
  have hread : readValue 0 (body ++ rest) = .ok (v, rest) :=
    readFlat_scalar h none Blank.nil hends
  obtain ⟨c, t, rfl, hbracket, hbrace, -⟩ := h.exists_cons
  unfold read
  rw [hs]
  split
  · rename_i heq
    exact absurd (List.cons.inj heq).1 hbrace
  · rename_i heq
    exact absurd (List.cons.inj heq).1 hbracket
  · exact bind_of_ok hread _

theorem decodes_readName (depth : Nat) : Decodes (Spells depth) ofName readName := by
  constructor
  · intro s c rest hread
    obtain ⟨before, hbefore, hs⟩ := exists_skipBlanks s
    have hquote : ∃ t, skipBlanks s = '"' :: t := by
      unfold readName at hread
      split at hread
      · rename_i t hquote
        exact ⟨t, hquote⟩
      · cases hread
      · cases hread
      · obtain ⟨_, -, hc⟩ := bind_eq_ok_iff.mp hread
        cases hc
    obtain ⟨t, hquote⟩ := hquote
    rw [readName_of_quote hquote] at hread
    obtain ⟨⟨name, u⟩, hname, hread⟩ := bind_eq_ok_iff.mp hread
    obtain ⟨body, cs, rfl, hcs, rfl⟩ := readString_eq_ok_iff.mp hname
    obtain ⟨d, hd, hpair⟩ := map_eq_ok_iff.mp hread
    cases hpair
    exact ⟨before, '"' :: (body ++ ['"']), _, hbefore, by rw [hs, hquote]; simp,
      .of_scalar (.string hcs) depth, hd⟩
  · intro before body v hbefore hv rest hends
    have hskip : skipBlanks (before ++ (body ++ rest)) = body ++ rest := by
      rw [skipBlanks_append hbefore, (hv.starts.append rest).skipBlanks_eq]
    rcases hv.cases with hscalar | ⟨inner, hcompound⟩
    · by_cases hstring : ∃ name, v = .string name
      · obtain ⟨name, rfl⟩ := hstring
        cases hscalar with
        | @string w cs hcs =>
          rw [readName_of_quote (t := w ++ '"' :: rest) (by rw [hskip]; simp),
            readString_eq_ok_iff.mpr ⟨w, cs, rfl, hcs, rfl⟩]
          rfl
      · rw [not_exists] at hstring
        rw [readName_of_scalar hscalar hstring hends hskip]
        cases v with
        | string name => exact absurd rfl (hstring name)
        | _ => rfl
    · unfold readName
      rw [hskip]
      cases hcompound <;> rfl

/-! ## Members and items -/

/-- A reader that always refuses decodes nothing. -/
theorem decodes_refuse {inner : List Char → Json → Prop} {γ : Type} (fault : Fault) :
    Decodes inner (fun _ => (.error fault : Except Fault γ)) fun _ => .error fault :=
  ⟨nofun, fun _ _ _ _ => rfl⟩

/-- What a member adds to the command found before it. -/
def nextMember (found : Option Command) (m : String × Json) : Except Fault (Option Command) :=
  if m.1 = "cmd" then
    match found with
    | some _ => .error .unwanted
    | none => (ofName m.2).map some
  else .ok found

/-- The command found in an object. -/
def foundMember (found : Option Command) : Except Fault Command :=
  match found with
  | some c => .ok c
  | none => .error .unwanted

/-- What an item adds to the command found before it, if it is alone so far. -/
def nextItem (found : Option (Command × Bool)) (v : Json) :
    Except Fault (Option (Command × Bool)) :=
  match found with
  | none => (ofName v).map fun c => some (c, true)
  | some (c, _) => .ok (some (c, false))

/-- The command found in an array. -/
def foundItem (found : Option (Command × Bool)) : Except Fault Command :=
  match found with
  | some (c, true) => .ok c
  | _ => .error .unwanted

theorem takes_readMember :
    Takes (MemberSpelling (Spells (maxDepth - 1))) nextMember (memberStep readMember) := by
  refine Decodes.takes_member fun found key => ?_
  unfold nextMember readMember
  dsimp only
  by_cases hkey : key = "cmd"
  · simp only [hkey, if_true]
    cases found with
    | some c => exact decodes_refuse .unwanted
    | none => simpa using ((decodes_readName _).map some).colon
  · simp only [hkey, if_false]
    exact ((decodes_readValue _).map fun _ => found).colon

theorem takes_readItem : Takes (Padded (Spells (maxDepth - 1))) nextItem readItem := by
  refine Decodes.takes_item fun found => ?_
  cases found with
  | none => exact (decodes_readName _).map fun c => some (c, true)
  | some p => exact (decodes_readValue _).map fun _ => some (p.1, false)

/-- A second request is refused, and all other members are passed over. -/
theorem foldlM_nextMember_some (members : List (String × Json)) (c : Command) :
    members.foldlM nextMember (some c) =
      if requests members = [] then .ok (some c) else .error .unwanted := by
  induction members with
  | nil => rfl
  | cons m members ih =>
    rw [List.foldlM_cons]
    by_cases hkey : m.1 = "cmd"
    · rw [requests_cons_of_eq hkey, nextMember, if_pos hkey]
      rfl
    · rw [requests_cons_of_ne hkey, nextMember, if_neg hkey]
      exact ih

theorem foldlM_nextMember (members : List (String × Json)) :
    members.foldlM nextMember none >>= foundMember = ofJson (.object members) := by
  induction members with
  | nil => rfl
  | cons m members ih =>
    rw [List.foldlM_cons, ofJson]
    by_cases hkey : m.1 = "cmd"
    · rw [requests_cons_of_eq hkey, nextMember, if_pos hkey]
      cases hname : ofName m.2 with
      | error fault =>
        obtain rfl := fault_of_ofName hname
        cases requests members <;> simp [Except.map, bind, Except.bind, hname]
      | ok c =>
        change members.foldlM nextMember (some c) >>= foundMember = _
        rw [foldlM_nextMember_some]
        cases requests members <;> simp [bind, Except.bind, foundMember, hname]
    · rw [requests_cons_of_ne hkey, nextMember, if_neg hkey]
      exact ih

/-- Items behind others are passed over, but the command is not alone any more. -/
theorem foldlM_nextItem_some (items : List Json) (c : Command) (alone : Bool) :
    items.foldlM nextItem (some (c, alone)) = .ok (some (c, alone && items.isEmpty)) := by
  induction items generalizing alone with
  | nil => cases alone <;> rfl
  | cons v items ih =>
    rw [List.foldlM_cons]
    exact (ih false).trans (by simp)

theorem foldlM_nextItem (items : List Json) :
    items.foldlM nextItem none >>= foundItem = ofJson (.array items) := by
  cases items with
  | nil => rfl
  | cons v items =>
    rw [List.foldlM_cons, nextItem]
    cases hname : ofName v with
    | error fault =>
      obtain rfl := fault_of_ofName hname
      cases items with
      | nil => exact hname.symm
      | cons w items => rfl
    | ok c =>
      change items.foldlM nextItem (some (c, true)) >>= foundItem = _
      rw [foldlM_nextItem_some]
      cases items with
      | nil => exact hname.symm
      | cons w items => rfl

/-! ## Messages -/

/-- Objects and arrays are decoded in one way: one without parts is refused at once, and else what
has been found is looked at when all parts have been read. -/
def readRequest {β : Type} (close : Char) (step : Option β → Reader (Option β))
    (request : Option β → Except Fault Command) : Reader Command := fun s =>
  if (skipBlanks s).head? = some close then .error .unwanted
  else do
    let (found, s) ← foldUntil close step s none s
    (request found).map (·, s)

section request

variable {α β : Type} {part : List Char → α → Prop} {next : Option β → α → Except Fault (Option β)}
  {step : Option β → Reader (Option β)} {request : Option β → Except Fault Command} {close : Char}

theorem request_of_read (h : Takes part next step) {s rest : List Char} {c : Command}
    (hread : readRequest close step request s = .ok (c, rest)) :
    ∃ w as, s = w ++ close :: rest ∧ PartsSpelling part w as ∧
      as.foldlM next none >>= request = .ok c := by
  unfold readRequest at hread
  split at hread
  · cases hread
  · obtain ⟨⟨found, t⟩, hfold, hfound⟩ := bind_eq_ok_iff.mp hread
    obtain ⟨d, hd, hpair⟩ := map_eq_ok_iff.mp hfound
    cases hpair
    obtain ⟨w, as, rfl, hw, has⟩ := foldUntil_of_read h hfold
    exact ⟨w, as, rfl, .some hw, bind_eq_ok_iff.mpr ⟨found, has, hd⟩⟩

theorem readRequest_append (h : Takes part next step) (hopens : ∀ w a, part w a → Opens w)
    (hclose : close = ']' ∨ close = '}') (hrequest : request none = .error .unwanted)
    {w : List Char} {as : List α} (hw : PartsSpelling part w as) (rest : List Char) :
    readRequest close step request (w ++ close :: rest) =
      (as.foldlM next none >>= request).map (·, rest) := by
  unfold readRequest
  cases hw with
  | none hblank =>
    rw [skipBlanks_append hblank, (closed_cons hclose rest).skipBlanks_eq]
    exact (if_pos rfl).trans (congrArg (Except.map (·, rest)) hrequest).symm
  | some hw =>
    rw [if_neg (((hw.opens hopens).append _).head?_ne hclose),
      foldUntil_append h hclose hw (by simp)]
    cases as.foldlM next none <;> rfl

end request

theorem readObject_eq_readRequest (s : List Char) :
    readObject s = readRequest '}' (memberStep readMember) foundMember s := by
  unfold readObject readRequest
  split
  · rename_i t hskip
    rw [hskip]
    rfl
  · rename_i hopen
    rw [if_neg (head?_ne_of_forall hopen), foldMembers_eq_foldUntil]
    refine congrArg _ (funext fun ⟨found, t⟩ => ?_)
    cases found <;> rfl

theorem readArray_eq_readRequest (s : List Char) :
    readArray s = readRequest ']' readItem foundItem s := by
  unfold readArray readRequest
  split
  · rename_i t hskip
    rw [hskip]
    rfl
  · rename_i hopen
    rw [if_neg (head?_ne_of_forall hopen), foldItems_eq_foldUntil]
    refine congrArg _ (funext fun ⟨found, t⟩ => ?_)
    rcases found with _ | ⟨c, _ | _⟩ <;> rfl

theorem decodes_read : Decodes (Spells maxDepth) ofJson read := by
  constructor
  · intro s c rest hread
    obtain ⟨before, hbefore, hs⟩ := exists_skipBlanks s
    unfold read at hread
    split at hread
    · rename_i t hskip
      rw [readObject_eq_readRequest] at hread
      obtain ⟨w, members, rfl, hw, hc⟩ := request_of_read takes_readMember hread
      refine ⟨before, '{' :: (w ++ ['}']), .object members, hbefore, by rw [hs, hskip]; simp,
        Or.inr (.object hw), ?_⟩
      rw [← foldlM_nextMember, hc]
    · rename_i t hskip
      rw [readArray_eq_readRequest] at hread
      obtain ⟨w, items, rfl, hw, hc⟩ := request_of_read takes_readItem hread
      refine ⟨before, '[' :: (w ++ [']']), .array items, hbefore, by rw [hs, hskip]; simp,
        Or.inr (.array hw), ?_⟩
      rw [← foldlM_nextItem, hc]
    · obtain ⟨_, -, hc⟩ := bind_eq_ok_iff.mp hread
      cases hc
  · intro before body v hbefore hv rest hends
    have hskip : skipBlanks (before ++ (body ++ rest)) = body ++ rest := by
      rw [skipBlanks_append hbefore, (hv.starts.append rest).skipBlanks_eq]
    rcases hv with hv | hv
    · rw [read_of_scalar hv hends hskip]
      cases hv <;> rfl
    · unfold read
      rw [hskip]
      cases hv with
      | @object w members hw =>
        rw [List.cons_append, List.append_assoc, List.singleton_append]
        change readObject (w ++ '}' :: rest) = _
        rw [readObject_eq_readRequest, readRequest_append takes_readMember (fun _ _ h => h.opens)
          (Or.inr rfl) rfl hw, foldlM_nextMember]
      | @array w items hw =>
        rw [List.cons_append, List.append_assoc, List.singleton_append]
        change readArray (w ++ ']' :: rest) = _
        rw [readArray_eq_readRequest, readRequest_append takes_readItem
          (fun _ _ h => h.opens fun _ _ => Spells.starts) (Or.inl rfl) rfl hw, foldlM_nextItem]

/-- A text that spells a value is decoded to what the value asks for. -/
theorem ofText_eq_ofJson {text : String} {v : Json} (h : IsDocument text v) :
    ofText text = ofJson v := by
  obtain ⟨after, hafter, hread⟩ := decodes_read.read_padded h
  rw [ofText, hread]
  cases ofJson v with
  | error fault => rfl
  | ok c => exact if_pos (skipBlanks_eq_nil hafter)

theorem isDocument_of_ofText {text : String} {c : Command} (h : ofText text = .ok c) :
    ∃ v, IsDocument text v ∧ ofJson v = .ok c := by
  obtain ⟨⟨d, rest⟩, hread, hc⟩ := bind_eq_ok_iff.mp h
  dsimp only at hc
  split at hc
  · rename_i hrest
    cases hc
    exact decodes_read.padded_of_read hread (List.dropWhile_eq_nil_iff.mp hrest)
  · cases hc

theorem isDocument_toText (c : Command) :
    IsDocument c.toText (.object [("cmd", .string c.name)]) := by
  refine (isDocument_render_iff ?_).mpr rfl
  intro m hm
  obtain rfl := List.mem_singleton.mp hm
  trivial

/-- Every command can be sent as a text. -/
theorem ofText_toText (c : Command) : ofText c.toText = .ok c := by
  rw [ofText_eq_ofJson (isDocument_toText c)]
  exact ofName_eq_ok_iff.mpr ⟨c.name, rfl, isName_name c⟩

/-- The texts that are messages are those that spell a value asking for a command, and the command
is the one asked for. So every command can be sent as a text, and two spellings of one request, in
whatever order and whatever stands beside it, are one message or none. -/
theorem ofText_language (text : String) (c : Command) :
    (ofText text = .ok c ↔ ∃ v, IsDocument text v ∧ Asks v c) ∧
      ofText c.toText = .ok c ∧
      ∀ {other : String} {v w : Json}, IsDocument text v → IsDocument other w →
        SameRequest v w → ofText text = ofText other := by
  refine ⟨⟨?_, ?_⟩, ofText_toText c, ?_⟩
  · intro h
    obtain ⟨v, hv, hc⟩ := isDocument_of_ofText h
    exact ⟨v, hv, ofJson_eq_ok_iff.mp hc⟩
  · rintro ⟨v, hv, hc⟩
    rw [ofText_eq_ofJson hv]
    exact ofJson_eq_ok_iff.mpr hc
  · intro other v w hv hw h
    rw [ofText_eq_ofJson hv, ofText_eq_ofJson hw, h.ofJson_eq]

/-- A member in front of the request, blanks between the parts, and escapes in the key and in the
name make no other message than the usual spelling. -/
theorem ofText_of_spelled :
    ∃ v w, IsDocument " \x7b \"at\" : [null] , \"cm\\u0064\" : \"st\\u006fp\" \x7d" v ∧
      IsDocument (toText .stop) w ∧ SameRequest v w ∧
      ofText " \x7b \"at\" : [null] , \"cm\\u0064\" : \"st\\u006fp\" \x7d" =
        ofText (toText .stop) := by
  have hblank : Blank [' '] := List.forall_mem_singleton.mpr rfl
  have hat : CharsSpelling ['a', 't'] ['a', 't'] := charsSpelling_flatMap_escape ['a', 't']
  have hd : CharSpelling ['\\', 'u', '0', '0', '6', '4'] 'd' :=
    .code ⟨[0, 0, 6, 4], by decide⟩ (Or.inl (by decide))
  have ho : CharSpelling ['\\', 'u', '0', '0', '6', 'f'] 'o' :=
    .code ⟨[0, 0, 6, 15], by decide⟩ (Or.inl (by decide))
  have hcmd : CharsSpelling ['c', 'm', '\\', 'u', '0', '0', '6', '4'] ['c', 'm', 'd'] :=
    .cons (charSpelling_escape 'c') (.cons (charSpelling_escape 'm') (.cons hd .nil))
  have hstop : CharsSpelling ['s', 't', '\\', 'u', '0', '0', '6', 'f', 'p'] ['s', 't', 'o', 'p'] :=
    .cons (charSpelling_escape 's') (.cons (charSpelling_escape 't')
      (.cons ho (.cons (charSpelling_escape 'p') .nil)))
  have hname : Spells 126 _ (.string "stop") := .of_scalar (.string hstop) 126
  have hnull : Spells 126 ['[', 'n', 'u', 'l', 'l', ']'] (.array [.null]) :=
    Or.inr (.array (.some (.last (.mk .nil (Spells.of_scalar .null 125) .nil))))
  have hmembers : Separated (MemberSpelling (Spells 126)) _
      [("at", .array [.null]), ("cmd", .string "stop")] :=
    .more (.mk hblank hat hblank (.mk hblank hnull hblank))
      (.last (.mk hblank hcmd hblank (.mk hblank hname hblank)))
  have hobject : Spells 127 _ _ := Or.inr (.object (.some hmembers))
  have hpadded := Padded.mk hblank hobject .nil
  have hv : IsDocument " \x7b \"at\" : [null] , \"cm\\u0064\" : \"st\\u006fp\" \x7d"
      (.object [("at", .array [.null]), ("cmd", .string "stop")]) := hpadded
  have hw := isDocument_toText .stop
  have hsame : SameRequest (.object [("at", .array [.null]), ("cmd", .string "stop")])
      (.object [("cmd", .string "stop")]) := .object (.refl _)
  exact ⟨_, _, hv, hw, hsame, (ofText_language _ .stop).2.2 hv hw hsame⟩

end Command

end AudioFraming
