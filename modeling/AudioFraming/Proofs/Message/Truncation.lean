import AudioFraming.Host.Native
import AudioFraming.Proofs.Json.Cuts
import AudioFraming.Proofs.Link.Session
import AudioFraming.Proofs.Message.Language

/-!
# Messages that are cut off

A message is decoded while it is read, so a text could be refused, or even obeyed, before
its end is seen. A beginning of a message is not: wherever the cut falls, the reader
comes to it and stops there, since what has been read before it is all as it should be
and the closing character is missing (`stopped_read`).

The fault then is that the text is truncated. The exception is a cut through a numeral
that leaves it infinite, behind a long whole part or before the last digit of a negative
exponent.
-/

namespace AudioFraming

namespace Command

open Json

/-! ## Members and items -/

theorem readName_append {before : List Char} (h : Blank before) (s : List Char) :
    readName (before ++ s) = readName s := by
  unfold readName
  rw [skipBlanks_append h]

/-- A name that is cut off is a string without an end. -/
theorem exhausting_readName (depth : Nat) :
    Exhausting (Padded (Spells depth)) ofName readName := by
  refine (decodes_readName depth).exhausting (fun _ _ => Spells.settled)
    (fun hbefore => readName_append hbefore _) rfl fun {body v r c} hv hc hr hne hcut => ?_
  obtain ⟨name, rfl, -⟩ := ofName_eq_ok_iff.mp hc
  have hstring : ScalarSpelling body (.string name) :=
    hv.cases.resolve_right fun ⟨_, h⟩ => nomatch h
  cases hstring with
  | string hcs =>
    obtain ⟨t, rfl, ht⟩ := beginning_enclosed hr hne hcut
    rw [readName_of_quote (t := t) rfl, readString_cut hcs ht]
    exact .stopped (.short (hcs.not_endsInfinite ht))

theorem takesCut_readMember :
    TakesCut (MemberSpelling (Spells (maxDepth - 1))) nextMember (memberStep readMember) := by
  refine takesCut_member takes_readMember fun found key => ?_
  unfold nextMember readMember
  dsimp only
  by_cases hkey : key = "cmd"
  · simp only [hkey, if_true]
    cases found with
    | some c => exact exhausting_refuse .unwanted _
    | none => simpa using ((exhausting_readName _).map some).colon
  · simp only [hkey, if_false]
    exact ((exhausting_readValue _).map fun _ => found).colon

theorem takesCut_readItem : TakesCut (Padded (Spells (maxDepth - 1))) nextItem readItem where
  toTakes := takes_readItem
  exhausting found := by
    cases found with
    | none => exact (exhausting_readName _).map fun c => some (c, true)
    | some p => exact (exhausting_readValue _).map fun _ => some (p.1, false)
  settled _ _ := Padded.settled fun _ _ => Spells.settled
  blank found s hs := by
    cases found with
    | none =>
      have hname : readName s = .error .truncated := by
        rw [← List.append_nil s, readName_append hs]
        rfl
      rw [readItem, hname]
      rfl
    | some p =>
      rw [readItem, readValue_of_blank hs]
      rfl

/-! ## Messages -/

/-- The closing character is missing, so what has been found is not looked at. -/
theorem stopped_readRequest {α β : Type} {part : List Char → α → Prop}
    {next : Option β → α → Except Fault (Option β)} {step : Option β → Reader (Option β)}
    {request : Option β → Except Fault Command} {close : Char} (h : TakesCut part next step)
    (hopens : ∀ w a, part w a → Opens w) (hclose : close = ']' ∨ close = '}')
    {w q : List Char} {as : List α} {c : Command} (hw : PartsSpelling part w as)
    (hc : as.foldlM next none >>= request = .ok c) (hq : q <+: w) :
    Stopped q (readRequest close step request q) := by
  obtain ⟨found, hfound, -⟩ := bind_eq_ok_iff.mp hc
  unfold readRequest
  rw [if_neg (head?_ne_of_beginning hopens hclose hw hq)]
  exact (stopped_foldUntil_parts h hw hfound hq).bind _

theorem stopped_read_of_compound {body r : List Char} {v : Json} {c : Command}
    (hv : CompoundSpelling (Spells (maxDepth - 1)) body v) (hc : ofJson v = .ok c)
    (hr : r <+: body) (hne : r ≠ []) (hcut : r ≠ body) : Stopped r (read r) := by
  cases hv with
  | @array w items hitems =>
    obtain ⟨t, rfl, ht⟩ := beginning_enclosed hr hne hcut
    rw [← foldlM_nextItem] at hc
    have hstop := stopped_readRequest takesCut_readItem
      (fun _ _ h => h.opens fun _ _ => Spells.starts) (Or.inl rfl) hitems hc ht
    rw [← readArray_eq_readRequest] at hstop
    exact hstop.prepend (s := ['[']) rfl
  | @object w members hmembers =>
    obtain ⟨t, rfl, ht⟩ := beginning_enclosed hr hne hcut
    rw [← foldlM_nextMember] at hc
    have hstop := stopped_readRequest takesCut_readMember (fun _ _ h => h.opens) (Or.inr rfl)
      hmembers hc ht
    rw [← readObject_eq_readRequest] at hstop
    exact hstop.prepend (s := ['{']) rfl

theorem read_append {before : List Char} (h : Blank before) (s : List Char) :
    read (before ++ s) = read s := by
  unfold read
  rw [skipBlanks_append h]

/-- A message is not complete before its last character that is not a blank. -/
theorem stopped_read {before body q : List Char} {v : Json} {c : Command} (hbefore : Blank before)
    (hv : Spells maxDepth body v) (hc : ofJson v = .ok c) (hq : q <+: before ++ body)
    (hcut : q ≠ before ++ body) : Stopped q (read q) := by
  have hblank {s : List Char} (hs : Blank s) : Stopped s (read s) := by
    rw [← List.append_nil s, read_append hs, List.append_nil]
    exact .of_blank hs
  have hcompound : CompoundSpelling (Spells (maxDepth - 1)) body v := by
    refine hv.resolve_left fun hscalar => ?_
    cases hscalar <;> cases hc
  rcases beginning_append hq with hqb | ⟨r, rfl, hr⟩
  · exact hblank (hbefore.beginning hqb)
  by_cases hnil : r = []
  · rw [hnil, List.append_nil]
    exact hblank hbefore
  · rw [read_append hbefore]
    refine (stopped_read_of_compound hcompound hc hr hnil ?_).prepend (place_of_blank hbefore)
    rintro rfl
    exact hcut rfl

/-- Behind the closing character only blanks could stand. -/
theorem exists_spells_of_closed {text : String} {c : Command} (h : ofText text = .ok c)
    (hend : text.toList.getLast? = some '}' ∨ text.toList.getLast? = some ']') :
    ∃ before body v, Blank before ∧ Spells maxDepth body v ∧ ofJson v = .ok c ∧
      text.toList = before ++ body := by
  obtain ⟨v, hdocument, hc⟩ := isDocument_of_ofText h
  rw [IsDocument] at hdocument
  generalize text.toList = s at hdocument hend ⊢
  obtain @⟨before, body, after, _, hbefore, hv, hafter⟩ := hdocument
  have hnil : after = [] := by
    by_contra hne
    have hlast : after.getLast? = some '}' ∨ after.getLast? = some ']' := by
      simpa [List.getLast?_append_of_ne_nil, hne] using hend
    rcases hlast with hlast | hlast <;> cases hafter _ (List.mem_of_getLast? hlast)
  exact ⟨before, body, v, hbefore, hv, hc, by rw [hnil, List.append_nil]⟩

theorem stopped_ofText {text p : String} {c : Command} (h : ofText text = .ok c)
    (hend : text.toList.getLast? = some '}' ∨ text.toList.getLast? = some ']')
    (hp : p.toList <+: text.toList) (hne : p ≠ text) : Stopped p.toList (ofText p) := by
  obtain ⟨before, body, v, hbefore, hv, hc, htext⟩ := exists_spells_of_closed h hend
  have hcut : p.toList ≠ before ++ body := by
    rw [← htext]
    exact fun heq => hne (String.toList_inj.mp heq)
  exact (stopped_read hbefore hv hc (htext ▸ hp) hcut).bind _

/-- A numeral beside the command makes no difference to a message. -/
theorem ofText_beside_numeral {n : Numeral} (hwell : n.WellFormed) (hfinite : n.isFinite = true) :
    ofText (Json.object [("at", .number n), ("cmd", .string "stop")]).render = .ok .stop := by
  have hwritable : Writable maxDepth (.object [("at", .number n), ("cmd", .string "stop")]) := by
    intro m hm
    simp only [List.mem_cons, List.not_mem_nil, or_false] at hm
    rcases hm with rfl | rfl
    · exact ⟨hwell, hfinite⟩
    · trivial
  rw [ofText_eq_ofJson ((isDocument_render_iff hwritable).mpr rfl)]
  rfl

/-- No beginning of a message is obeyed. If a text is a message that ends with its closing brace or
bracket, then any shorter beginning of it is refused: as malformed, if it ends with a numeral whose
double is infinite, and else as truncated. Posted to a link, or through the C interface as the bytes
of a text, it changes nothing. -/
theorem cut_refused {text p : String} {c : Command} (h : ofText text = .ok c)
    (hend : text.toList.getLast? = some '}' ∨ text.toList.getLast? = some ']')
    (hp : p.toList <+: text.toList) (hne : p ≠ text) :
    ∃ fault, ofText p = .error fault ∧
      (EndsInfinite p.toList → fault = .malformed) ∧
      (¬EndsInfinite p.toList → fault = .truncated) ∧
      (∀ {σ : Type} [Engine σ] (l : Link σ), l.post p = .error fault ∧ l.after (.post p) = l) ∧
      ∀ (s : NativeSession) (held : Bool) (message : List UInt8),
        NativeSession.textOf? message = some p →
          (s.call (.post held (some message))).session = s ∧
            (s.call (.post held (some message))).answer = .truth false := by
  have hstop := stopped_ofText h hend hp hne
  obtain ⟨fault, hfault⟩ : ∃ fault, ofText p = .error fault := by
    generalize ofText p = o at hstop
    cases hstop <;> exact ⟨_, rfl⟩
  have hpost {σ : Type} (l : Link σ) : l.post p = .error fault := by rw [Link.post, hfault]
  rw [hfault] at hstop
  refine ⟨fault, hfault, ?_, ?_, fun l => ⟨hpost l, ?_⟩, fun s held message hmessage => ?_⟩
  · intro hinfinite
    cases hstop with
    | short hfinite => exact absurd hinfinite hfinite
    | infinite => rfl
  · intro hfinite
    cases hstop with
    | short => rfl
    | infinite hinfinite => exact absurd hinfinite hfinite
  · simp [Link.after, hpost]
  · cases hlink : s.control held <;>
      simp [NativeSession.call, NativeSession.post, hlink, hmessage, hpost]

/-- Ten to the power of 309 has no double, but divided by as much it has. The first cut falls behind
its zeros, and the second into a key. -/
theorem cut_refused_behind_zeros :
    ∃ (zeros : List Char) (text p q : String), zeros = List.replicate 309 '0' ∧
      text.toList = "\x7b\"at\":1".toList ++ (zeros ++ "e-309,\"cmd\":\"stop\"\x7d".toList) ∧
      p.toList = "\x7b\"at\":1".toList ++ zeros ∧ q.toList = "\x7b\"a".toList ∧
      ofText text = .ok .stop ∧ EndsInfinite p.toList ∧ ofText p = .error .malformed ∧
      ¬EndsInfinite q.toList ∧ ofText q = .error .truncated := by
  obtain ⟨zeros, hzeros⟩ : ∃ zeros : List Char, zeros = List.replicate 309 '0' := ⟨_, rfl⟩
  have hdigits : AllDigits ('1' :: zeros) := by
    refine List.forall_mem_cons.mpr ⟨rfl, fun c hc => ?_⟩
    rw [hzeros] at hc
    rw [List.eq_of_mem_replicate hc]
    rfl
  have hwhole : Numeral.WellFormed { whole := '1' :: zeros } :=
    ⟨by simp, hdigits, by simp, by simp [AllDigits], by simp⟩
  have hwell : Numeral.WellFormed
      { whole := '1' :: zeros, exponent := some ⟨false, .minus, ['3', '0', '9']⟩ } := by
    refine ⟨by simp, hdigits, by simp, by simp [AllDigits], ?_⟩
    rintro e ⟨rfl⟩
    simp [AllDigits]
  obtain ⟨text, htext, hc⟩ : ∃ text : String, text.toList = "\x7b\"at\":1".toList ++
      (zeros ++ "e-309,\"cmd\":\"stop\"\x7d".toList) ∧ ofText text = .ok .stop := by
    refine ⟨_, ?_, ofText_beside_numeral hwell (by rw [hzeros]; decide +kernel)⟩
    simp [render, Json.text, membersText, quoted, escape, Numeral.text, Exponent.text]
  have hend : text.toList.getLast? = some '\x7d' := by
    rw [htext, ← List.append_assoc, List.getLast?_append_of_ne_nil _ (by decide)]
    rfl
  obtain ⟨p, hp⟩ : ∃ p : String, p.toList = "\x7b\"at\":1".toList ++ zeros :=
    ⟨String.ofList _, String.toList_ofList⟩
  have hinfinite : EndsInfinite p.toList := by
    have hsplit : p.toList = "\x7b\"at\":".toList ++ Numeral.text { whole := '1' :: zeros } := by
      rw [hp]
      simp [Numeral.text]
    rw [hsplit, endsInfinite_append_iff (by decide +kernel), endsInfinite_numeral_iff hwhole]
    rw [hzeros]
    decide +kernel
  have hplace : place "\x7b\"a".toList = .quoted := by decide +kernel
  have hfinite : ¬EndsInfinite "\x7b\"a".toList := by
    refine not_endsInfinite_of_ne fun token htoken => ?_
    rw [hplace] at htoken
    cases htoken
  have hpfront : p.toList <+: text.toList := ⟨_, by rw [htext, hp, List.append_assoc]⟩
  have hqfront : "\x7b\"a".toList <+: text.toList := ⟨_, by rw [htext]; rfl⟩
  have hpne : p ≠ text := by
    rintro rfl
    simp [hp] at htext
  have hqne : "\x7b\"a" ≠ text := by
    rintro rfl
    simp at htext
  obtain ⟨_, hlarge, hmalformed, -⟩ := cut_refused hc (.inl hend) hpfront hpne
  obtain ⟨_, hshort, -, htruncated, -⟩ := cut_refused hc (.inl hend) hqfront hqne
  exact ⟨zeros, text, p, _, hzeros, htext, hp, rfl, hc, hinfinite, hmalformed hinfinite ▸ hlarge,
    hfinite, htruncated hfinite ▸ hshort⟩

/-- The command has been read, and the cut falls between the halves of a character. -/
example : ofText "\x7b\"cmd\":\"stop\",\"at\":\"\\ud83d" = .error .truncated := by
  decide +kernel

end Command

end AudioFraming
