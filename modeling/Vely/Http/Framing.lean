import Vely.Http.Model
import Vely.Lib.Framed

/-!
# The frame of a response

A response has header lines, the line that ends them and data, in this order.  A step of a request
keeps to it, but for two cases.  The answer that a file was not modified ends the header and does
not say that a header was sent, so that an error after it writes another one.  And a header that was
begun is not ended once the header is kept from being written.  The flags of a request and the phase
of what was written go together.
-/

namespace Vely

namespace Http

open Framing

/-- The part of a response an item is. -/
def Item.part : Item → Part
  | .header _ _ => .head
  | .terminator => .mark
  | .body _ => .tail

/-- The response has header lines, one line that ends them, and data.  Without an answer there is
nothing, and where the header is kept from being written there may be the data alone. -/
def Framed (s : State) : Prop :=
  s.out = []
    ∨ (∃ headers data, (∀ x ∈ headers, x.part = .head) ∧ (∀ x ∈ data, x.part = .tail)
      ∧ s.out = headers ++ .terminator :: data)
    ∨ s.silent = true ∧ ∀ x ∈ s.out, x.part = .tail

namespace State

/-- How far the response has come. -/
def phase (s : State) : Phase := Framing.phase Item.part s.out

/-- The header was ended, and it does not count as sent. -/
def Ended (s : State) : Prop := s.dataWasOutput = true ∧ s.sentHeader = false ∧ s.silent = false

/-- The header was begun, and it was not ended. -/
def Begun (s : State) : Prop := s.sentHeader = true ∧ s.dataWasOutput = false ∧ s.silent = false

instance (s : State) : Decidable s.Ended := inferInstanceAs (Decidable (_ ∧ _ ∧ _))

instance (s : State) : Decidable s.Begun := inferInstanceAs (Decidable (_ ∧ _ ∧ _))

end State

/-- When a step keeps the frame: once the header was ended and does not count as sent, nothing may
be written to the client, and no error may be reported; and once the header was begun, it may not be
suppressed. -/
def Op.Fits (s : State) : Op → Prop
  | .output _ _ => s.Ended → s.writeStrings ≠ 0
  | .startWriteString => s.Ended → s.writeStrings < Output.maxNestedWriteString
  | .stopWriteString => s.Ended → s.writeStrings ≠ 0
  | .silentHeader => ¬ s.Begun
  | .outHeader _ => True
  | .deleteCookie name path secure =>
    s.Ended → (Cookies.velyDeleteCookie s.toReq name path secure).isOk = true
  | .setCookie .. => ¬ s.Ended
  | .sendFile .. => ¬ s.Ended
  | .badRequest => ¬ s.Ended
  | .reportError => ¬ s.Ended

/-- Every step of a request keeps the frame. -/
def FitsAll : List Op → State → Prop
  | [], _ => True
  | op :: ops, s =>
    op.Fits s ∧
      match op.exec s with
      | .ok s => FitsAll ops s
      | .error _ => True

/-- The state after a step, whether or not it is the last. -/
def outcome : Except State State → State
  | .ok s => s
  | .error s => s

section

variable {s t u : State} {op : Op}

theorem framed_iff :
  Framed s ↔ s.phase = .empty ∨ s.phase = .closed ∨ s.silent = true ∧ s.phase = .bare
  := by
  constructor
  · rintro (hnone | ⟨headers, data, hheaders, hdata, hout⟩ | ⟨hsilent, hdata⟩)
    · left
      exact phase_eq_empty_iff.mpr hnone
    · right; left
      exact phase_eq_closed_iff.mpr ⟨headers, .terminator, data, hheaders, rfl, hdata, hout⟩
    · obtain hempty | hbare := phase_eq_bare_iff.mpr hdata
      · exact .inl hempty
      · exact .inr (.inr ⟨hsilent, hbare⟩)
  · rintro (hempty | hclosed | ⟨hsilent, hbare⟩)
    · left
      exact phase_eq_empty_iff.mp hempty
    · right; left
      obtain ⟨headers, m, data, hheaders, hm, hdata, hout⟩ := phase_eq_closed_iff.mp hclosed
      cases m with
      | header name value => cases hm
      | terminator => exact ⟨headers, data, hheaders, hdata, hout⟩
      | body bytes => cases hm
    · right; right
      exact ⟨hsilent, phase_eq_bare_iff.mp (.inr hbare)⟩

end

/-! ### Header lines -/

namespace State

/-- Lines are put after what was written, where the header is written at all. -/
def addLines (lines : List Item) (s : State) : State :=
  if s.silent then s else { s with out := s.out ++ lines }

section

variable {s t u : State} {lines : List Item}

@[simp]
theorem addLines_silent :
  (s.addLines lines).silent = s.silent
  := by
  rw [addLines]
  split
  · rfl
  · rfl

@[simp]
theorem addLines_sentHeader :
  (s.addLines lines).sentHeader = s.sentHeader
  := by
  rw [addLines]
  split
  · rfl
  · rfl

@[simp]
theorem addLines_dataWasOutput :
  (s.addLines lines).dataWasOutput = s.dataWasOutput
  := by
  rw [addLines]
  split
  · rfl
  · rfl

@[simp]
theorem addLines_disableOutput :
  (s.addLines lines).disableOutput = s.disableOutput
  := by
  rw [addLines]
  split
  · rfl
  · rfl

theorem addLines_nil :
  s.addLines [] = s
  := by
  rw [addLines, List.append_nil]
  split
  · rfl
  · rfl

theorem addLines_addLines {more : List Item} :
  (s.addLines lines).addLines more = s.addLines (lines ++ more)
  := by
  unfold addLines
  cases hs : s.silent with
  | false => simp [hs]
  | true => simp [hs]

/-- Some lines of the header were written. -/
def Lined (s t : State) : Prop :=
  ∃ lines, (∀ x ∈ lines, x.part = .head) ∧ t = s.addLines lines

/-- One or more lines of the header were written. -/
def Headed (s t : State) : Prop :=
  ∃ lines, lines ≠ [] ∧ (∀ x ∈ lines, x.part = .head) ∧ t = s.addLines lines

theorem Lined.refl :
  Lined s s
  := by
  use []
  simp [addLines_nil]

theorem Headed.lined (h : Headed s t) :
  Lined s t
  := by
  obtain ⟨lines, -, hlines, ht⟩ := h
  use lines

theorem Lined.trans (h₁ : Lined s t) (h₂ : Lined t u) :
  Lined s u
  := by
  obtain ⟨lines, hlines, rfl⟩ := h₁
  obtain ⟨more, hmore, rfl⟩ := h₂
  use lines ++ more
  simp only [List.mem_append, addLines_addLines, and_true]
  rintro x (hx | hx)
  · exact hlines x hx
  · exact hmore x hx

theorem Headed.trans (h₁ : Headed s t) (h₂ : Lined t u) :
  Headed s u
  := by
  obtain ⟨lines, hne, hlines, rfl⟩ := h₁
  obtain ⟨more, hmore, rfl⟩ := h₂
  use lines ++ more
  simp only [List.mem_append, addLines_addLines, and_true]
  use by simp [hne]
  rintro x (hx | hx)
  · exact hlines x hx
  · exact hmore x hx

theorem Lined.headed (h₁ : Lined s t) (h₂ : Headed t u) :
  Headed s u
  := by
  obtain ⟨lines, hlines, rfl⟩ := h₁
  obtain ⟨more, hne, hmore, rfl⟩ := h₂
  use lines ++ more
  simp only [List.mem_append, addLines_addLines, and_true]
  use by simp [hne]
  rintro x (hx | hx)
  · exact hlines x hx
  · exact hmore x hx

theorem headed_genAddHeader {name value : List UInt8} :
  Headed s (s.genAddHeader name value)
  := by
  use [.header name value]
  refine ⟨List.cons_ne_nil _ _, ?_, rfl⟩
  intro x hx
  rw [List.mem_singleton.mp hx]
  rfl

theorem headed_genCacheControl {cacheControl : Option (List UInt8)} :
  Headed s (s.genCacheControl cacheControl)
  := by
  cases cacheControl with
  | none => exact headed_genAddHeader.trans headed_genAddHeader.lined
  | some value => exact headed_genAddHeader

theorem lined_genAddCustom {custom : List (List UInt8 × List UInt8)} :
  Lined s (genAddCustom custom s)
  := by
  induction custom generalizing s with
  | nil => exact Lined.refl
  | cons line custom ih => exact headed_genAddHeader.lined.trans ih

theorem headed_genPageStatus {header : Option Header} :
  Headed s (genPageStatus header s)
  := by
  rw [genPageStatus]
  split
  · exact headed_genAddHeader
  · exact headed_genAddHeader

theorem headed_velySendHeader :
  Headed s s.velySendHeader
  := by
  apply Headed.trans _ lined_genAddCustom
  apply Headed.trans _ headed_genPageStatus.lined
  apply Headed.trans _ headed_genCacheControl.lined
  exact headed_genAddHeader

theorem lined_genEtag (header : Header) (file : File) :
  Lined s (s.genEtag header file)
  := by
  rw [genEtag]
  split
  · exact headed_genAddHeader.lined
  · exact Lined.refl

theorem lined_genDisp {header : Header} :
  Lined s (s.genDisp header)
  := by
  rw [genDisp]
  split
  · exact headed_genAddHeader.lined
  · exact Lined.refl

/-- The flags that are set before lines are written might as well be set after. -/
theorem addLines_flags {sentHeader disableOutput : Bool} :
  addLines lines { s with sentHeader := sentHeader, disableOutput := disableOutput }
    = { addLines lines s with sentHeader := sentHeader, disableOutput := disableOutput }
  := by
  rw [addLines, addLines]
  split
  · rfl
  · rfl

/-- The header of a file, with or without a content type, is lines, and the header counts as sent.
-/
theorem headed_fileHeader (header : Header) (file : File) :
  ∃ t, Headed s t ∧ s.fileHeader header file = { t with sentHeader := true }
  := by
  refine ⟨_, ?_, rfl⟩
  apply Headed.trans _ lined_genAddCustom
  apply Headed.trans _ (lined_genEtag header file)
  apply Headed.trans _ headed_genCacheControl.lined
  apply Headed.trans _ lined_genDisp
  apply Headed.trans _ headed_genAddHeader.lined
  exact headed_genAddHeader

theorem headed_pageHeader (header : Header) (file : File) (hsent : s.sentHeader = false) :
  ∃ t, Headed s t ∧ s.pageHeader header file = { t with sentHeader := true }
  := by
  obtain ⟨lines, hlines, ht⟩ := lined_genEtag (s := s) header file
  have hpage := headed_velySendHeader
    (s := { s.genEtag header file with sentHeader := true, disableOutput := false })
  obtain ⟨more, hne, hmore, hsend⟩ := hpage
  use (s.addLines lines).addLines more
  constructor
  · exact Lined.headed ⟨lines, hlines, rfl⟩ ⟨more, hne, hmore, rfl⟩
  · rw [pageHeader, velyOutputHttpHeader, if_neg, if_neg, hsend, addLines_flags, ht]
    · rw [← @addLines_disableOutput s lines,
        ← @addLines_disableOutput (s.addLines lines) more]
    · exact Bool.false_ne_true
    · rw [ht]
      simp [hsent]

end

/-! ### What a step may write -/

section

variable {s t u : State}

/-- Something was put after what was written, and nothing but data where the header is not written.
-/
structure Grows (s t : State) : Prop where
  silent : s.silent = true → t.silent = true
  out : ∃ items, t.out = s.out ++ items ∧ (s.silent = true → ∀ x ∈ items, x.part = .tail)

theorem Grows.of_out (hout : t.out = s.out) (hsilent : s.silent = true → t.silent = true) :
  Grows s t
  := by
  use hsilent, []
  simp [hout]

theorem Grows.trans (h₁ : Grows s t) (h₂ : Grows t u) :
  Grows s u
  := by
  obtain ⟨items, hitems, hdata⟩ := h₁.out
  obtain ⟨more, hmore, hrest⟩ := h₂.out
  use fun h => h₂.silent (h₁.silent h), items ++ more
  use by rw [hmore, hitems, List.append_assoc]
  intro hsilent x hx
  obtain hx | hx := List.mem_append.mp hx
  · exact hdata hsilent x hx
  · exact hrest (h₁.silent hsilent) x hx

theorem Lined.grows (h : Lined s t) :
  Grows s t
  := by
  obtain ⟨lines, hlines, rfl⟩ := h
  use fun hsilent => by simp [hsilent]
  cases hs : s.silent with
  | false =>
    use lines
    simp [addLines, hs]
  | true =>
    use []
    simp [addLines, hs]

theorem genHeaderEnd_grows :
  Grows s s.genHeaderEnd
  := by
  rw [genHeaderEnd]
  split
  · exact Grows.of_out rfl id
  · split
    · exact Grows.of_out rfl id
    · rename_i hsilent
      use id
      simp only [List.append_assoc]
      exact ⟨_, rfl, fun h => absurd h hsilent⟩

theorem genWrite_grows {iserr : Bool} {data : List UInt8} :
  Grows s (s.genWrite iserr data)
  := by
  rw [genWrite]
  split
  · exact Grows.of_out rfl id
  · use id, [.body data]
    use rfl
    intro _ x hx
    rw [List.mem_singleton.mp hx]
    rfl

theorem velyOutputHttpHeader_grows :
  Grows s s.velyOutputHttpHeader
  := by
  rw [velyOutputHttpHeader]
  split
  · exact Grows.of_out rfl id
  · split
    · exact Grows.of_out rfl id
    · apply Grows.trans _ headed_velySendHeader.lined.grows
      exact Grows.of_out rfl id

theorem velyHeaderErr_grows :
  Grows s s.velyHeaderErr.1
  := by
  rw [velyHeaderErr]
  split
  · split
    · exact Grows.of_out rfl id
    · exact genHeaderEnd_grows
  · exact Grows.of_out rfl id

theorem errorPage_grows {st : Int} {line : List UInt8} :
  Grows s (errorPage st line s)
  := by
  rw [errorPage]
  split
  · apply velyHeaderErr_grows.trans
    apply Grows.trans _ genHeaderEnd_grows
    exact (headed_genAddHeader.trans headed_genAddHeader.lined).lined.grows
  · exact velyHeaderErr_grows

theorem velyWriteWeb_grows {iserr : Bool} {data : List UInt8} :
  Grows s (outcome (s.velyWriteWeb iserr data))
  := by
  rw [velyWriteWeb]
  split
  · apply Grows.trans _ genWrite_grows
    split
    · exact Grows.of_out rfl id
    · exact genHeaderEnd_grows
  · exact errorPage_grows

theorem sendNamed_cases (fname : List UInt8) (file : Option File) (header : Header)
    (hsent : s.sentHeader = false) :
  s.sendNamed fname file header = .ok s.velyCantFindFile
    ∨ s.sendNamed fname file header = .ok (s.notModified header)
    ∨ ∃ t data, Headed s t
      ∧ s.sendNamed fname file header = velyWriteWeb false data { t with sentHeader := true }
  := by
  unfold sendNamed
  split
  · exact .inl rfl
  · cases file with
    | none => exact .inl rfl
    | some file =>
      dsimp only
      split
      · rw [sendOpened]
        split
        · exact .inl rfl
        · split
          · exact .inr (.inl rfl)
          · split
            · exact .inl rfl
            · right; right
              split
              · obtain ⟨t, ht, hpage⟩ := headed_pageHeader header file hsent
                use t, file.bytes, ht
                rw [hpage]
              · obtain ⟨t, ht, hfile⟩ := headed_fileHeader (s := s) header file
                use t, file.bytes, ht
                rw [hfile]
      · exact .inl rfl

theorem headed_notModified (header : Header) :
  ∃ t, Headed s t ∧ s.notModified header = t.genHeaderEnd
  := by
  refine ⟨_, ?_, rfl⟩
  exact headed_genAddHeader.trans headed_genCacheControl.lined

theorem sendNamed_grows {fname : List UInt8} {file : Option File} {header : Header}
    (hsent : s.sentHeader = false) :
  Grows s (outcome (s.sendNamed fname file header))
  := by
  obtain h | h | ⟨t, data, ht, h⟩ := sendNamed_cases fname file header hsent
  · rw [h]
    exact errorPage_grows
  · rw [h]
    obtain ⟨t, ht, hend⟩ := headed_notModified (s := s) header
    rw [hend]
    exact ht.lined.grows.trans genHeaderEnd_grows
  · rw [h]
    apply ht.lined.grows.trans
    apply Grows.trans _ velyWriteWeb_grows
    exact Grows.of_out rfl id

theorem withCookies_grows {r : Except Cookies.CookieError Cookies.Req}
    (hr : ∀ req, r = .ok req → s.silent = true → req.silent = true) :
  Grows s (outcome (s.withCookies r))
  := by
  cases r with
  | ok req => exact Grows.of_out rfl (hr req rfl)
  | error e => exact errorPage_grows

end

end State

section

variable {s t u : State} {op : Op}

open State

theorem velySetCookie_flags {req req' : Cookies.Req} {name value : List UInt8}
    {path expires : Option (List UInt8)} {samesite httponly secure : List UInt8}
    (h : Cookies.velySetCookie req name value path expires samesite httponly secure = .ok req') :
  req'.dataWasOutput = req.dataWasOutput ∧ req'.silent = req.silent
  := by
  rw [Cookies.velySetCookie] at h
  split at h
  · cases h
  · cases hcheck : Cookies.velyCheckSetCookie name value secure samesite httponly with
    | error e =>
      rw [hcheck] at h
      cases h
    | ok clause =>
      rw [hcheck] at h
      dsimp only [bind, Except.bind] at h
      split at h
      · split at h
        · cases h
        · cases h
          exact ⟨rfl, rfl⟩
      · cases h
        exact ⟨rfl, rfl⟩

theorem velyDeleteCookie_flags {req : Cookies.Req} {name : List UInt8} {path : Option (List UInt8)}
    {secure : List UInt8} {r : Cookies.Req × Option Nat}
    (h : Cookies.velyDeleteCookie req name path secure = .ok r) :
  r.1.dataWasOutput = req.dataWasOutput ∧ r.1.silent = req.silent
  := by
  rw [Cookies.velyDeleteCookie] at h
  split at h
  · cases h
    exact ⟨rfl, rfl⟩
  · cases hcheck : Cookies.velyCheckSetCookie name (ascii "deleted") secure [] [] with
    | error e =>
      rw [hcheck] at h
      cases h
    | ok clause =>
      rw [hcheck] at h
      dsimp only [bind, Except.bind] at h
      cases h
      exact ⟨rfl, rfl⟩

/-- A step puts something after what was written. -/
theorem Op.exec_grows :
  Grows s (outcome (op.exec s))
  := by
  cases op with
  | output iserr data =>
    rw [exec, State.velyPuts]
    split
    · split
      · exact velyWriteWeb_grows
      · exact Grows.of_out rfl id
    · exact errorPage_grows
  | startWriteString =>
    rw [exec, State.startWriteString]
    dsimp only
    split
    · apply Grows.trans _ errorPage_grows
      exact Grows.of_out rfl id
    · exact Grows.of_out rfl id
  | stopWriteString =>
    rw [exec, State.stopWriteString]
    split
    · exact errorPage_grows
    · exact Grows.of_out rfl id
  | silentHeader => exact Grows.of_out rfl fun _ => rfl
  | outHeader use =>
    cases use with
    | none => exact velyOutputHttpHeader_grows
    | some header =>
      apply Grows.trans _ velyOutputHttpHeader_grows
      exact Grows.of_out rfl id
  | setCookie name value path expires samesite httponly secure =>
    apply withCookies_grows
    intro req hreq hsilent
    rw [(velySetCookie_flags hreq).2]
    exact hsilent
  | deleteCookie name path secure =>
    apply withCookies_grows
    intro req hreq hsilent
    cases hdelete : Cookies.velyDeleteCookie s.toReq name path secure with
    | error e =>
      rw [hdelete] at hreq
      cases hreq
    | ok r =>
      rw [hdelete] at hreq
      cases hreq
      rw [(velyDeleteCookie_flags hdelete).2]
      exact hsilent
  | sendFile fname file header =>
    rw [exec, velyOutFile]
    split
    · split
      · exact errorPage_grows
      · rename_i hsent
        apply Grows.trans _ (sendNamed_grows _)
        · exact Grows.of_out rfl id
        · simpa using hsent
    · exact errorPage_grows
  | badRequest => exact errorPage_grows
  | reportError => exact errorPage_grows

theorem velyShut_grows :
  Grows s s.velyShut
  := by
  rw [velyShut]
  split
  · exact genHeaderEnd_grows
  · exact Grows.of_out rfl id

end

/-! ### The flags and the phase -/

/-- The flags of a request go with the phase of its response. -/
inductive Good (s : State) : Prop
  | start (silent : s.silent = false) (sent : s.sentHeader = false) (data : s.dataWasOutput = false)
    (phase : s.phase = .empty)
  | begun (silent : s.silent = false) (sent : s.sentHeader = true) (data : s.dataWasOutput = false)
    (phase : s.phase = .head)
  | ended (silent : s.silent = false) (data : s.dataWasOutput = true) (phase : s.phase = .closed)
    (disabled : s.sentHeader = false → s.disableOutput = true)
  | silenced (silent : s.silent = true)
    (phase : s.phase = .empty ∨ s.phase = .bare ∨ s.phase = .closed)

/-- The response is no longer framed, and will not be. -/
def Broken (s : State) : Prop := s.phase = .broken ∨ s.silent = true ∧ s.phase = .head

section

variable {s t : State} {op : Op} {ops : List Op}

open State

theorem Broken.grows (h : Broken s) (hgrows : Grows s t) :
  Broken t
  := by
  obtain ⟨items, hout, hdata⟩ := hgrows.out
  have hphase : t.phase = s.phase.after Item.part items := by
    rw [State.phase, hout, phase_append]
    rfl
  obtain hbroken | ⟨hsilent, hhead⟩ := h
  · left
    rw [hphase, hbroken, Phase.after_broken]
  · cases items with
    | nil =>
      right
      use hgrows.silent hsilent
      rw [hphase, hhead]
      rfl
    | cons x items =>
      left
      rw [hphase, hhead, Phase.after_cons, hdata hsilent x List.mem_cons_self]
      apply Phase.after_broken

theorem Broken.not_framed (h : Broken s) :
  ¬ Framed s
  := by
  rw [framed_iff]
  obtain hbroken | ⟨hsilent, hhead⟩ := h
  · simp [hbroken]
  · simp [hhead]

/-- Where the header is not written, what is put after the response is data. -/
theorem Good.grows_of_silent (h : Good s) (hsilent : s.silent = true) (hgrows : Grows s t) :
  Good t
  := by
  obtain ⟨items, hout, hdata⟩ := hgrows.out
  have hphase : t.phase = s.phase.after Item.part items := by
    rw [State.phase, hout, phase_append]
    rfl
  cases h with
  | start silent => simp [silent] at hsilent
  | begun silent => simp [silent] at hsilent
  | ended silent => simp [silent] at hsilent
  | silenced _ phase =>
    apply Good.silenced (hgrows.silent hsilent)
    rw [hphase]
    obtain hempty | hbare | hclosed := phase
    · rw [hempty]
      obtain hnone | hsome := phase_eq_bare_iff.mpr (hdata hsilent)
      · exact .inl hnone
      · exact .inr (.inl hsome)
    · right; left
      rw [hbare]
      exact Phase.after_tail rfl (hdata hsilent)
    · right; right
      rw [hclosed]
      exact Phase.after_tail rfl (hdata hsilent)

/-- The end of the header comes after nothing or after lines of it. -/
theorem phase_genHeaderEnd (hsilent : s.silent = false) (hdata : s.dataWasOutput = false)
    (hphase : s.phase = .empty ∨ s.phase = .head) :
  s.genHeaderEnd.phase = .closed
  := by
  rw [genHeaderEnd, if_neg (by simp [hdata]), if_neg (by simp [hsilent])]
  dsimp only
  rw [State.phase, phase_concat, Phase.next_eq_closed]
  left
  refine ⟨?_, rfl⟩
  apply phase_eq_head_iff.mpr
  intro x hx
  obtain hx | hx := List.mem_append.mp hx
  · exact phase_eq_head_iff.mp hphase x hx
  · obtain ⟨data, -, rfl⟩ := List.mem_map.mp hx
    rfl

theorem genHeaderEnd_dataWasOutput :
  s.genHeaderEnd.dataWasOutput = true
  := by
  rw [genHeaderEnd]
  split
  · assumption
  · split
    · rfl
    · rfl

theorem genHeaderEnd_flags :
  s.genHeaderEnd.silent = s.silent ∧ s.genHeaderEnd.sentHeader = s.sentHeader
    ∧ s.genHeaderEnd.disableOutput = s.disableOutput
  := by
  rw [genHeaderEnd]
  split
  · exact ⟨rfl, rfl, rfl⟩
  · split
    · exact ⟨rfl, rfl, rfl⟩
    · exact ⟨rfl, rfl, rfl⟩

/-- The end of the header leaves of the cookies what it does where only they are looked at. -/
theorem genHeaderEnd_toReq :
  s.genHeaderEnd.toReq = (Cookies.velyGenHeaderEnd s.toReq).2
  := by
  rw [genHeaderEnd, Cookies.velyGenHeaderEnd]
  split
  · rfl
  · split
    · rfl
    · rfl

/-- Once the header has lines, its end makes the response a good one. -/
theorem good_genHeaderEnd (hsilent : s.silent = false) (hdata : s.dataWasOutput = false)
    (hphase : s.phase = .empty ∨ s.phase = .head)
    (hdisabled : s.sentHeader = false → s.disableOutput = true) :
  Good s.genHeaderEnd
  := by
  apply Good.ended
  · rw [genHeaderEnd_flags.1, hsilent]
  · exact genHeaderEnd_dataWasOutput
  · exact phase_genHeaderEnd hsilent hdata hphase
  · rw [genHeaderEnd_flags.2.1, genHeaderEnd_flags.2.2]
    exact hdisabled

theorem State.Lined.phase_head (h : Lined s t) (hphase : s.phase = .empty ∨ s.phase = .head) :
  t.phase = .empty ∨ t.phase = .head
  := by
  obtain ⟨lines, hlines, rfl⟩ := h
  rw [addLines]
  split
  · exact hphase
  · apply phase_eq_head_iff.mpr
    intro x hx
    obtain hx | hx := List.mem_append.mp hx
    · exact phase_eq_head_iff.mp hphase x hx
    · exact hlines x hx

theorem State.Lined.flags (h : Lined s t) :
  t.silent = s.silent ∧ t.dataWasOutput = s.dataWasOutput ∧ t.sentHeader = s.sentHeader
    ∧ t.disableOutput = s.disableOutput
  := by
  obtain ⟨lines, -, rfl⟩ := h
  simp

/-- A line of the header after its end breaks the response. -/
theorem State.Headed.broken (h : Headed s t) (hsilent : s.silent = false)
    (hphase : s.phase = .closed) :
  Broken t
  := by
  obtain ⟨lines, hne, hlines, rfl⟩ := h
  left
  rw [addLines, if_neg (by simp [hsilent]), State.phase, phase_append]
  change s.phase.after Item.part lines = .broken
  rw [hphase]
  exact Phase.after_closed_head hne hlines

theorem Good.not_ended (h : Good s) (hended : ¬ s.Ended) :
  s.silent = true ∨ s.sentHeader = false ∧ s.silent = false ∧ s.dataWasOutput = false
      ∧ s.phase = .empty
    ∨ s.sentHeader = true ∧ s.silent = false ∧ s.dataWasOutput = false ∧ s.phase = .head
    ∨ s.sentHeader = true ∧ s.silent = false ∧ s.dataWasOutput = true ∧ s.phase = .closed
  := by
  cases h with
  | start silent sent data phase => exact .inr (.inl ⟨sent, silent, data, phase⟩)
  | begun silent sent data phase => exact .inr (.inr (.inl ⟨sent, silent, data, phase⟩))
  | ended silent data phase =>
    right; right; right
    refine ⟨?_, silent, data, phase⟩
    by_contra hsent
    apply hended
    exact ⟨data, by simpa using hsent, silent⟩
  | silenced silent => exact .inl silent

/-- Once the header was ended and does not count as sent, the response is closed. -/
theorem Good.phase_of_ended (h : Good s) (hended : s.Ended) :
  s.phase = .closed ∧ s.disableOutput = true
  := by
  obtain ⟨hdata, hsent, hsilent⟩ := hended
  cases h with
  | start silent sent data =>
    rw [hdata] at data
    cases data
  | begun silent sent data =>
    rw [hdata] at data
    cases data
  | ended silent data phase disabled => exact ⟨phase, disabled hsent⟩
  | silenced silent =>
    rw [hsilent] at silent
    cases silent

/-! ### Pages for errors, and data -/

theorem errorPage_of_unsent {st : Int} {line : List UInt8} (hsent : s.sentHeader = false) :
  State.errorPage st line s
    = (({ s with sentHeader := true }.genSetStatus st line).genSetContentType htmlType).genHeaderEnd
  := by
  have herr : s.velyHeaderErr = ({ s with sentHeader := true }, true) := if_neg (by simp [hsent])
  rw [State.errorPage, herr]
  exact if_pos rfl

theorem errorPage_of_sent {st : Int} {line : List UInt8} (hsent : s.sentHeader = true) :
  State.errorPage st line s = if s.dataWasOutput then s else s.genHeaderEnd
  := by
  have herr : s.velyHeaderErr = (if s.dataWasOutput then s else s.genHeaderEnd, false) :=
    if_pos hsent
  rw [State.errorPage, herr]
  exact if_neg Bool.false_ne_true

theorem Good.errorPage {st : Int} {line : List UInt8} (h : Good s) (hended : ¬ s.Ended) :
  Good (State.errorPage st line s)
  := by
  obtain hsilent | ⟨sent, silent, data, phase⟩ | ⟨sent, silent, data, phase⟩
    | ⟨sent, silent, data, phase⟩ := h.not_ended hended
  · exact h.grows_of_silent hsilent errorPage_grows
  · have hlined : Lined { s with sentHeader := true }
        (({ s with sentHeader := true }.genSetStatus st line).genSetContentType htmlType) :=
      (headed_genAddHeader.trans headed_genAddHeader.lined).lined
    obtain ⟨fsilent, fdata, fsent, -⟩ := hlined.flags
    rw [errorPage_of_unsent sent]
    apply good_genHeaderEnd
    · rw [fsilent, silent]
    · rw [fdata, data]
    · exact hlined.phase_head (.inl phase)
    · intro hsent
      rw [fsent] at hsent
      cases hsent
  · rw [errorPage_of_sent sent, if_neg (by simp [data])]
    apply good_genHeaderEnd silent data (.inr phase)
    intro hsent
    rw [sent] at hsent
    cases hsent
  · rw [errorPage_of_sent sent, if_pos data]
    exact h

theorem Good.errorPage_of_ended {st : Int} {line : List UInt8} (h : Good s) (hended : s.Ended) :
  Broken (State.errorPage st line s)
  := by
  obtain ⟨hphase, -⟩ := h.phase_of_ended hended
  obtain ⟨hdata, hsent, hsilent⟩ := hended
  rw [errorPage_of_unsent hsent]
  apply Broken.grows _ genHeaderEnd_grows
  have hheaded : Headed { s with sentHeader := true }
      (({ s with sentHeader := true }.genSetStatus st line).genSetContentType htmlType) :=
    headed_genAddHeader.trans headed_genAddHeader.lined
  exact hheaded.broken hsilent hphase

/-- Data comes after the end of the header. -/
theorem Good.genWrite {iserr : Bool} {data : List UInt8} (h : Good s)
    (hdata : s.dataWasOutput = true) :
  Good (s.genWrite iserr data)
  := by
  cases hsilent : s.silent with
  | true => exact h.grows_of_silent hsilent genWrite_grows
  | false =>
    cases iserr with
    | true => exact h
    | false =>
      cases h with
      | start silent sent none =>
        rw [hdata] at none
        cases none
      | begun silent sent none =>
        rw [hdata] at none
        cases none
      | ended silent _ phase disabled =>
        rw [State.genWrite, if_neg Bool.false_ne_true]
        refine Good.ended silent hdata ?_ disabled
        change Framing.phase Item.part (s.out ++ [.body data]) = .closed
        rw [phase_append]
        change s.phase.after Item.part [.body data] = .closed
        rw [phase]
        rfl
      | silenced silent =>
        rw [hsilent] at silent
        cases silent

theorem Good.velyWriteWeb {iserr : Bool} {data : List UInt8} (h : Good s) (hended : ¬ s.Ended) :
  Good (outcome (s.velyWriteWeb iserr data))
  := by
  obtain hsilent | ⟨sent, silent, hdata, phase⟩ | ⟨sent, silent, hdata, phase⟩
    | ⟨sent, silent, hdata, phase⟩ := h.not_ended hended
  · exact h.grows_of_silent hsilent velyWriteWeb_grows
  · rw [State.velyWriteWeb, if_neg (by simp [sent])]
    exact h.errorPage hended
  · rw [State.velyWriteWeb, if_pos sent, if_neg (by simp [hdata])]
    apply Good.genWrite _ genHeaderEnd_dataWasOutput
    apply good_genHeaderEnd silent hdata (.inr phase)
    intro hsent
    rw [sent] at hsent
    cases hsent
  · rw [State.velyWriteWeb, if_pos sent, if_pos hdata]
    exact h.genWrite hdata

/-! ### Files -/

theorem Good.sendNamed {fname : List UInt8} {file : Option File} {header : Header} (h : Good s)
    (hsent : s.sentHeader = false) (hended : ¬ s.Ended) (hdisabled : s.disableOutput = true) :
  Good (outcome (s.sendNamed fname file header))
  := by
  obtain hsilent | ⟨-, silent, data, phase⟩ | ⟨sent, -⟩ | ⟨sent, -⟩ := h.not_ended hended
  · exact h.grows_of_silent hsilent (sendNamed_grows hsent)
  · obtain hsend | hsend | ⟨t, bytes, ht, hsend⟩ := sendNamed_cases fname file header hsent
    · rw [hsend]
      exact h.errorPage hended
    · obtain ⟨t, ht, hend⟩ := headed_notModified (s := s) header
      obtain ⟨fsilent, fdata, -, fdisabled⟩ := ht.lined.flags
      rw [hsend]
      change Good (s.notModified header)
      rw [hend]
      apply good_genHeaderEnd
      · rw [fsilent, silent]
      · rw [fdata, data]
      · exact ht.lined.phase_head (.inl phase)
      · intro _
        rw [fdisabled, hdisabled]
    · obtain ⟨fsilent, fdata, -, -⟩ := ht.lined.flags
      rw [hsend, State.velyWriteWeb, if_pos rfl, if_neg (by simp [fdata, data])]
      apply Good.genWrite _ genHeaderEnd_dataWasOutput
      apply good_genHeaderEnd
      · exact fsilent.trans silent
      · exact fdata.trans data
      · exact ht.lined.phase_head (.inl phase)
      · intro hnot
        cases hnot
  · rw [hsent] at sent
    cases sent
  · rw [hsent] at sent
    cases sent

theorem Good.sendNamed_of_ended {fname : List UInt8} {file : Option File} {header : Header}
    (h : Good s) (hended : s.Ended) :
  Broken (outcome (s.sendNamed fname file header))
  := by
  obtain ⟨hphase, -⟩ := h.phase_of_ended hended
  have hsilent := hended.2.2
  obtain hsend | hsend | ⟨t, bytes, ht, hsend⟩ := sendNamed_cases fname file header hended.2.1
  · rw [hsend]
    exact h.errorPage_of_ended hended
  · obtain ⟨t, ht, hend⟩ := headed_notModified (s := s) header
    rw [hsend]
    change Broken (s.notModified header)
    rw [hend]
    exact (ht.broken hsilent hphase).grows genHeaderEnd_grows
  · rw [hsend]
    apply (ht.broken hsilent hphase).grows
    apply Grows.trans _ velyWriteWeb_grows
    exact Grows.of_out rfl id

/-! ### Steps -/

/-- Only the flags of cookies and of output differ, and the response is the same. -/
theorem Good.congr (h : Good s) (hout : t.out = s.out) (hsilent : t.silent = s.silent)
    (hsent : t.sentHeader = s.sentHeader) (hdata : t.dataWasOutput = s.dataWasOutput)
    (hdisabled : s.disableOutput = true → t.disableOutput = true) :
  Good t
  := by
  have hphase : t.phase = s.phase := by rw [State.phase, hout, State.phase]
  cases h with
  | start silent sent data phase =>
    exact .start (hsilent.trans silent) (hsent.trans sent) (hdata.trans data) (hphase.trans phase)
  | begun silent sent data phase =>
    exact .begun (hsilent.trans silent) (hsent.trans sent) (hdata.trans data) (hphase.trans phase)
  | ended silent data phase disabled =>
    apply Good.ended (hsilent.trans silent) (hdata.trans data) (hphase.trans phase)
    intro hnot
    exact hdisabled (disabled (hsent.symm.trans hnot))
  | silenced silent phase =>
    apply Good.silenced (hsilent.trans silent)
    rw [hphase]
    exact phase

theorem Good.velyOutputHttpHeader (h : Good s) :
  Good s.velyOutputHttpHeader
  := by
  cases hsilent : s.silent with
  | true => exact h.grows_of_silent hsilent velyOutputHttpHeader_grows
  | false =>
    rw [State.velyOutputHttpHeader]
    split
    · exact h
    · split
      · exact h
      · rename_i hsent hdisabled
        have hended : ¬ s.Ended := fun hended => hdisabled (h.phase_of_ended hended).2
        obtain silent | ⟨-, -, data, phase⟩ | ⟨sent, -⟩ | ⟨sent, -⟩ := h.not_ended hended
        · rw [hsilent] at silent
          cases silent
        · obtain ⟨lines, hne, hlines, hsend⟩ := headed_velySendHeader
            (s := { s with sentHeader := true })
          rw [hsend, addLines, if_neg (by simp [hsilent])]
          refine Good.begun hsilent rfl data ?_
          have hhead := phase_eq_head_iff.mpr hlines
          have hnone : s.out = [] := phase_eq_empty_iff.mp phase
          rw [State.phase, hnone, List.nil_append]
          apply hhead.resolve_left
          intro hempty
          exact hne (phase_eq_empty_iff.mp hempty)
        · exact absurd sent hsent
        · exact absurd sent hsent

/-- A step that fits keeps the frame. -/
theorem Good.exec (h : Good s) (hfits : op.Fits s) :
  Good (outcome (op.exec s))
  := by
  cases op with
  | output iserr data =>
    rw [Op.exec, State.velyPuts]
    split
    · split
      · rename_i hwrite
        exact h.velyWriteWeb fun hended => hfits hended hwrite
      · exact h
    · rename_i hvalid
      apply h.errorPage
      intro hended
      apply hvalid
      simp [velyValidateOutput, hfits hended]
  | startWriteString =>
    rw [Op.exec, State.startWriteString]
    have hmore : Good { s with writeStrings := s.writeStrings + 1 } := h.congr rfl rfl rfl rfl id
    dsimp only
    split
    · rename_i hmany
      apply hmore.errorPage
      intro hended
      have hroom := hfits hended
      omega
    · exact hmore
  | stopWriteString =>
    rw [Op.exec, State.stopWriteString]
    split
    · rename_i hnone
      apply h.errorPage
      intro hended
      exact hfits hended hnone
    · exact h.congr rfl rfl rfl rfl id
  | silentHeader =>
    apply Good.silenced rfl
    cases h with
    | start silent sent data phase => exact .inl phase
    | begun silent sent data phase => exact absurd ⟨sent, data, silent⟩ hfits
    | ended silent data phase disabled => exact .inr (.inr phase)
    | silenced silent phase => exact phase
  | outHeader use =>
    cases use with
    | none => exact h.velyOutputHttpHeader
    | some header =>
      apply Good.velyOutputHttpHeader
      exact h.congr rfl rfl rfl rfl id
  | setCookie name value path expires samesite httponly secure =>
    rw [Op.exec]
    cases hset : Cookies.velySetCookie s.toReq name value path expires samesite httponly secure with
    | error e => exact h.errorPage hfits
    | ok req =>
      obtain ⟨hdata, hsilent⟩ := velySetCookie_flags hset
      exact h.congr rfl hsilent rfl hdata id
  | deleteCookie name path secure =>
    rw [Op.exec]
    cases hdelete : Cookies.velyDeleteCookie s.toReq name path secure with
    | error e =>
      apply h.errorPage
      intro hended
      have hok := hfits hended
      rw [hdelete] at hok
      cases hok
    | ok r =>
      obtain ⟨hdata, hsilent⟩ := velyDeleteCookie_flags hdelete
      exact h.congr rfl hsilent rfl hdata id
  | sendFile fname file header =>
    rw [Op.exec, State.velyOutFile]
    split
    · split
      · exact h.errorPage hfits
      · rename_i hsent
        apply Good.sendNamed
        · exact h.congr rfl rfl rfl rfl fun _ => rfl
        · simpa using hsent
        · exact hfits
        · rfl
    · exact h.errorPage hfits
  | badRequest => exact h.errorPage hfits
  | reportError => exact h.errorPage hfits

/-- A step that does not fit breaks the response. -/
theorem Good.exec_of_not_fits (h : Good s) (hfits : ¬ op.Fits s) :
  Broken (outcome (op.exec s))
  := by
  cases op with
  | output iserr data =>
    obtain ⟨hended, hnone⟩ := Classical.not_imp.mp hfits
    have hvalid : s.velyValidateOutput = false := by
      simp [velyValidateOutput, (h.phase_of_ended hended).2, Classical.not_not.mp hnone]
    rw [Op.exec, State.velyPuts, if_neg (by simp [hvalid])]
    exact h.errorPage_of_ended hended
  | startWriteString =>
    obtain ⟨hended, hmany⟩ := Classical.not_imp.mp hfits
    rw [Op.exec, State.startWriteString]
    dsimp only
    rw [if_pos (by omega)]
    have hmore : Good { s with writeStrings := s.writeStrings + 1 } := h.congr rfl rfl rfl rfl id
    exact hmore.errorPage_of_ended hended
  | stopWriteString =>
    obtain ⟨hended, hnone⟩ := Classical.not_imp.mp hfits
    rw [Op.exec, State.stopWriteString, if_pos (Classical.not_not.mp hnone)]
    exact h.errorPage_of_ended hended
  | silentHeader =>
    obtain ⟨sent, data, silent⟩ := Classical.not_not.mp hfits
    right
    use rfl
    change s.phase = .head
    cases h with
    | start _ none =>
      rw [sent] at none
      cases none
    | begun _ _ _ phase => exact phase
    | ended _ some =>
      rw [data] at some
      cases some
    | silenced some =>
      rw [silent] at some
      cases some
  | outHeader use => exact absurd trivial hfits
  | setCookie name value path expires samesite httponly secure =>
    have hended := Classical.not_not.mp hfits
    have herror : Cookies.velySetCookie s.toReq name value path expires samesite httponly secure
        = .error .afterOutput := if_pos hended.1
    rw [Op.exec, herror]
    exact h.errorPage_of_ended hended
  | deleteCookie name path secure =>
    obtain ⟨hended, hok⟩ := Classical.not_imp.mp hfits
    rw [Op.exec]
    cases hdelete : Cookies.velyDeleteCookie s.toReq name path secure with
    | error e => exact h.errorPage_of_ended hended
    | ok r =>
      rw [hdelete] at hok
      exact absurd rfl hok
  | sendFile fname file header =>
    have hended := Classical.not_not.mp hfits
    rw [Op.exec, State.velyOutFile]
    split
    · rw [if_neg (by simp [hended.2.1])]
      have hdisabled : Good { s with disableOutput := true } := h.congr rfl rfl rfl rfl fun _ => rfl
      exact hdisabled.sendNamed_of_ended hended
    · exact h.errorPage_of_ended hended
  | badRequest => exact h.errorPage_of_ended (Classical.not_not.mp hfits)
  | reportError => exact h.errorPage_of_ended (Classical.not_not.mp hfits)

/-! ### Runs -/

/-- A good response is framed once the request is at its end. -/
theorem Good.framed_velyShut (h : Good s) :
  Framed s.velyShut
  := by
  cases hsilent : s.silent with
  | true =>
    have hgood := h.grows_of_silent hsilent velyShut_grows
    have hstill := velyShut_grows.silent hsilent
    rw [framed_iff]
    cases hgood with
    | start silent =>
      rw [hstill] at silent
      cases silent
    | begun silent =>
      rw [hstill] at silent
      cases silent
    | ended silent data phase => exact .inr (.inl phase)
    | silenced silent phase =>
      obtain hempty | hbare | hclosed := phase
      · exact .inl hempty
      · exact .inr (.inr ⟨hstill, hbare⟩)
      · exact .inr (.inl hclosed)
  | false =>
    rw [velyShut, framed_iff]
    cases h with
    | start silent sent data phase =>
      rw [if_neg (by simp [sent])]
      exact .inl phase
    | begun silent sent data phase =>
      rw [if_pos (by simp [sent, data])]
      exact .inr (.inl (phase_genHeaderEnd silent data (.inr phase)))
    | ended silent data phase =>
      rw [if_neg (by simp [data])]
      exact .inr (.inl phase)
    | silenced silent =>
      rw [hsilent] at silent
      cases silent

theorem Broken.run (h : Broken s) :
  Broken (run ops s)
  := by
  induction ops generalizing s with
  | nil => exact h.grows velyShut_grows
  | cons op ops ih =>
    have hstep : Broken (outcome (op.exec s)) := h.grows Op.exec_grows
    rw [Http.run]
    cases hexec : op.exec s with
    | ok t =>
      rw [hexec] at hstep
      exact ih hstep
    | error t =>
      rw [hexec] at hstep
      exact Broken.grows hstep velyShut_grows

theorem Good.run_framed_iff (h : Good s) :
  Framed (run ops s) ↔ FitsAll ops s
  := by
  induction ops generalizing s with
  | nil => exact iff_of_true h.framed_velyShut trivial
  | cons op ops ih =>
    rw [FitsAll, Http.run]
    by_cases hfits : op.Fits s
    · have hstep := h.exec hfits
      rw [and_iff_right hfits]
      cases hexec : op.exec s with
      | ok t =>
        rw [hexec] at hstep
        exact ih hstep
      | error t =>
        rw [hexec] at hstep
        exact iff_of_true (Good.framed_velyShut hstep) trivial
    · have hstep := h.exec_of_not_fits hfits
      apply iff_of_false
      · apply Broken.not_framed
        cases hexec : op.exec s with
        | ok t =>
          rw [hexec] at hstep
          exact Broken.run hstep
        | error t =>
          rw [hexec] at hstep
          exact Broken.grows hstep velyShut_grows
      · exact fun hall => hfits hall.1

theorem good_start {silent : Bool} {cookies : List (List UInt8)} {ifNoneMatch : Option CString} :
  Good (State.start silent cookies ifNoneMatch)
  := by
  cases silent with
  | false => exact .start rfl rfl rfl rfl
  | true => exact .silenced rfl (.inl rfl)

/-- The response of a request is framed exactly when each of its steps fits. -/
theorem response_framed_iff
    (silent : Bool) (cookies : List (List UInt8)) (ifNoneMatch : Option CString) (ops : List Op) :
  Framed (run ops (State.start silent cookies ifNoneMatch))
    ↔ FitsAll ops (State.start silent cookies ifNoneMatch)
  := good_start.run_framed_iff

/-- An error that is reported after a file was not modified writes a header after the end of the
header. -/
theorem not_framed_notModified :
  ¬ Framed (run
    [.sendFile (ascii "logo.png") (some ⟨7, true, ascii "logo", true⟩)
      ⟨ascii "image/png", none, none, none, true, 0, none, []⟩, .reportError]
    (State.start false [] (some ⟨ascii "7", by decide⟩)))
  := by
  rw [framed_iff]
  decide +kernel

end

end Http

end Vely
