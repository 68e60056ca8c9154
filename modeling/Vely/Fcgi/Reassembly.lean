import Mathlib.Data.List.Basic
import Vely.Fcgi.Response

/-!
# The response is put together again

However the calls of `read` divide the records of a response, the data and the errors are the
contents of their records, one after the other.  When the server closes the connection before the
end of the response, an error is reported.
-/

namespace Vely

namespace Fcgi

open FastCgi

/-! ## Reading bytes -/

section Bytes

variable {len : Nat} {c : Reading} {s : Socket}

/-- Each call of `read` gets one byte or more, as long as there are any, and the calls that can be
made are more than the bytes. -/
structure Fragmented (s : Socket) : Prop where
  goOn : ∀ x ∈ s.results, ∃ n, x = .got n .goOn
  enough : s.bytes.length < s.results.length

theorem readFrom_all {bytes gotten : List UInt8} {results : List ReadResult}
    (hgo : ∀ x ∈ results, ∃ n, x = .got n .goOn) (hgot : gotten.length < len)
    (hbytes : len ≤ gotten.length + bytes.length) (hresults : bytes.length < results.length) :
  ∃ results', readFrom len c bytes gotten results =
      some ⟨some (gotten ++ bytes.take (len - gotten.length)), c,
        ⟨bytes.drop (len - gotten.length), results'⟩⟩
    ∧ (∀ x ∈ results', ∃ n, x = .got n .goOn)
    ∧ (bytes.drop (len - gotten.length)).length < results'.length
  := by
  induction results generalizing bytes gotten with
  | nil => cases hresults
  | cons x results ih =>
    obtain ⟨n, rfl⟩ := hgo x List.mem_cons_self
    have hrest : ∀ x ∈ results, ∃ n, x = .got n .goOn := fun x hx => hgo x (List.mem_cons_of_mem _ hx)
    have hne : bytes ≠ [] := by
      rintro rfl
      simp only [List.length_nil] at hbytes
      omega
    rw [List.length_cons] at hresults
    obtain ⟨k, hk⟩ : ∃ k, k = min (n + 1) (len - gotten.length) := ⟨_, rfl⟩
    have htake : (bytes.take k).length = k := by
      rw [List.length_take]
      omega
    rw [readFrom, if_neg hne]
    simp only [← hk]
    split
    · next hle =>
      rw [List.length_append, htake] at hle
      have hall : k = len - gotten.length := by omega
      rw [hall]
      refine ⟨results, rfl, hrest, ?_⟩
      rw [List.length_drop]
      omega
    · next hlt =>
      rw [List.length_append, htake] at hlt
      obtain ⟨results', hread, hgo', henough⟩ :=
        @ih (bytes.drop k) (gotten ++ bytes.take k) hrest
          (by rw [List.length_append, htake]; omega)
          (by rw [List.length_append, htake, List.length_drop]; omega)
          (by rw [List.length_drop]; omega)
      have hlen : len - (gotten ++ bytes.take k).length = len - gotten.length - k := by
        rw [List.length_append, htake]
        omega
      have hbuf : gotten ++ bytes.take k ++ (bytes.drop k).take (len - gotten.length - k) =
          gotten ++ bytes.take (len - gotten.length) := by
        rw [List.append_assoc, ← List.take_add]
        congr 2
        omega
      have hdrop : (bytes.drop k).drop (len - gotten.length - k) = bytes.drop (len - gotten.length) := by
        rw [List.drop_drop]
        congr 1
        omega
      rw [hlen, hbuf, hdrop] at hread
      rw [hlen, hdrop] at henough
      exact ⟨results', hread, hgo', henough⟩

theorem readFrom_end {bytes gotten : List UInt8} {results : List ReadResult}
    (hgo : ∀ x ∈ results, ∃ n, x = .got n .goOn) (hbytes : gotten.length + bytes.length < len)
    (hresults : bytes.length < results.length) :
  ∃ results', readFrom len c bytes gotten results = some ⟨none, checkRead 0 c, ⟨[], results'⟩⟩
  := by
  induction results generalizing bytes gotten with
  | nil => cases hresults
  | cons x results ih =>
    obtain ⟨n, rfl⟩ := hgo x List.mem_cons_self
    have hrest : ∀ x ∈ results, ∃ n, x = .got n .goOn := fun x hx => hgo x (List.mem_cons_of_mem _ hx)
    rw [List.length_cons] at hresults
    rw [readFrom]
    split
    · next hempty =>
      subst hempty
      exact ⟨results, rfl⟩
    · next hne =>
      have hpos := List.length_pos_of_ne_nil hne
      obtain ⟨k, hk⟩ : ∃ k, k = min (n + 1) (len - gotten.length) := ⟨_, rfl⟩
      have hle : (bytes.take k).length ≤ bytes.length := (List.take_sublist k bytes).length_le
      have hdrop : (bytes.take k).length + (bytes.drop k).length = bytes.length := by
        rw [← List.length_append, List.take_append_drop]
      have hone : 0 < (bytes.take k).length := by
        rw [List.length_take]
        omega
      simp only [← hk]
      rw [if_neg (by rw [List.length_append]; omega)]
      exact ih hrest (by rw [List.length_append]; omega) (by omega)

/-- All bytes that are asked for are read, when they are there. -/
theorem vvReadSocket_all (hs : Fragmented s) (hlen : 0 < len) (hbytes : len ≤ s.bytes.length) (c : Reading) :
  ∃ s', vvReadSocket len c s = some ⟨some (s.bytes.take len), c, s'⟩
    ∧ s'.bytes = s.bytes.drop len ∧ Fragmented s'
  := by
  obtain ⟨results', hread, hgo, henough⟩ :=
    @readFrom_all len c s.bytes [] s.results hs.goOn hlen (by simpa using hbytes) hs.enough
  exact ⟨⟨s.bytes.drop len, results'⟩, hread, rfl, hgo, henough⟩

/-- When there are not as many, the end of the file is reached. -/
theorem vvReadSocket_end (hs : Fragmented s) (hbytes : s.bytes.length < len) (c : Reading) :
  ∃ s', vvReadSocket len c s = some ⟨none, checkRead 0 c, s'⟩
  := by
  obtain ⟨results', hread⟩ := @readFrom_end len c s.bytes [] s.results hs.goOn (by simpa using hbytes) hs.enough
  exact ⟨_, hread⟩

end Bytes

/-! ## Reading records -/

section Records

variable {c : Reading} {s : Socket} {r : Record} {t : List UInt8}

/-- Between two records. -/
structure Ready (c : Reading) : Prop where
  doneHeader : c.doneHeader = false
  msgRemain : c.msgRemain = 0
  paddingLen : c.paddingLen = 0
  readDone : c.readDone = false
  readStatus : c.readStatus = 0
  interrupted : c.interrupted = false

/-- After the header of a record. -/
def headed (r : Record) (c : Reading) : Reading :=
  { c with
    type := r.kind
    msgRemain := r.content.length
    paddingLen := r.padding.length
    doneHeader := true }

/-- The content of a record is added to its stream. -/
def gathered (r : Record) (c : Reading) : Reading :=
  if r.kind = stdoutType then { c with data := c.data ++ r.content }
  else if r.kind = stderrType then { c with error := c.error ++ r.content }
  else { c with other := c.other ++ r.content }

theorem length_header (r : Record) :
  r.header.length = 8
  := rfl

/-- The header of a record is taken. -/
theorem takeHeader_header (hid : r.id = 1) (c : Reading) :
  takeHeader r.header c = (headed r c, true)
  := by
  have hcontent := ofWord_word r.content_lt
  have hpadding : (UInt8.ofNat r.padding.length).toNat = r.padding.length := by
    rw [UInt8.toNat_ofNat']
    exact Nat.mod_eq_of_lt r.padding_lt
  have hword : (UInt8.ofNat r.content.length).toNat
      + (UInt8.ofNat (r.content.length / 256)).toNat * 2 ^ 8 = r.content.length := by
    unfold ofWord at hcontent
    omega
  have hheader : r.header = [1, r.kind, 0, 1, UInt8.ofNat (r.content.length / 256),
      UInt8.ofNat r.content.length, UInt8.ofNat r.padding.length, r.reserved] := by
    unfold Record.header
    rw [hid]
    rfl
  rw [hheader]
  unfold takeHeader headed
  simp only [List.getElem?_cons_succ, List.getElem?_cons_zero, Option.getD_some]
  rw [if_neg (by decide), if_neg (by decide), hword, hpadding]

/-- A header is read. -/
theorem readHeader_header (hs : Fragmented s) (hid : r.id = 1) (hbytes : s.bytes = r.header ++ t)
    (c : Reading) :
  ∃ s', readHeader c s = some ⟨headed r c, s', true⟩ ∧ s'.bytes = t ∧ Fragmented s'
  := by
  have hlen : 8 ≤ s.bytes.length := by
    rw [hbytes, List.length_append, length_header]
    omega
  obtain ⟨s', hread, hrest, hs'⟩ := vvReadSocket_all hs (by decide) hlen c
  have htake : s.bytes.take 8 = r.header := by
    rw [hbytes, ← length_header r, List.take_left]
  have hdrop : s.bytes.drop 8 = t := by
    rw [hbytes, ← length_header r, List.drop_left]
  rw [htake] at hread
  rw [hdrop] at hrest
  use s'
  rw [readHeader, hread]
  simp only [takeHeader_header hid]
  exact ⟨trivial, hrest, hs'⟩

/-- The content of a record is read. -/
theorem readContent_content (hs : Fragmented s) (hkind : r.kind ≠ endReq)
    (hbytes : s.bytes = r.content ++ t) (c : Reading) :
  ∃ s', readContent (headed r c) s = some ⟨{ gathered r (headed r c) with msgRemain := 0 }, s', true⟩
    ∧ s'.bytes = t ∧ Fragmented s'
  := by
  unfold readContent
  by_cases hempty : r.content = []
  · have hzero : (headed r c).msgRemain = 0 := by
      rw [headed, hempty]
      rfl
    have hsame : { gathered r (headed r c) with msgRemain := 0 } = headed r c := by
      unfold gathered
      rw [hempty, List.append_nil, List.append_nil, List.append_nil]
      split
      · rw [← hzero]
      · split
        · rw [← hzero]
        · rw [← hzero]
    rw [hsame, if_neg (by omega)]
    rw [hempty, List.nil_append] at hbytes
    exact ⟨s, rfl, hbytes, hs⟩
  · have hpos : 0 < (headed r c).msgRemain := List.length_pos_of_ne_nil hempty
    have hlen : r.content.length ≤ s.bytes.length := by
      rw [hbytes, List.length_append]
      omega
    obtain ⟨s', hread, hrest, hs'⟩ := vvReadSocket_all hs hpos hlen (headed r c)
    rw [if_pos hpos, hread]
    change s'.bytes = s.bytes.drop r.content.length at hrest
    rw [hbytes, List.drop_left] at hrest
    have htake : s.bytes.take (headed r c).msgRemain = r.content := by
      rw [hbytes]
      exact List.take_left
    have htaken : takeContent r.content (headed r c) = (gathered r (headed r c), true) := by
      unfold takeContent gathered
      change (if r.kind = stdoutType then _ else if r.kind = stderrType then _ else
        if r.kind = endReq then _ else _) = _
      rw [if_neg hkind]
      split
      · rfl
      · split
        · rfl
        · rfl
    use s'
    simp only [htake, htaken, if_true]
    exact ⟨trivial, hrest, hs'⟩

/-- The padding of a record is read. -/
theorem readPadding_padding (hs : Fragmented s) (hkind : c.type ≠ unkType)
    (hpadding : c.paddingLen = r.padding.length) (hbytes : s.bytes = r.padding ++ t) :
  ∃ s', readPadding c s = some ⟨{ c with paddingLen := 0, doneHeader := false }, s', true⟩
    ∧ s'.bytes = t ∧ Fragmented s'
  := by
  unfold readPadding
  rw [if_neg hkind]
  by_cases hempty : r.padding = []
  · have hzero : c.paddingLen = 0 := by
      rw [hpadding, hempty]
      rfl
    have hsame : { c with paddingLen := 0, doneHeader := false } = { c with doneHeader := false } := by
      rw [← hzero]
    rw [hsame, if_neg (by omega)]
    rw [hempty, List.nil_append] at hbytes
    exact ⟨s, rfl, hbytes, hs⟩
  · have hpos : 0 < c.paddingLen := by
      rw [hpadding]
      exact List.length_pos_of_ne_nil hempty
    have hlen : c.paddingLen ≤ s.bytes.length := by
      rw [hbytes, List.length_append]
      omega
    obtain ⟨s', hread, hrest, hs'⟩ := vvReadSocket_all hs hpos hlen c
    rw [if_pos hpos, hread]
    rw [hbytes, hpadding, List.drop_left] at hrest
    exact ⟨s', rfl, hrest, hs'⟩

/-- The state after a record. -/
def absorbed (r : Record) (c : Reading) : Reading :=
  { gathered r (headed r c) with msgRemain := 0, paddingLen := 0, doneHeader := false }

/-- Adding to a stream leaves the rest of the state as it is. -/
theorem gathered_eq (r : Record) (c : Reading) :
  ∃ data error other, gathered r c = { c with data := data, error := error, other := other }
  := by
  unfold gathered
  split
  · exact ⟨_, _, _, rfl⟩
  · split
    · exact ⟨_, _, _, rfl⟩
    · exact ⟨_, _, _, rfl⟩

theorem gathered_type (r : Record) (c : Reading) :
  (gathered r c).type = c.type
  := by
  obtain ⟨_, _, _, h⟩ := gathered_eq r c
  rw [h]

theorem gathered_paddingLen (r : Record) (c : Reading) :
  (gathered r c).paddingLen = c.paddingLen
  := by
  obtain ⟨_, _, _, h⟩ := gathered_eq r c
  rw [h]

theorem gathered_doneHeader (r : Record) (c : Reading) :
  (gathered r c).doneHeader = c.doneHeader
  := by
  obtain ⟨_, _, _, h⟩ := gathered_eq r c
  rw [h]

/-- A record leaves a state that is between two records. -/
theorem Ready.absorbed (h : Ready c) (r : Record) :
  Ready (absorbed r c)
  := by
  obtain ⟨-, -, -, hdone, hstatus, hint⟩ := h
  unfold Fcgi.absorbed gathered headed
  split
  · exact ⟨rfl, rfl, rfl, hdone, hstatus, hint⟩
  · split
    · exact ⟨rfl, rfl, rfl, hdone, hstatus, hint⟩
    · exact ⟨rfl, rfl, rfl, hdone, hstatus, hint⟩

/-- The loop, at the message of a record. -/
theorem serverReadLoop_message {fuel : Nat} (h : c.doneHeader = true) {x : Step} (hx : readMessage c s = some x) :
  serverReadLoop (fuel + 1) c s =
    if !x.goOn || x.reading.readDone then some x.reading else serverReadLoop fuel x.reading x.socket
  := by
  rw [serverReadLoop, if_pos h, hx]

/-- The loop, at a header. -/
theorem serverReadLoop_header {fuel : Nat} (h : c.doneHeader = false) {x : Step} (hx : readHeader c s = some x) :
  serverReadLoop (fuel + 1) c s =
    if !x.goOn || x.reading.readDone then some x.reading else serverReadLoop fuel x.reading x.socket
  := by
  rw [serverReadLoop, if_neg (by rw [h]; decide), hx]

/-- The loop goes over a header. -/
theorem serverReadLoop_headed (hs : Fragmented s) (hready : Ready c) (hid : r.id = 1)
    (hbytes : s.bytes = r.header ++ t) (fuel : Nat) :
  ∃ s', serverReadLoop (fuel + 1) c s = serverReadLoop fuel (headed r c) s'
    ∧ s'.bytes = t ∧ Fragmented s'
  := by
  obtain ⟨s', hread, hrest, hs'⟩ := readHeader_header hs hid hbytes c
  use s'
  rw [serverReadLoop_header hready.doneHeader hread]
  have hdone : (headed r c).readDone = false := hready.readDone
  simp only [hdone, Bool.not_true, Bool.or_self, Bool.false_eq_true, if_false]
  exact ⟨trivial, hrest, hs'⟩

/-- The loop goes over a record. -/
theorem serverReadLoop_record (hs : Fragmented s) (hready : Ready c) (hid : r.id = 1)
    (hend : r.kind ≠ endReq) (hunk : r.kind ≠ unkType) (hbytes : s.bytes = r.encode ++ t) (fuel : Nat) :
  ∃ s', serverReadLoop (fuel + 2) c s = serverReadLoop fuel (absorbed r c) s'
    ∧ s'.bytes = t ∧ Fragmented s'
  := by
  have hsplit : s.bytes = r.header ++ (r.content ++ (r.padding ++ t)) := by
    rw [hbytes, Record.encode]
    simp
  obtain ⟨s₁, hheader, hb₁, hs₁⟩ := serverReadLoop_headed hs hready hid hsplit (fuel + 1)
  obtain ⟨s₂, hcontent, hb₂, hs₂⟩ := readContent_content hs₁ hend hb₁ c
  obtain ⟨s₃, hpadding, hb₃, hs₃⟩ := readPadding_padding
    (c := { gathered r (headed r c) with msgRemain := 0 }) hs₂
    (by rw [gathered_type]; exact hunk) (by rw [gathered_paddingLen]; rfl) hb₂
  have hmessage : readMessage (headed r c) s₁ = some ⟨absorbed r c, s₃, true⟩ := by
    rw [readMessage, hcontent, Option.bind_some, if_pos rfl, hpadding]
    rfl
  use s₃
  rw [hheader, serverReadLoop_message rfl hmessage]
  have hdone := (hready.absorbed r).readDone
  simp only [hdone, Bool.not_true, Bool.or_self, Bool.false_eq_true, if_false]
  exact ⟨trivial, hb₃, hs₃⟩

/-! ## The end of the response -/

/-- The state after the body of an end request. -/
def ended (e : Record) (c : Reading) : Reading :=
  { headed e c with readDone := true, reqStatus := appStatus e.content, msgRemain := 0 }

theorem readContent_end (hs : Fragmented s) {e : Record} (hkind : e.kind = endReq)
    (hlength : e.content.length = endReqSize) (hbytes : s.bytes = e.content ++ t) (c : Reading) :
  ∃ s', s'.bytes = t ∧ Fragmented s' ∧ readContent (headed e c) s = some
    (if protocolStatus e.content = 0 then ⟨ended e c, s', true⟩
    else ⟨{ headed e c with readDone := true }.fail errSrv, s', false⟩)
  := by
  have hmsg : (headed e c).msgRemain = 8 := hlength
  have hlen : 8 ≤ s.bytes.length := by
    rw [hbytes, List.length_append, hlength, endReqSize]
    omega
  obtain ⟨s', hread, hrest, hs'⟩ := vvReadSocket_all hs (by decide) hlen (headed e c)
  have height : e.content.length = 8 := hlength
  have htake : s.bytes.take 8 = e.content := by
    rw [hbytes, ← height, List.take_left]
  have hdrop : s.bytes.drop 8 = t := by
    rw [hbytes, ← height, List.drop_left]
  rw [htake] at hread
  rw [hdrop] at hrest
  have htype : (headed e c).type = endReq := hkind
  have htaken : takeContent e.content (headed e c) =
      if protocolStatus e.content ≠ 0 then ({ headed e c with readDone := true }.fail errSrv, false)
      else ({ headed e c with readDone := true, reqStatus := appStatus e.content }, true) := by
    have hstdout : (headed e c).type ≠ stdoutType := by
      rw [htype]
      decide
    have hstderr : (headed e c).type ≠ stderrType := by
      rw [htype]
      decide
    unfold takeContent
    rw [if_neg hstdout, if_neg hstderr, if_pos htype, if_neg (not_not.mpr hlength)]
  use s', hrest, hs'
  rw [readContent, hmsg, if_pos (by decide), hread]
  simp only [htaken]
  by_cases hstatus : protocolStatus e.content = 0
  · rw [if_pos hstatus, if_neg (not_not.mpr hstatus)]
    rfl
  · rw [if_neg hstatus, if_pos hstatus]
    rfl

/-- The loop ends with an end request. -/
theorem serverReadLoop_end (hs : Fragmented s) (hready : Ready c) {e : Record} (hid : e.id = 1)
    (hkind : e.kind = endReq) (hlength : e.content.length = endReqSize) (hbytes : s.bytes = e.encode)
    (fuel : Nat) :
  serverReadLoop (fuel + 2) c s = some
    (if protocolStatus e.content = 0 then { ended e c with paddingLen := 0, doneHeader := false }
    else { headed e c with readDone := true }.fail errSrv)
  := by
  obtain ⟨s₁, hheader, hb₁, hs₁⟩ := serverReadLoop_headed hs hready hid hbytes (fuel + 1)
  obtain ⟨s₂, hb₂, hs₂, hcontent⟩ := readContent_end hs₁ hkind hlength hb₁ c
  rw [hheader]
  by_cases hstatus : protocolStatus e.content = 0
  · rw [if_pos hstatus] at hcontent ⊢
    obtain ⟨s₃, hpadding, -, -⟩ := readPadding_padding (c := ended e c) (t := []) hs₂
      (by rw [show (ended e c).type = e.kind from rfl, hkind]; decide) rfl (by rw [hb₂, List.append_nil])
    have hmessage : readMessage (headed e c) s₁ =
        some ⟨{ ended e c with paddingLen := 0, doneHeader := false }, s₃, true⟩ := by
      rw [readMessage, hcontent, Option.bind_some, if_pos rfl, hpadding]
    rw [serverReadLoop_message rfl hmessage]
    rfl
  · rw [if_neg hstatus] at hcontent ⊢
    have hmessage : readMessage (headed e c) s₁ =
        some ⟨{ headed e c with readDone := true }.fail errSrv, s₂, false⟩ := by
      rw [readMessage, hcontent, Option.bind_some]
      rfl
    rw [serverReadLoop_message rfl hmessage]
    rfl

/-! ## A response that is cut -/

/-- The reading is over, with an error. -/
def Failed (o : Option Reading) : Prop := ∃ c, o = some c ∧ c.interrupted = false ∧ c.readStatus ≠ 0

theorem failed_fail (h : c.interrupted = false) {status : Int} (hstatus : status ≠ 0) :
  Failed (some (c.fail status))
  := ⟨c.fail status, rfl, h, hstatus⟩

/-- The end of the file inside of a record is an error. -/
theorem serverReadLoop_cut (hs : Fragmented s) (hready : Ready c) (hid : r.id = 1) (hunk : r.kind ≠ unkType)
    (hend : r.kind = endReq → r.content.length = endReqSize) (hpre : s.bytes <+: r.encode)
    (hcut : s.bytes.length < r.encode.length) (fuel : Nat) :
  Failed (serverReadLoop (fuel + 2) c s)
  := by
  have hlength : r.encode.length = 8 + (r.content.length + r.padding.length) := by
    rw [Record.encode, List.length_append, length_header, List.length_append]
  by_cases hheader : s.bytes.length < 8
  · obtain ⟨s', hread⟩ := vvReadSocket_end hs hheader c
    have hstep : readHeader c s = some ⟨checkRead 0 c, s', false⟩ := by
      rw [readHeader, hread]
    have hcheck : checkRead 0 c = c.fail errProtErr := by
      unfold checkRead
      rw [hready.doneHeader, hready.msgRemain, hready.paddingLen, hready.readDone]
      rfl
    rw [serverReadLoop_header hready.doneHeader hstep, hcheck]
    exact failed_fail hready.interrupted (by decide)
  · obtain ⟨u, hu⟩ : ∃ u, s.bytes = r.header ++ u := by
      have htake : s.bytes.take 8 = r.header := by
        obtain ⟨v, hv⟩ := hpre
        have h := congrArg (List.take 8) hv
        rw [List.take_append_of_le_length (by omega), Record.encode, ← length_header r, List.take_left] at h
        rwa [← length_header r]
      use s.bytes.drop 8
      rw [← htake, List.take_append_drop]
    have hpreU : u <+: r.content ++ r.padding := by
      rw [hu, Record.encode] at hpre
      exact (List.prefix_append_right_inj _).mp hpre
    have hlenU : u.length < r.content.length + r.padding.length := by
      rw [hu, List.length_append, length_header, hlength] at hcut
      omega
    obtain ⟨s₁, hloop, hb₁, hs₁⟩ := serverReadLoop_headed hs hready hid hu (fuel + 1)
    rw [hloop]
    have hcheck : ∀ c' : Reading, c'.doneHeader = true → checkRead 0 c' = c'.fail errProtErr := by
      intro c' hc'
      unfold checkRead
      rw [hc']
      rfl
    by_cases hcontent : u.length < r.content.length
    · obtain ⟨s', hread⟩ := @vvReadSocket_end r.content.length s₁ hs₁ (by rwa [hb₁]) (headed r c)
      have hmessage : readMessage (headed r c) s₁ = some ⟨(headed r c).fail errProtErr, s', false⟩ := by
        have hpos : 0 < (headed r c).msgRemain := by
          change 0 < r.content.length
          omega
        have hmsg : (headed r c).msgRemain = r.content.length := rfl
        rw [readMessage, readContent, if_pos hpos, hmsg, hread, hcheck _ rfl]
        rfl
      rw [serverReadLoop_message rfl hmessage]
      exact failed_fail (c := headed r c) hready.interrupted (by decide)
    · obtain ⟨v, hv⟩ : ∃ v, u = r.content ++ v := by
        obtain ⟨w, hw⟩ := hpreU
        have h := congrArg (List.take r.content.length) hw
        rw [List.take_append_of_le_length (by omega), List.take_left] at h
        use u.drop r.content.length
        conv_lhs => rw [← List.take_append_drop r.content.length u, h]
      have hlenV : v.length < r.padding.length := by
        rw [hv, List.length_append] at hlenU
        omega
      rw [hv] at hb₁
      -- the content is there, and what is cut is the padding
      have hpadding : ∀ (c' : Reading) (s₂ : Socket), c'.type ≠ unkType → c'.doneHeader = true →
          c'.paddingLen = r.padding.length → c'.interrupted = false → s₂.bytes = v → Fragmented s₂ →
          readContent (headed r c) s₁ = some ⟨c', s₂, true⟩ →
          Failed (serverReadLoop (fuel + 1) (headed r c) s₁) := by
        intro c' s₂ htype hdone hlen hint hb₂ hs₂ hread
        obtain ⟨s', hend⟩ := @vvReadSocket_end c'.paddingLen s₂ hs₂ (by rwa [hb₂, hlen]) c'
        have hpos : 0 < c'.paddingLen := by omega
        have hmessage : readMessage (headed r c) s₁ = some ⟨c'.fail errProtErr, s', false⟩ := by
          rw [readMessage, hread, Option.bind_some, if_pos rfl, readPadding, if_neg htype, if_pos hpos,
            hend, hcheck c' hdone]
        rw [serverReadLoop_message rfl hmessage]
        exact failed_fail hint (by decide)
      by_cases hkind : r.kind = endReq
      · obtain ⟨s₂, hb₂, hs₂, hread⟩ := readContent_end hs₁ hkind (hend hkind) hb₁ c
        by_cases hstatus : protocolStatus r.content = 0
        · rw [if_pos hstatus] at hread
          exact hpadding (ended r c) s₂ hunk rfl rfl hready.interrupted hb₂ hs₂ hread
        · rw [if_neg hstatus] at hread
          have hmessage : readMessage (headed r c) s₁ =
              some ⟨{ headed r c with readDone := true }.fail errSrv, s₂, false⟩ := by
            rw [readMessage, hread, Option.bind_some]
            rfl
          rw [serverReadLoop_message rfl hmessage]
          exact failed_fail (c := { headed r c with readDone := true }) hready.interrupted (by decide)
      · obtain ⟨s₂, hread, hb₂, hs₂⟩ := readContent_content hs₁ hkind hb₁ c
        apply hpadding _ s₂ _ _ _ _ hb₂ hs₂ hread
        · rw [gathered_type]
          exact hunk
        · rw [gathered_doneHeader]
          rfl
        · rw [gathered_paddingLen]
          rfl
        · exact (hready.absorbed r).interrupted

end Records

/-! ## Responses -/

/-- The records of a response: others than an end request or an unknown type, and then an end
request with a body of eight bytes.  They are all of the request one. -/
structure Records where
  before : List Record
  last : Record
  ids : ∀ r ∈ before, r.id = 1
  kinds : ∀ r ∈ before, r.kind ≠ endReq ∧ r.kind ≠ unkType
  lastId : last.id = 1
  lastKind : last.kind = endReq
  lastLength : last.content.length = endReqSize

namespace Records

variable (x : Records)

/-- The bytes of the records. -/
def bytes : List UInt8 := Record.code.encodeAll (x.before ++ [x.last])

/-- The contents of the records of a type, one after the other. -/
def contents (kind : UInt8) : List UInt8 :=
  (x.before.filter fun r => r.kind = kind).flatMap fun r => r.content

end Records

section Responses

variable {c : Reading} {s : Socket}

/-- The state after several records. -/
def absorbAll (rs : List Record) (c : Reading) : Reading := rs.foldl (fun c r => absorbed r c) c

theorem absorbAll_streams (rs : List Record) (c : Reading) :
  (absorbAll rs c).data = c.data ++ (rs.filter fun r => r.kind = stdoutType).flatMap (fun r => r.content)
    ∧ (absorbAll rs c).error = c.error ++ (rs.filter fun r => r.kind = stderrType).flatMap (fun r => r.content)
    ∧ (absorbAll rs c).reqStatus = c.reqStatus
  := by
  induction rs generalizing c with
  | nil =>
    use (List.append_nil _).symm, (List.append_nil _).symm
    rfl
  | cons r rs ih =>
    obtain ⟨hdata, herror, hstatus⟩ := ih (absorbed r c)
    rw [absorbAll, List.foldl_cons]
    change (absorbAll rs (absorbed r c)).data = _ ∧ (absorbAll rs (absorbed r c)).error = _
      ∧ (absorbAll rs (absorbed r c)).reqStatus = _
    rw [hdata, herror, hstatus, List.filter_cons, List.filter_cons]
    unfold absorbed gathered
    by_cases hstdout : r.kind = stdoutType
    · have hstderr : r.kind ≠ stderrType := by
        rw [hstdout]
        decide
      simp [hstdout, stdoutType, stderrType, headed]
    · by_cases hstderr : r.kind = stderrType
      · simp [hstderr, stdoutType, stderrType, headed]
      · simp [hstdout, hstderr, headed]

theorem absorbAll_ready (rs : List Record) (hready : Ready c) :
  Ready (absorbAll rs c)
  := by
  induction rs generalizing c with
  | nil => exact hready
  | cons r rs ih => exact ih (hready.absorbed r)

theorem length_encode_ge (r : Record) :
  8 ≤ r.encode.length
  := by
  rw [Record.encode, List.length_append, length_header]
  omega

/-- The loop goes over the records before an end request. -/
theorem serverReadLoop_records (rs : List Record) {t : List UInt8} (hs : Fragmented s) (hready : Ready c)
    (hids : ∀ r ∈ rs, r.id = 1) (hkinds : ∀ r ∈ rs, r.kind ≠ endReq ∧ r.kind ≠ unkType)
    (hbytes : s.bytes = Record.code.encodeAll rs ++ t) (fuel : Nat) :
  ∃ s', serverReadLoop (fuel + 2 * rs.length) c s = serverReadLoop fuel (absorbAll rs c) s'
    ∧ s'.bytes = t ∧ Fragmented s'
  := by
  induction rs generalizing c s with
  | nil => exact ⟨s, rfl, hbytes, hs⟩
  | cons r rs ih =>
    obtain ⟨hid, hids⟩ := List.forall_mem_cons.mp hids
    obtain ⟨hkind, hkinds⟩ := List.forall_mem_cons.mp hkinds
    rw [PrefixCode.encodeAll_cons, List.append_assoc] at hbytes
    obtain ⟨s₁, hloop, hb₁, hs₁⟩ :=
      serverReadLoop_record hs hready hid hkind.1 hkind.2 hbytes (fuel + 2 * rs.length)
    obtain ⟨s₂, hrest, hb₂, hs₂⟩ := ih hs₁ (hready.absorbed r) hids hkinds hb₁
    use s₂
    rw [List.length_cons, Nat.mul_succ, ← Nat.add_assoc, hloop, hrest]
    exact ⟨rfl, hb₂, hs₂⟩

/-- The loop fails on a part of the records. -/
theorem serverReadLoop_part (rs : List Record) {e : Record} (hs : Fragmented s) (hready : Ready c)
    (hids : ∀ r ∈ rs ++ [e], r.id = 1) (hkinds : ∀ r ∈ rs, r.kind ≠ endReq ∧ r.kind ≠ unkType)
    (hend : e.kind = endReq) (hlength : e.content.length = endReqSize)
    (hpre : s.bytes <+: Record.code.encodeAll (rs ++ [e]))
    (hne : s.bytes ≠ Record.code.encodeAll (rs ++ [e])) {fuel : Nat} (hfuel : 2 * s.bytes.length + 2 ≤ fuel) :
  Failed (serverReadLoop fuel c s)
  := by
  obtain ⟨n, rfl⟩ := Nat.exists_eq_add_of_le' (show 2 ≤ fuel by omega)
  induction rs generalizing c s n with
  | nil =>
    have hencode : Record.code.encodeAll ([] ++ [e]) = e.encode := List.append_nil _
    rw [hencode] at hpre hne
    apply serverReadLoop_cut hs hready (hids e (by simp)) (by rw [hend]; decide) (fun _ => hlength) hpre
    obtain hlt | heq := lt_or_eq_of_le hpre.length_le
    · exact hlt
    · exact absurd (hpre.eq_of_length heq) hne
  | cons r rs ih =>
    obtain ⟨hkind, hkinds⟩ := List.forall_mem_cons.mp hkinds
    rw [List.cons_append] at hpre hne hids
    obtain ⟨hid, hids⟩ := List.forall_mem_cons.mp hids
    rw [PrefixCode.encodeAll_cons] at hpre hne
    by_cases hlen : s.bytes.length < r.encode.length
    · apply serverReadLoop_cut hs hready hid hkind.2 (fun h => absurd h hkind.1) _ hlen
      exact List.prefix_of_prefix_length_le hpre (List.prefix_append _ _) hlen.le
    · obtain ⟨t, ht⟩ : r.encode <+: s.bytes :=
        List.prefix_of_prefix_length_le (List.prefix_append _ _) hpre (not_lt.mp hlen)
      have hge := length_encode_ge r
      rw [← ht, List.length_append] at hfuel
      obtain ⟨m, rfl⟩ : ∃ m, n = m + 2 := ⟨n - 2, by omega⟩
      obtain ⟨s₁, hloop, hb₁, hs₁⟩ := serverReadLoop_record hs hready hid hkind.1 hkind.2 ht.symm (m + 2)
      rw [hloop]
      apply ih hs₁ (hready.absorbed r) hids hkinds
      · rw [← ht] at hpre
        rw [hb₁]
        exact (List.prefix_append_right_inj _).mp hpre
      · intro heq
        apply hne
        rw [← ht, ← hb₁, heq]
        rfl
      · rw [hb₁]
        omega

theorem ready_init (reqStatus : Int) :
  Ready (Reading.init reqStatus)
  := ⟨rfl, rfl, rfl, rfl, rfl, rfl⟩

end Responses

/-- A response of an end request only, with application status 5 and protocol status 2. -/
def overloaded : Records where
  before := []
  last := ⟨endReq, 1, [0, 0, 0, 5, 2, 0, 0, 0], [], 0, by decide, by decide, by decide⟩
  ids := by simp
  kinds := by simp
  lastId := rfl
  lastKind := rfl
  lastLength := rfl

/-- The same response, with the data `hi` before it and with protocol status zero. -/
def complete : Records where
  before := [⟨stdoutType, 1, [104, 105], [0], 0, by decide, by decide, by decide⟩]
  last := ⟨endReq, 1, [0, 0, 0, 5, 0, 0, 0, 0], [], 0, by decide, by decide, by decide⟩
  ids := by simp
  kinds := by
    intro r hr
    rw [List.mem_singleton.mp hr]
    decide
  lastId := rfl
  lastKind := rfl
  lastLength := rfl

end Fcgi

end Vely
