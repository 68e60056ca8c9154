import Vely.Fcgi.Params

/-!
# The records of a request

What is sent is read back as records: the begin of the request, one record with the parameters and
an empty one, and, when there is a body, records with its parts and an empty one.
-/

namespace Vely

namespace Fcgi

open FastCgi

/-! ## Writing -/

section Writing

/-- Each call of `write` takes some bytes, and the time is not up. -/
def Accepts (results : List WriteResult) : Prop := ∀ x ∈ results, ∃ n, x = .written (n + 1) false

/-- What is sent by `f` is `s`, and `f` fails only when `write` does, or when it has not returned
yet.  It does not fail when each call takes some bytes. -/
structure Sends (f : Wire → Except FcError Wire) (s : List UInt8) : Prop where
  sent : ∀ w w', f w = .ok w' → w'.sent = w.sent ++ s
  errors : ∀ w e, f w = .error e → e = .sockWrite ∨ e = .waiting
  accepted : ∃ n, ∀ w : Wire, Accepts w.results → n ≤ w.results.length →
    ∃ k ≤ n, f w = .ok ⟨w.results.drop k, w.sent ++ s⟩

variable {f g : Wire → Except FcError Wire} {s t : List UInt8}

theorem Sends.bind (hf : Sends f s) (hg : Sends g t) :
  Sends (fun w => f w >>= g) (s ++ t)
  := by
  constructor
  · intro w w' h
    cases hw : f w with
    | error e =>
      rw [hw] at h
      cases h
    | ok w₁ =>
      rw [hw] at h
      rw [hg.sent w₁ w' h, hf.sent w w₁ hw, List.append_assoc]
  · intro w e h
    cases hw : f w with
    | error e' =>
      rw [hw] at h
      cases h
      exact hf.errors w e hw
    | ok w₁ =>
      rw [hw] at h
      exact hg.errors w₁ e h
  · obtain ⟨n, hn⟩ := hf.accepted
    obtain ⟨m, hm⟩ := hg.accepted
    use n + m
    intro w hw hlen
    obtain ⟨k, hk, hfw⟩ := hn w hw (by omega)
    have hrest : Accepts (w.results.drop k) := fun x hx => hw x (List.mem_of_mem_drop hx)
    obtain ⟨j, hj, hgw⟩ := hm ⟨w.results.drop k, w.sent ++ s⟩ hrest (by
      rw [List.length_drop]
      omega)
    use k + j, by omega
    rw [hfw]
    change g ⟨w.results.drop k, w.sent ++ s⟩ = _
    rw [hgw, List.drop_drop, List.append_assoc]

theorem sends_nil :
  Sends .ok []
  := by
  constructor
  · intro w w' h
    cases h
    rw [List.append_nil]
  · intro w e h
    cases h
  · use 0
    intro w _ _
    use 0, le_rfl
    rw [List.drop_zero, List.append_nil]

theorem writeFrom_sent {buf sent : List UInt8} {results : List WriteResult} {w : Wire}
    (h : writeFrom buf sent results = .ok w) :
  w.sent = sent ++ buf
  := by
  induction results generalizing buf sent with
  | nil => cases h
  | cons x results ih =>
    cases x with
    | written n timeUp =>
      rw [writeFrom] at h
      split at h
      · cases h
        rfl
      · split at h
        · cases h
        · rw [ih h, List.append_assoc, List.take_append_drop]
    | interrupted => exact ih h
    | failed => cases h

theorem writeFrom_error {buf sent : List UInt8} {results : List WriteResult} {e : FcError}
    (h : writeFrom buf sent results = .error e) :
  e = .sockWrite ∨ e = .waiting
  := by
  induction results generalizing buf sent with
  | nil =>
    cases h
    exact Or.inr rfl
  | cons x results ih =>
    cases x with
    | written n timeUp =>
      rw [writeFrom] at h
      split at h
      · cases h
      · split at h
        · cases h
          exact Or.inl rfl
        · exact ih h
    | interrupted => exact ih h
    | failed =>
      cases h
      exact Or.inl rfl

theorem writeFrom_accepts {buf sent : List UInt8} {results : List WriteResult} (h : Accepts results)
    (hlen : buf.length + 1 ≤ results.length) :
  ∃ k ≤ buf.length + 1, writeFrom buf sent results = .ok ⟨results.drop k, sent ++ buf⟩
  := by
  induction results generalizing buf sent with
  | nil => cases hlen
  | cons x results ih =>
    obtain ⟨n, rfl⟩ := h x List.mem_cons_self
    have hrest : Accepts results := fun y hy => h y (List.mem_cons_of_mem _ hy)
    rw [writeFrom]
    split
    · exact ⟨1, by omega, rfl⟩
    · next hlt =>
      rw [List.length_cons] at hlen
      obtain ⟨k, hk, hw⟩ := @ih (buf.drop (n + 1)) (sent ++ buf.take (n + 1)) hrest (by
        rw [List.length_drop]
        omega)
      rw [List.length_drop] at hk
      use k + 1, by omega
      rw [if_neg (by decide), hw, List.append_assoc, List.take_append_drop]
      rfl

/-- Bytes are written, however the calls of `write` divide them. -/
theorem sends_vvWriteSocket (buf : List UInt8) :
  Sends (vvWriteSocket buf) buf
  := by
  constructor
  · intro w w' h
    exact writeFrom_sent h
  · intro w e h
    exact writeFrom_error h
  · use buf.length + 1
    intro w hw hlen
    exact writeFrom_accepts hw hlen

end Writing

/-! ## Records -/

theorem length_nil_lt :
  ([] : List UInt8).length < 256
  := by decide

/-- A record that is sent. -/
def record (kind : Nat) (content : List UInt8) (h : content.length < 65536) : Record :=
  ⟨UInt8.ofNat kind, reqId, content, [], 0, by decide, h, length_nil_lt⟩

/-- A header is built for the content of a record. -/
theorem buildHdr_eq (kind : Nat) (content : List UInt8) (h : content.length < 65536) :
  buildHdr content.length kind ++ content = (record kind content h).encode
  := by
  have hhigh : (content.length >>> 8) &&& 0xff = content.length / 256 := by
    rw [Nat.shiftRight_eq_div_pow, show (0xff : Nat) = 2 ^ 8 - 1 from rfl, Nat.and_two_pow_sub_one_eq_mod]
    omega
  have hlow : UInt8.ofNat (content.length &&& 0xff) = UInt8.ofNat content.length := by
    rw [show (0xff : Nat) = 2 ^ 8 - 1 from rfl, Nat.and_two_pow_sub_one_eq_mod]
    apply UInt8.toNat_inj.mp
    rw [UInt8.toNat_ofNat', UInt8.toNat_ofNat', Nat.mod_mod]
  rw [buildHdr, hhigh, hlow]
  simp [record, Record.encode, Record.header, word, reqId]

/-- The parts of a body. -/
def parts : Nat → List UInt8 → List (List UInt8)
  | 0, _ => []
  | fuel + 1, s => if s = [] then [] else s.take (maxLen - headerSize) :: parts fuel (s.drop (maxLen - headerSize))

theorem flatten_parts {fuel : Nat} {s : List UInt8} (h : s.length ≤ fuel) :
  (parts fuel s).flatten = s
  := by
  induction fuel generalizing s with
  | zero => rw [List.length_eq_zero_iff.mp (Nat.le_zero.mp h)]; rfl
  | succ fuel ih =>
    rw [parts]
    split
    · next hs => rw [hs]; rfl
    · next hs =>
      rw [List.flatten_cons, ih, List.take_append_drop]
      rw [List.length_drop]
      have hpos := List.length_pos_of_ne_nil hs
      simp only [maxLen, headerSize]
      omega

theorem mem_parts {fuel : Nat} {s c : List UInt8} (h : c ∈ parts fuel s) :
  c ≠ [] ∧ c.length ≤ maxLen - headerSize
  := by
  induction fuel generalizing s with
  | zero => cases h
  | succ fuel ih =>
    rw [parts] at h
    split at h
    · cases h
    · next hs =>
      obtain rfl | h := List.mem_cons.mp h
      · constructor
        · intro hnil
          rw [List.take_eq_nil_iff] at hnil
          obtain hzero | hnil := hnil
          · cases hzero
          · exact hs hnil
        · exact List.length_take_le _ _
      · exact ih h

/-- The contents of the records of a stream. -/
def stream (kind : Nat) (rs : List Record) : List (List UInt8) :=
  (rs.filter fun r => r.kind = UInt8.ofNat kind).map fun r => r.content

/-- The records with these contents. -/
def records (kind : Nat) (cs : List (List UInt8)) (h : ∀ c ∈ cs, c.length < 65536) : List Record :=
  cs.pmap (record kind) h

theorem stream_append (kind : Nat) (rs rs' : List Record) :
  stream kind (rs ++ rs') = stream kind rs ++ stream kind rs'
  := by
  unfold stream
  rw [List.filter_append, List.map_append]

theorem stream_records (kind kind' : Nat) (cs : List (List UInt8)) (h : ∀ c ∈ cs, c.length < 65536) :
  stream kind (records kind' cs h) = if UInt8.ofNat kind' = UInt8.ofNat kind then cs else []
  := by
  induction cs with
  | nil =>
    split
    · rfl
    · rfl
  | cons c cs ih =>
    have htail := ih fun d hd => h d (List.mem_cons_of_mem _ hd)
    unfold stream records at htail ⊢
    rw [List.pmap_cons, List.filter_cons]
    change (if decide (UInt8.ofNat kind' = UInt8.ofNat kind) = true then _ else _ : List Record).map _ = _
    by_cases hkind : UInt8.ofNat kind' = UInt8.ofNat kind
    · rw [if_pos (decide_eq_true hkind), if_pos hkind, List.map_cons, htail, if_pos hkind]
      rfl
    · rw [if_neg (by simpa using hkind), if_neg hkind, htail, if_neg hkind]

/-- Records are written one after the other. -/
theorem sends_record (kind : Nat) (content : List UInt8) (h : content.length < 65536) :
  Sends (fun w => vvWriteSocket (buildHdr content.length kind) w >>= vvWriteSocket content)
    (record kind content h).encode
  := by
  rw [← buildHdr_eq]
  exact (sends_vvWriteSocket _).bind (sends_vvWriteSocket content)

theorem sends_empty (kind : Nat) :
  Sends (vvWriteSocket (buildHdr 0 kind)) (record kind [] (by decide)).encode
  := by
  rw [← buildHdr_eq, List.append_nil]
  exact sends_vvWriteSocket _

/-- The body is sent in its parts. -/
theorem sends_sendBody (fuel : Nat) (s : List UInt8) (hparts : ∀ c ∈ parts fuel s, c.length < 65536) :
  Sends (sendBody fuel s s.length) (Record.code.encodeAll (records stdin (parts fuel s) hparts))
  := by
  induction fuel generalizing s with
  | zero => exact sends_nil
  | succ fuel ih =>
    by_cases hs : s = []
    · subst hs
      exact sends_nil
    · have hcons : parts (fuel + 1) s =
          s.take (maxLen - headerSize) :: parts fuel (s.drop (maxLen - headerSize)) := by
        rw [parts, if_neg hs]
      have hpos := List.length_pos_of_ne_nil hs
      have htake : (s.take (maxLen - headerSize)).length < 65536 :=
        hparts _ (by rw [hcons]; exact List.mem_cons_self)
      have hrest : ∀ c ∈ parts fuel (s.drop (maxLen - headerSize)), c.length < 65536 :=
        fun c hc => hparts c (by rw [hcons]; exact List.mem_cons_of_mem _ hc)
      have hencode : Record.code.encodeAll (records stdin (parts (fuel + 1) s) hparts) =
          (record stdin (s.take (maxLen - headerSize)) htake).encode
            ++ Record.code.encodeAll (records stdin _ hrest) := by
        unfold records
        simp only [hcons, List.pmap_cons]
        rfl
      rw [hencode]
      have hfirst := (sends_record stdin _ htake).bind (ih _ hrest)
      have hcurr : (if maxLen - headerSize < s.length then maxLen - headerSize else s.length) =
          (s.take (maxLen - headerSize)).length := by
        rw [List.length_take]
        split
        · omega
        · omega
      have htakes : s.take (s.take (maxLen - headerSize)).length = s.take (maxLen - headerSize) := by
        rw [List.length_take, List.take_eq_take_iff]
        omega
      have hdrops : s.drop (s.take (maxLen - headerSize)).length = s.drop (maxLen - headerSize) := by
        rw [List.length_take]
        obtain h | h := le_total (maxLen - headerSize) s.length
        · rw [min_eq_left h]
        · rw [min_eq_right h, List.drop_length, List.drop_of_length_le h]
      have hlen : s.length - (s.take (maxLen - headerSize)).length = (s.drop (maxLen - headerSize)).length := by
        rw [List.length_take, List.length_drop]
        omega
      have hbody : sendBody (fuel + 1) s s.length = fun w => (vvWriteSocket
          (buildHdr (s.take (maxLen - headerSize)).length stdin) w >>=
            vvWriteSocket (s.take (maxLen - headerSize))) >>=
          sendBody fuel (s.drop (maxLen - headerSize)) (s.drop (maxLen - headerSize)).length := by
        funext w
        rw [sendBody, if_pos hpos]
        simp only [hcurr, htakes, hdrops, hlen, bind_assoc]
      rw [hbody]
      exact hfirst

/-! ## Requests -/

/-- The name and the value of a parameter that is read back. -/
def bytesOfParam (p : Param) : List UInt8 × List UInt8 := (p.name, p.value)

/-- The bytes of a name and of a value. -/
def bytesOfPair (p : CString × CString) : List UInt8 × List UInt8 := (p.1.bytes, p.2.bytes)

/-- Parameters are read back. -/
theorem decode_params {ps : List (CString × CString)} (h : (paramsBytes ps).length < 2 ^ 31) :
  ∃ qs, Param.code.decodeAll (paramsBytes ps) = some qs ∧ qs.map bytesOfParam = ps.map bytesOfPair
  := by
  have hencode : ∃ qs, Param.code.encodeAll qs = paramsBytes ps
      ∧ qs.map bytesOfParam = ps.map bytesOfPair := by
    induction ps with
    | nil => exact ⟨[], rfl, rfl⟩
    | cons p ps ih =>
      obtain ⟨name, val⟩ := p
      rw [paramsBytes_cons, List.length_append, length_paramBytes] at h
      obtain ⟨qs, hqs, hmap⟩ := ih (by omega)
      have hname : name.bytes.length < 2 ^ 31 := by
        simp only [CString.length] at h
        omega
      have hval : val.bytes.length < 2 ^ 31 := by
        simp only [CString.length] at h
        omega
      use ⟨name.bytes, val.bytes, hname, hval⟩ :: qs
      rw [PrefixCode.encodeAll_cons, hqs, paramsBytes_cons, List.map_cons, List.map_cons, hmap]
      exact ⟨rfl, rfl⟩
  obtain ⟨qs, hqs, hmap⟩ := hencode
  use qs
  rw [← hqs, PrefixCode.decodeAll_encodeAll]
  exact ⟨rfl, hmap⟩

/-- The bytes `s`, read as records: one record of parameters and an empty one, from which the
parameters of the request are read, and, when there is a body, records with its parts and an empty
one. -/
structure Encoded (r : Request) (s : List UInt8) : Prop where
  encoded : ∃ rs, Record.code.decodeAll s = some rs ∧ (∀ x ∈ rs, x.id = 1)
    ∧ (∃ p qs, stream param rs = [p, []] ∧ Param.code.decodeAll p = some qs
      ∧ qs.map bytesOfParam = r.params.map bytesOfPair)
    ∧ match r.body with
      | some (b, _) => ∃ cs, stream stdin rs = cs ++ [[]] ∧ cs.flatten = b
        ∧ ∀ c ∈ cs, c ≠ [] ∧ c.length ≤ 65535
      | none => stream stdin rs = []

theorem parts_lt {fuel : Nat} {s : List UInt8} :
  ∀ c ∈ parts fuel s, c.length < 65536
  := by
  intro c hc
  have hle := (mem_parts hc).2
  simp only [maxLen, headerSize] at hle
  omega

/-- The records of the body. -/
def stdinRecords (r : Request) : List Record :=
  match r.body with
  | some (b, _) => records stdin (parts b.length b) parts_lt ++ [record stdin [] (by decide)]
  | none => []

theorem body_length {r : Request} {b : List UInt8} {t : CString} (h : r.body = some (b, t)) :
  r.contentLen = b.length
  := by
  unfold Request.body at h
  split at h
  · next hb ht =>
    split at h
    · cases h
    · cases h
      exact r.bodyLength b hb
  · cases h

theorem sends_sendStdin (r : Request) :
  Sends (sendStdin r) (Record.code.encodeAll (stdinRecords r))
  := by
  unfold stdinRecords
  cases hb : r.body with
  | none =>
    have hnone : sendStdin r = .ok := by
      funext w
      rw [sendStdin, hb]
    rw [hnone]
    exact sends_nil
  | some bt =>
    obtain ⟨b, t⟩ := bt
    have hlen : r.contentLen.toNat = b.length := by
      rw [body_length hb, Int.toNat_natCast]
    have hsome : sendStdin r = fun w =>
        sendBody b.length b b.length w >>= vvWriteSocket (buildHdr 0 stdin) := by
      funext w
      rw [sendStdin, hb]
      simp only [hlen]
    rw [hsome, PrefixCode.encodeAll_append, PrefixCode.encodeAll_cons]
    simp only [PrefixCode.encodeAll, List.flatMap_nil, List.append_nil]
    exact (sends_sendBody b.length b parts_lt).bind (sends_empty stdin)

theorem bytesOf_eq {s : List UInt8} :
  bytesOf ⟨s.map some⟩ s.length = .ok s
  := by
  have hmap : (s.map some).mapM id = some s := by
    induction s with
    | nil => rfl
    | cons c s ih =>
      rw [List.map_cons, List.mapM_cons, ih]
      rfl
  have htake : (s.map some).take s.length = s.map some := by
    rw [List.take_of_length_le]
    rw [List.length_map]
  rw [bytesOf, htake, hmap]
  exact if_pos rfl

/-- The parameters are sent as a record, which is followed by an empty one. -/
theorem sends_sendParams (r : Request) (h : (paramsBytes r.params).length < maxLen - headerSize)
    (hlt : (paramsBytes r.params).length < 65536) :
  Sends (sendParams r (parsePayload r))
    ((record param (paramsBytes r.params) hlt).encode ++ (record param [] (by decide)).encode)
  := by
  have hpass := sendPass_alloc r (by omega)
  have hsends := (sends_record param _ hlt).bind (sends_empty param)
  have hparams : sendParams r (parsePayload r) = fun w =>
      (vvWriteSocket (buildHdr (paramsBytes r.params).length param) w >>=
        vvWriteSocket (paramsBytes r.params)) >>= vvWriteSocket (buildHdr 0 param) := by
    funext w
    rw [sizePass_eq] at hpass
    rw [sendParams, sizePass_eq]
    simp only
    rw [if_neg (not_le.mpr h)]
    simp only [bind_assoc]
    congr 1
    funext w₁
    rw [hpass]
    change (bytesOf ⟨(paramsBytes r.params).map some⟩ (paramsBytes r.params).length >>= _) = _
    rw [bytesOf_eq]
    rfl
  rw [hparams]
  exact hsends

/-- The records of a request. -/
def requestRecords (r : Request) (hlt : (paramsBytes r.params).length < 65536) : List Record :=
  record begReq beginRequest (by decide) :: record param (paramsBytes r.params) hlt ::
    record param [] (by decide) :: stdinRecords r

/-- A request is sent as its records. -/
theorem sends_vvFcSend (r : Request) (heven : envOdd r = false)
    (h : (paramsBytes r.params).length < maxLen - headerSize)
    (hlt : (paramsBytes r.params).length < 65536) :
  Sends (vvFcSend r) (Record.code.encodeAll (requestRecords r hlt))
  := by
  have hbegin : Sends (vvWriteSocket (buildHdr beginRequest.length begReq ++ beginRequest))
      (record begReq beginRequest (by decide)).encode := by
    rw [← buildHdr_eq]
    exact sends_vvWriteSocket _
  have hsends := hbegin.bind ((sends_sendParams r h hlt).bind (sends_sendStdin r))
  have hencode : Record.code.encodeAll (requestRecords r hlt) =
      (record begReq beginRequest (by decide)).encode ++
      (((record param (paramsBytes r.params) hlt).encode ++ (record param [] (by decide)).encode) ++
      Record.code.encodeAll (stdinRecords r)) := by
    rw [requestRecords, PrefixCode.encodeAll_cons, PrefixCode.encodeAll_cons, PrefixCode.encodeAll_cons,
      List.append_assoc]
    rfl
  have hsend : vvFcSend r = fun w =>
      vvWriteSocket (buildHdr beginRequest.length begReq ++ beginRequest) w >>=
        fun w => sendParams r (parsePayload r) w >>= sendStdin r := by
    funext w
    unfold vvFcSend
    rw [heven]
    rfl
  rw [hencode, hsend]
  exact hsends

/-- The records of a request are read back from its bytes. -/
theorem encoded_requestRecords (r : Request)
    (hlt : (paramsBytes r.params).length < 65536) :
  Encoded r (Record.code.encodeAll (requestRecords r hlt))
  := by
  have hstdin : stream param (stdinRecords r) = [] ∧ stream begReq (stdinRecords r) = [] := by
    unfold stdinRecords
    cases r.body with
    | none => exact ⟨rfl, rfl⟩
    | some bt =>
      obtain ⟨b, t⟩ := bt
      simp only [stream_append, stream_records]
      exact ⟨rfl, rfl⟩
  obtain ⟨qs, hqs, hmap⟩ := @decode_params r.params (by omega)
  use requestRecords r hlt, PrefixCode.decodeAll_encodeAll _ _
  constructor
  · intro x hx
    rw [requestRecords, List.mem_cons, List.mem_cons, List.mem_cons] at hx
    obtain rfl | rfl | rfl | hx := hx
    · rfl
    · rfl
    · rfl
    · unfold stdinRecords at hx
      split at hx
      · obtain hx | hx := List.mem_append.mp hx
        · obtain ⟨c, hc, rfl⟩ := List.mem_pmap.mp hx
          rfl
        · rw [List.mem_singleton.mp hx]
          rfl
      · cases hx
  · constructor
    · refine ⟨paramsBytes r.params, qs, ?_, hqs, hmap⟩
      change paramsBytes r.params :: [] :: stream param (stdinRecords r) = _
      rw [hstdin.1]
    · have hrest : stream stdin (requestRecords r hlt) = stream stdin (stdinRecords r) := rfl
      rw [hrest]
      unfold stdinRecords
      cases r.body with
      | none => rfl
      | some bt =>
        obtain ⟨b, t⟩ := bt
        use parts b.length b
        simp only [stream_append, stream_records]
        use rfl, flatten_parts le_rfl
        intro c hc
        have hpart := mem_parts hc
        use hpart.1
        exact hpart.2.trans (by decide)

/-- When the parameters of a request are not too long, the size that is computed for them is the
number of bytes that are written into memory of that size, and the request is sent as its records,
from which its parameters and its body are read back. -/
theorem vvFcSend_encodes (r : Request) (heven : envOdd r = false)
    (hlimit : (paramsBytes r.params).length < maxLen - headerSize) :
  sendPass r (parsePayload r) (sizePass r (parsePayload r)).2
        (Block.alloc (sizePass r (parsePayload r)).1, 0) =
      .ok (⟨(paramsBytes r.params).map some⟩, (sizePass r (parsePayload r)).1)
    ∧ (sizePass r (parsePayload r)).1 = (paramsBytes r.params).length
    ∧ ∃ s, Sends (vvFcSend r) s ∧ Encoded r s
  := by
  have hlt : (paramsBytes r.params).length < 65536 := by
    simp only [maxLen, headerSize] at hlimit
    omega
  use sendPass_alloc r (by omega), by rw [sizePass_eq]
  exact ⟨_, sends_vvFcSend r heven hlimit hlt, encoded_requestRecords r hlt⟩

/-- A request with a body of three bytes, and one variable in the environment. -/
def sampleRequest : Request where
  reqMethod := literal "POST" (by decide)
  appPath := literal "/app" (by decide)
  req := literal "/req" (by decide)
  urlPayload := some (literal "/a/b?c=d" (by decide))
  contentType := some (literal "text/plain" (by decide))
  contentLen := 3
  reqBody := some [1, 2, 3]
  env := some [literal "NAME" (by decide), literal "value" (by decide)]
  bodyLength := by
    intro b hb
    cases hb
    rfl

theorem vvFcSend_encodes_sample :
  (paramsBytes sampleRequest.params).length < maxLen - headerSize
    ∧ ∃ s, Sends (vvFcSend sampleRequest) s ∧ Encoded sampleRequest s
  := by
  have hlimit : (paramsBytes sampleRequest.params).length < maxLen - headerSize := by decide +kernel
  exact ⟨hlimit, (vvFcSend_encodes sampleRequest (by decide) hlimit).2.2⟩

end Fcgi

end Vely
