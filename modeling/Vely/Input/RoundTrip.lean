import Vely.Input.Segments
import Vely.Input.Bounds

/-!
# Queries that were percent-encoded

A query made of names and percent-encoded values gives these parameters back.
-/

namespace Vely

/-- The bytes that are not encoded. -/
def isUnreserved (c : UInt8) : Bool :=
  isalnum c || c = '-'.toUInt8 || c = '.'.toUInt8 || c = '_'.toUInt8 || c = '~'.toUInt8

/-- A digit of an escape, as a letter of upper or lower case from ten on. -/
def hexDigit (upper : Bool) (d : Nat) : UInt8 :=
  UInt8.ofNat (if d < 10 then 48 + d else if upper then 55 + d else 87 + d)

/-- The second text is the first one, percent-encoded. -/
inductive PercentEncoded : List UInt8 → List UInt8 → Prop where
  | nil : PercentEncoded [] []
  | unreserved {c : UInt8} {v e : List UInt8} (hc : isUnreserved c = true)
      (h : PercentEncoded v e) : PercentEncoded (c :: v) (c :: e)
  | escape {c : UInt8} {v e : List UInt8} (hc : isUnreserved c = false) (upper upper' : Bool)
      (h : PercentEncoded v e) :
      PercentEncoded (c :: v)
        ('%'.toUInt8 :: hexDigit upper (c.toNat / 16) :: hexDigit upper' (c.toNat % 16) :: e)

theorem charFromHex_hexDigit (upper : Bool) {d : Nat} (hd : d < 16) :
  charFromHex (hexDigit upper d) = d
  := by
  have h : ∀ upper : Bool, ∀ d : Fin 16, charFromHex (hexDigit upper d) = (d : Nat) := by
    decide
  apply h upper ⟨d, hd⟩

/-- The halves of a byte make it. -/
theorem byte_halves (c : UInt8) :
  byte ((c.toNat / 16 : Nat) * 16 + (c.toNat % 16 : Nat)) = c
  := by
  have hn : ((c.toNat / 16 : Nat) : Int) * 16 + ((c.toNat % 16 : Nat) : Int) = (c.toNat : Int) := by
    omega
  have hc := c.toNat_lt
  have hmod : ((c.toNat : Int) % 2 ^ 8).toNat = c.toNat := by
    omega
  rw [hn, byte, UInt8.ofInt, hmod, UInt8.ofNat_toNat]

/-- The two digits of a byte stand for it. -/
theorem escaped_hexDigit (upper upper' : Bool) (c : UInt8) :
  escaped (hexDigit upper (c.toNat / 16)) (hexDigit upper' (c.toNat % 16)) = c
  := by
  have hc := c.toNat_lt
  rw [escaped, charFromHex_hexDigit upper (by omega), charFromHex_hexDigit upper' (by omega),
    byte_halves]

theorem ne_of_isUnreserved {c : UInt8} (h : isUnreserved c = true) :
  c ≠ '%'.toUInt8 ∧ c ≠ '&'.toUInt8 ∧ c ≠ '='.toUInt8 ∧ c ≠ '+'.toUInt8
  := by
  refine ⟨?_, ?_, ?_, ?_⟩
  all_goals
    rintro rfl
    exact absurd h (by decide)

/-- An encoded value is decoded to the value. -/
theorem PercentEncoded.reads {v e : List UInt8} (h : PercentEncoded v e) :
  whole e = true ∧ tokens false e = v.map .char
  := by
  induction h with
  | nil => exact ⟨rfl, rfl⟩
  | @unreserved c v e hc h ih =>
    obtain ⟨hp, ha, he, hplus⟩ := ne_of_isUnreserved hc
    have hplain : plain false c = c := by
      rw [plain, if_neg (by simp), plusToSpace_of_ne hplus]
    rw [whole_of_ne hp, tokens_of_ne hp ha he, hplain, ih.2]
    exact ⟨ih.1, rfl⟩
  | @escape c v e hc upper upper' h ih =>
    rw [whole_escape, tokens_escape, escaped_hexDigit, ih.2]
    exact ⟨ih.1, rfl⟩

/-- A valid name is decoded to itself. -/
theorem tokens_of_isNameChar {bs : List UInt8} (h : ∀ c ∈ bs, isNameChar false c = true)
    (isname : Bool) :
  whole bs = true ∧ tokens isname bs = bs.map .char
  := by
  induction bs with
  | nil => exact ⟨rfl, rfl⟩
  | cons c r ih =>
    have hc := h c (by simp)
    have hne : ∀ d : UInt8, isNameChar false d = false → c ≠ d := by
      rintro d hd rfl
      rw [hd] at hc
      cases hc
    have hp := hne '%'.toUInt8 (by decide)
    have hplain : plain isname c = c := by
      rw [plain, if_neg (fun h => absurd h.2 (hne _ (by decide))),
        plusToSpace_of_ne (hne _ (by decide))]
    obtain ⟨hw, ht⟩ := ih (fun d hd => h d (by simp [hd]))
    rw [whole_of_ne hp, tokens_of_ne hp (hne _ (by decide)) (hne _ (by decide)), hplain, ht]
    exact ⟨hw, rfl⟩

/-- A name and an encoded value make a segment that is read as the parameter. -/
theorem reads_of_percentEncoded {p : InputParam} {e : List UInt8}
    (hname : velyIsValidParamName p.name false = true) (h : PercentEncoded p.value.bytes e) :
  Reads (p.name.bytes ++ '='.toUInt8 :: e) p
  := by
  obtain ⟨hw, ht⟩ := tokens_of_isNameChar (isNameChar_of_valid hname) true
  obtain ⟨hwe, hte⟩ := h.reads
  constructor
  · rw [whole_append hw, whole_of_ne (by decide), hwe]
  · rw [tokens_append hw, tokens_equal, ht, hte]

/-- The bytes neither start nor end with a space. -/
def Untrimmed (bs : List UInt8) : Prop :=
  (∀ c ∈ bs.head?, isspace c = false) ∧ ∀ c ∈ bs.getLast?, isspace c = false

theorem trimmed_of_untrimmed {p : InputParam} (h : Untrimmed p.value.bytes) :
  p.trimmed = p
  := by
  apply InputParam.ext
  · rfl
  · apply CString.ext
    apply trimSpaces_eq_self h.1 h.2

/-- A query of percent-encoded parameters: names and encoded values, with signs `=` and `&`
between them. -/
def IsQuery (params : List InputParam) (text : List UInt8) : Prop :=
  ∃ es : List (List UInt8),
    List.Forall₂ (fun p e => PercentEncoded p.value.bytes e) params es
      ∧ text = joinSegments (List.zipWith (fun p e => p.name.bytes ++ '='.toUInt8 :: e) params es)

theorem forall₂_reads {params : List InputParam} {es : List (List UInt8)}
    (h : List.Forall₂ (fun p e => PercentEncoded p.value.bytes e) params es)
    (hname : ∀ p ∈ params, velyIsValidParamName p.name false = true) :
  List.Forall₂ Reads
    (List.zipWith (fun p e => p.name.bytes ++ '='.toUInt8 :: e) params es) params
  := by
  induction h with
  | nil => exact .nil
  | cons hp h ih =>
    constructor
    · apply reads_of_percentEncoded (hname _ (by simp)) hp
    · apply ih (fun q hq => hname q (by simp [hq]))

/-- The parameters of a query of percent-encoded parameters, their values trimmed. -/
theorem parseParams_isQuery {params : List InputParam} {text : List UInt8}
    {tail : List (Option UInt8)} (h : IsQuery params text) (hz : 0 ∉ text) (htail : tail ≠ [])
    (hname : ∀ p ∈ params, velyIsValidParamName p.name false = true) :
  parseParams (Block.ofText text tail) = .ok (params.map InputParam.trimmed)
  := by
  obtain ⟨es, hes, rfl⟩ := h
  have hreads := forall₂_reads hes hname
  obtain ⟨hfields, hcount, hwhole⟩ := Forall₂.fields hreads
  cases params with
  | nil =>
    obtain rfl := List.forall₂_nil_left_iff.mp hes
    have hparse := parseParams_ofText hz htail rfl rfl (by simp [pairParams, queryParams, tokens,
      joinSegments])
    exact hparse
  | cons p ps =>
    have hss : List.zipWith (fun p e => p.name.bytes ++ '='.toUInt8 :: e) (p :: ps) es ≠ [] := by
      intro hnil
      have hlen := hreads.length_eq
      rw [hnil] at hlen
      cases hlen
    have hpairs := pairParams_pairs [CString.empty] hname
    have hparse := parseParams_ofText hz htail (whole_joinSegments hwhole)
      (by rw [tokens_joinSegments hwhole, ordered_of_reads hreads])
    rw [queryParams_joinSegments hwhole, hcount, queryFields_joinSegments hwhole hss, hfields,
      hpairs] at hparse
    apply hparse
    simp

theorem map_trimmed {params : List InputParam} (h : ∀ p ∈ params, Untrimmed p.value.bytes) :
  params.map InputParam.trimmed = params
  := by
  rw [List.map_congr_left (fun p hp => trimmed_of_untrimmed (h p hp)), List.map_id']

/-- Without a body, the input is decoded from the query alone. -/
theorem bodyParams_query {env : InputEnv} (hmethod : env.method.bytes ≠ [])
    (hoptions : strcasecmp env.method.bytes (ascii "OPTIONS") = false)
    (htype : env.contentType.bytes = []) :
  ∃ tail, tail ≠ [] ∧ bodyParams env
    = (parseParams (Block.ofText env.query.bytes tail)).map (fun params => (params, []))
  := by
  have hmethodContent : methodContent env ⟨some (Block.ofText [] [none]), 0⟩
      = .ok (⟨some (Block.ofText [] [none]), 0⟩, []) := by
    cases hpost : env.isPost with
    | false => rw [methodContent_get _ hoptions hpost, ite_self]
    | true => rw [methodContent_post _ hoptions hpost, if_neg (by simpa using htype), if_neg (by simp)]
  obtain ⟨c, hjoin, tail, htail, hblock⟩ := @joinQuery_text env.query
    ⟨some (Block.ofText [] [none]), 0⟩ [] ⟨[none], by simp, rfl⟩ rfl
  have htext : joinTexts [] env.query.bytes = env.query.bytes := by
    rw [joinTexts]
    split
    · next hnil => rw [hnil]
    · rw [if_pos rfl]
  rw [htext] at hblock
  refine ⟨tail, htail, ?_⟩
  rw [bodyParams, buildContent_eq hmethod, receiveBody_empty htype, ok_bind, hmethodContent, ok_bind]
  simp only [hjoin, liftM_ok, ok_bind, pure_eq_ok, hblock]
  cases parseParams (Block.ofText env.query.bytes tail) <;> rfl

/-- A query made of parameters gives them back: wherever its text is in memory, and as the query of
a request without a body. -/
theorem query_roundTrip {params : List InputParam} {query : CString}
    (hname : ∀ p ∈ params, velyIsValidParamName p.name false = true)
    (hvalue : ∀ p ∈ params, Untrimmed p.value.bytes) (h : IsQuery params query.bytes) :
  (∀ tail, tail ≠ [] → parseParams (Block.ofText query.bytes tail) = .ok params)
    ∧ ∀ env : InputEnv, env.query = query → env.method.bytes ≠ [] → env.contentType.bytes = [] →
      strcasecmp env.method.bytes (ascii "OPTIONS") = false →
        bodyParams env = .ok (params, [])
  := by
  have hparse : ∀ tail, tail ≠ [] → parseParams (Block.ofText query.bytes tail) = .ok params := by
    intro tail htail
    rw [parseParams_isQuery h query.nonzero htail hname, map_trimmed hvalue]
  refine ⟨hparse, ?_⟩
  rintro env rfl hmethod htype hoptions
  obtain ⟨tail, htail, hbody⟩ := bodyParams_query hmethod hoptions htype
  rw [hbody, hparse tail htail]
  rfl

/-- A query of a parameter whose value has an ampersand. -/
theorem query_roundTrip_ampersand :
  parseParams (Block.ofText (ascii "a=x%26&b=") [none])
    = .ok [⟨⟨ascii "a", by decide⟩, ⟨ascii "x&", by decide⟩⟩, ⟨⟨ascii "b", by decide⟩, .empty⟩]
  := by
  have hx : PercentEncoded (ascii "x&") (ascii "x%26") :=
    .unreserved (by decide) (.escape (by decide) true false .nil)
  refine (@query_roundTrip _ ⟨ascii "a=x%26&b=", by decide⟩ (by decide) ?_
    ⟨[ascii "x%26", []], .cons hx (.cons .nil .nil), by decide⟩).1 _ (by simp)
  simp only [List.mem_cons, List.not_mem_nil, or_false, forall_eq_or_imp, forall_eq]
  refine ⟨⟨?_, ?_⟩, ?_, ?_⟩
  all_goals
    rintro c ⟨⟩
    try rfl

end Vely
