import Mathlib.Data.FinEnum
import Vely.Lib.Base64
import Vely.Sec.Crypt

/-!
# Base64 and the room for what is decoded (`vely_b64_encode`, `vely_b64_decode`)

The library encodes and decodes blocks.  The length of what is decoded is found from the
equal signs at the end of the input, and a terminator is written there, whatever the input is.
-/

namespace Vely

/-- The calls of OpenSSL: what is written for the bytes given, none when a text is not valid
(`EVP_EncodeBlock`, `EVP_DecodeBlock`). -/
structure EvpBase64 where
  encodeBlock : List UInt8 → List UInt8
  decodeBlock : List UInt8 → Option (List UInt8)

/-- What is documented of the calls: blocks are written in base64, valid texts are read, and
what is read is three bytes for every four characters. -/
structure EvpBase64.Documented (o : EvpBase64) : Prop where
  encode_eq : ∀ b, o.encodeBlock b = Base64.encode b
  decode_valid : ∀ t, Base64.Valid t → o.decodeBlock t = some (Base64.decode t)
  decode_length : ∀ t d, o.decodeBlock t = some d → d.length = 3 * (t.length / 4)

/-! ### The functions -/

/-- `vely_b64_encode`: the text, and its length. -/
def velyB64Encode (o : EvpBase64) (input : Block) (inLen : Int) : Except Stop (Block × Int) := do
  let inLen ← givenLength input inLen
  let out ← velyMalloc (4 * (inLen + 2).tdiv 3 + 2)
  let given ← firstBytes input (int32 inLen).toNat
  let text := o.encodeBlock given
  let out ← out.putAll 0 (text ++ [0])
  return (out, int32 text.length)

/-- The loop of `vely_b64_decode` that counts equal signs, with the number of bytes before
those counted. -/
def finalLoop (input : Block) : Nat → Nat → Except Stop Nat
  | 0, _ => .error .fault
  | n + 1, final => do
    let c ← input.get n
    if c = '='.toUInt8 then finalLoop input n (final + 1) else return final

/-- `vely_b64_decode`: the bytes, and how many they are. -/
def velyB64Decode (o : EvpBase64) (input : Block) (ilen : Int) : Except Stop (Block × Int) := do
  let ilen ← givenLength input ilen
  let out ← velyMalloc ((3 * ilen).tdiv 4 + 4 + 1)
  let final ← finalLoop input ilen.toNat 0
  let given ← firstBytes input (int32 ilen).toNat
  match o.decodeBlock given with
  | none => do
    let out ← storeByte out (-1 - final) 0
    return (out, -1 - final)
  | some d => do
    let out ← out.putAll 0 d
    let out ← storeByte out (d.length - final) 0
    return (out, d.length - final)

/-- Nothing is read or written outside of the memory there is for it. -/
def InBounds {α : Type} (x : Except Stop α) : Prop := x ≠ .error .fault

/-! ### Encoding -/

/-- The text of the bytes that the library is given is written, with a terminator. -/
theorem velyB64Encode_text {o : EvpBase64} (ho : o.Documented) {input : Block} {b : List UInt8}
    {r : List (Option UInt8)} (h : input.cells = b.map some ++ r) :
  ∃ r', velyB64Encode o input b.length
    = .ok (⟨(Base64.encode (givenBytes b)).map some ++ some 0 :: r'⟩,
        int32 (Base64.encode (givenBytes b)).length)
  := by
  have hle : (givenBytes b).length ≤ b.length := by
    rw [length_givenBytes]
    exact int32_toNat_le _
  have hlength := Base64.length_encode (givenBytes b)
  obtain ⟨k, hk⟩ : ∃ k, 4 * ((b.length + 2) / 3) + 2
      = (Base64.encode (givenBytes b) ++ [0]).length + k := by
    apply Nat.exists_eq_add_of_le
    rw [List.length_append, List.length_singleton, hlength]
    omega
  have hgiven : givenLength input b.length = .ok (b.length : Int) := if_neg (by omega)
  have hmalloc : velyMalloc (4 * ((b.length : Int) + 2).tdiv 3 + 2)
      = .ok (Block.alloc ((Base64.encode (givenBytes b) ++ [0]).length + k)) := by
    apply velyMalloc_natCast
    rw [← hk, Int.tdiv_eq_ediv_of_nonneg (by omega)]
    omega
  have hput := @Block.putAll_of_cells
    (Block.alloc ((Base64.encode (givenBytes b) ++ [0]).length + k)) []
    (List.replicate (Base64.encode (givenBytes b) ++ [0]).length none) (List.replicate k none)
    (Base64.encode (givenBytes b) ++ [0]) 0
    (by rw [Block.alloc, List.nil_append, List.replicate_append_replicate]) rfl (by simp)
  refine ⟨List.replicate k none, ?_⟩
  rw [velyB64Encode, hgiven, ok_bind, hmalloc, ok_bind, firstBytes_given h, ok_bind]
  simp only [ho.encode_eq]
  rw [hput, ok_bind, pure_eq_ok, List.nil_append, List.map_append, List.append_assoc]
  rfl

/-! ### Decoding -/

/-- The number of equal signs at the end of a text. -/
def trailing (text : List UInt8) : Nat := (text.reverse.takeWhile (· = '='.toUInt8)).length

/-- The loop ends at a character that is no equal sign, and runs out of the text when there is
none. -/
theorem finalLoop_text {input : Block} {text : List UInt8} {r : List (Option UInt8)}
    (h : input.cells = text.map some ++ r) (final : Nat) :
  finalLoop input text.length final
    = if ∃ c ∈ text, c ≠ '='.toUInt8 then .ok (final + trailing text) else .error .fault
  := by
  induction text using List.reverseRecOn generalizing r final with
  | nil => rfl
  | append_singleton text c ih =>
    have hget : input.get text.length = .ok c :=
      Block.get_of_cells (l := text.map some) (r := r) (by simp [h]) (by simp)
    rw [List.length_append, List.length_singleton, finalLoop, hget, ok_bind]
    by_cases hc : c = '='.toUInt8
    · have htrailing : trailing (text ++ [c]) = trailing text + 1 := by
        simp [trailing, hc]
      have hsame : (∃ x ∈ text ++ [c], x ≠ '='.toUInt8) ↔ ∃ x ∈ text, x ≠ '='.toUInt8 := by
        simp [hc]
      rw [if_pos hc, ih (r := some c :: r) (by simp [h]), htrailing]
      simp only [hsame]
      congr 2
      omega
    · have hsome : ∃ x ∈ text ++ [c], x ≠ '='.toUInt8 := ⟨c, by simp, hc⟩
      rw [if_neg hc, if_pos hsome]
      simp [trailing, hc]

/-- What comes of the decoding of a text. -/
theorem velyB64Decode_text {o : EvpBase64} (ho : o.Documented) {input : Block}
    {text : List UInt8} {ilen : Int} {r : List (Option UInt8)}
    (h : input.cells = text.map some ++ some 0 :: r)
    (hilen : ilen = text.length ∨ ilen = -1 ∧ 0 ∉ text) :
  ((∃ c ∈ text, c ≠ '='.toUInt8)
      ∧ ∃ d r', o.decodeBlock (givenBytes text) = some d ∧ trailing text ≤ d.length
        ∧ velyB64Decode o input ilen
          = .ok (⟨(d.take (d.length - trailing text)).map some ++ some 0 :: r'⟩,
              (d.length - trailing text : Nat)))
    ∨ (¬ ((∃ c ∈ text, c ≠ '='.toUInt8)
        ∧ ∃ d, o.decodeBlock (givenBytes text) = some d ∧ trailing text ≤ d.length)
      ∧ velyB64Decode o input ilen = .error .fault)
  := by
  have hmalloc : velyMalloc ((3 * (text.length : Int)).tdiv 4 + 4 + 1)
      = .ok (Block.alloc (3 * text.length / 4 + 5)) := by
    apply velyMalloc_natCast
    rw [Int.tdiv_eq_ediv_of_nonneg (by omega)]
    omega
  have hread : velyB64Decode o input ilen
      = (do
          let final ← finalLoop input text.length 0
          match o.decodeBlock (givenBytes text) with
          | none => do
            let out ← storeByte (Block.alloc (3 * text.length / 4 + 5)) (-1 - final) 0
            return (out, -1 - (final : Int))
          | some d => do
            let out ← (Block.alloc (3 * text.length / 4 + 5)).putAll 0 d
            let out ← storeByte out (d.length - final) 0
            return (out, (d.length : Int) - final)) := by
    simp only [velyB64Decode, givenLength_text h hilen, ok_bind, hmalloc, Int.toNat_natCast,
      firstBytes_given h]
  rw [hread, finalLoop_text h]
  by_cases hchar : ∃ c ∈ text, c ≠ '='.toUInt8
  · rw [if_pos hchar, ok_bind, Nat.zero_add]
    cases hd : o.decodeBlock (givenBytes text) with
    | none =>
      right
      constructor
      · rintro ⟨-, d, hsome, -⟩
        cases hsome
      · rw [storeByte, if_pos (by omega), error_bind]
    | some d =>
      have hlength := ho.decode_length _ _ hd
      have hle := int32_toNat_le text.length
      rw [length_givenBytes] at hlength
      obtain ⟨k, hk⟩ : ∃ k, 3 * text.length / 4 + 5 = d.length + (1 + k) :=
        ⟨3 * text.length / 4 + 4 - d.length, by omega⟩
      have hput := @Block.putAll_of_cells (Block.alloc (3 * text.length / 4 + 5)) []
        (List.replicate d.length none) (List.replicate (1 + k) none) d 0
        (by rw [Block.alloc, hk, List.nil_append, List.replicate_append_replicate]) rfl (by simp)
      simp only [hput, ok_bind, List.nil_append]
      by_cases hfinal : trailing text ≤ d.length
      · left
        have hsplit : d.map some ++ List.replicate (1 + k) none
            = (d.take (d.length - trailing text)).map some
              ++ ((d.drop (d.length - trailing text)).map some ++ none :: List.replicate k none) := by
          rw [← List.append_assoc, ← List.map_append, List.take_append_drop, Nat.add_comm 1 k,
            List.replicate_succ]
        obtain ⟨x, r', hx⟩ := List.exists_cons_of_ne_nil (l := (d.drop (d.length - trailing text)).map
          some ++ none :: List.replicate k none) (by simp)
        have hstore := storeByte_of_cells (b := ⟨d.map some ++ List.replicate (1 + k) none⟩)
          (l := (d.take (d.length - trailing text)).map some) (x := x) (r := r')
          (i := (d.length : Int) - trailing text) 0 (by rw [hsplit, hx])
          (by rw [List.length_map, List.length_take]; omega)
        refine ⟨hchar, d, r', rfl, hfinal, ?_⟩
        rw [hstore, ok_bind]
        simp only [pure_eq_ok, Except.ok.injEq, Prod.mk.injEq, true_and]
        omega
      · right
        constructor
        · rintro ⟨-, d', hsome, hle'⟩
          cases hsome
          exact hfinal hle'
        · rw [storeByte, if_pos (by omega), error_bind]
  · right
    rw [if_neg hchar, error_bind]
    constructor
    · rintro ⟨h', -⟩
      exact hchar h'
    · rfl

theorem velyB64Decode_neg {o : EvpBase64} {input : Block} {ilen : Int} (h : ilen ≤ 0)
    (hne : ilen ≠ -1) (res : Block × Int) :
  velyB64Decode o input ilen ≠ .ok res
  := by
  have hgiven : givenLength input ilen = .ok ilen := if_neg hne
  have hlast : finalLoop input ilen.toNat 0 = .error .fault := by
    rw [Int.toNat_eq_zero.mpr h]
    rfl
  rw [velyB64Decode, hgiven, ok_bind]
  cases velyMalloc ((3 * ilen).tdiv 4 + 4 + 1) with
  | error s => simp
  | ok out => simp [hlast]

/-! ### There and back -/

theorem givenBytes_of_lt {b : List UInt8} (h : b.length < 2 ^ 31) :
  givenBytes b = b
  := by
  rw [givenBytes, int32_of_lt h, Int.toNat_natCast, List.take_length]

/-- The text of bytes is decoded to them, when its length is an `int`. -/
theorem velyB64Decode_encode {o : EvpBase64} (ho : o.Documented) {c : List UInt8}
    {r : List (Option UInt8)} (hne : c ≠ []) (hlt : (Base64.encode c).length < 2 ^ 31) :
  ∃ dst, velyB64Decode o ⟨(Base64.encode c).map some ++ some 0 :: r⟩ (Base64.encode c).length
      = .ok (dst, c.length)
    ∧ firstBytes dst c.length = .ok c
  := by
  obtain ⟨s, x, hx, hs⟩ := Base64.encode_split hne
  have hd : o.decodeBlock (givenBytes (Base64.encode c))
      = some (c ++ List.replicate (Base64.padLength c.length) 0) := by
    rw [givenBytes_of_lt hlt, ho.decode_valid _ (Base64.valid_encode c), Base64.decode_encode]
  have htrailing : trailing (Base64.encode c) = Base64.padLength c.length := by
    have hall : ∀ y ∈ List.replicate (Base64.padLength c.length) Base64.padding,
        decide (y = '='.toUInt8) = true := by
      intro y hy
      rw [List.eq_of_mem_replicate hy]
      rfl
    have hx' : x ≠ '='.toUInt8 := hx
    rw [trailing, hs, List.reverse_append, List.reverse_cons, List.reverse_replicate,
      List.append_assoc, List.takeWhile_append_of_pos hall]
    simp [hx']
  have hchar : ∃ y ∈ Base64.encode c, y ≠ '='.toUInt8 := ⟨x, by simp [hs], hx⟩
  rcases @velyB64Decode_text o ho ⟨(Base64.encode c).map some ++ some 0 :: r⟩ (Base64.encode c) _ r rfl
    (.inl rfl) with ⟨-, d, r', hsome, hle, hok⟩ | ⟨hnot, -⟩
  · rw [hd] at hsome
    obtain rfl := Option.some.inj hsome
    have hm : (c ++ List.replicate (Base64.padLength c.length) 0).length
        - trailing (Base64.encode c) = c.length := by
      rw [htrailing]
      simp
    rw [hm, List.take_left] at hok
    exact ⟨_, hok, firstBytes_of_cells rfl⟩
  · refine absurd ⟨hchar, _, hd, ?_⟩ hnot
    rw [htrailing]
    simp

/-! ### Main results -/

/-- The bytes of a ciphertext leave room for the plaintext and its terminator, or are too
many for there to be memory. -/
def RoomFor (d : EvpContext) (ct : List UInt8) : Prop :=
  int32 ct.length + alignment < 0 ∨ (d.output (givenBytes ct)).length < (givenBytes ct).length

theorem decrypted_inBounds (d : EvpContext) (ct : List UInt8) :
  InBounds (decrypted d ct) ↔ RoomFor d ct
  := by
  simp only [InBounds, decrypted, RoomFor]
  split
  next h => simp [h]
  next h =>
    split
    next hroom => simp [hroom]
    next hroom => simp [h, hroom]

/-- The bytes come back from their text exactly when there are some and the text is shorter than
2 GB. -/
theorem b64_roundTrip_iff {o : EvpBase64} (ho : o.Documented) (b : List UInt8)
    (r : List (Option UInt8)) :
  (∃ out olen dst, velyB64Encode o ⟨b.map some ++ r⟩ b.length = .ok (out, olen)
      ∧ velyB64Decode o out olen = .ok (dst, b.length)
      ∧ firstBytes dst b.length = .ok b)
    ↔ b ≠ [] ∧ 4 * ((b.length + 2) / 3) < 2 ^ 31
  := by
  obtain ⟨r', hencode⟩ := @velyB64Encode_text o ho ⟨b.map some ++ r⟩ b r rfl
  have hlength := Base64.length_encode (givenBytes b)
  have hgiven := length_givenBytes b
  have hint : (int32 b.length).toNat < 2 ^ 31 := by
    rw [int32, Int.bmod_def]
    omega
  constructor
  · rintro ⟨out, olen, dst, hout, hdst, -⟩
    rw [hencode] at hout
    obtain ⟨rfl, rfl⟩ := Prod.mk.inj (Except.ok.inj hout)
    by_cases hsmall : (Base64.encode (givenBytes b)).length < 2 ^ 31 ∧ givenBytes b ≠ []
    · -- What is decoded are the bytes that the library was given: they must be all.
      obtain ⟨dst', hdst', -⟩ := velyB64Decode_encode ho (r := r') hsmall.2 hsmall.1
      rw [int32_of_lt hsmall.1, hdst'] at hdst
      have hsame : (givenBytes b).length = b.length :=
        Int.ofNat.inj (congrArg Prod.snd (Except.ok.inj hdst))
      constructor
      · rintro rfl
        exact hsmall.2 rfl
      · rw [← hsame, ← hlength]
        exact hsmall.1
    · -- The text is empty, or its length is a number below zero.
      have hneg : int32 (Base64.encode (givenBytes b)).length ≤ 0
          ∧ int32 (Base64.encode (givenBytes b)).length ≠ -1 := by
        by_cases hempty : givenBytes b = []
        · rw [hempty]
          exact ⟨by decide, by decide⟩
        · have hbig : 2 ^ 31 ≤ (Base64.encode (givenBytes b)).length := by
            by_contra hlt
            exact hsmall ⟨by omega, hempty⟩
          rw [int32, Int.bmod_def]
          omega
      exact absurd hdst (velyB64Decode_neg hneg.1 hneg.2 _)
  · rintro ⟨hne, hlt⟩
    have hall : givenBytes b = b := givenBytes_of_lt (by omega)
    rw [hall] at hencode hlength
    rw [← hlength] at hlt
    rw [int32_of_lt hlt] at hencode
    obtain ⟨dst, hdst, hbytes⟩ := velyB64Decode_encode ho (r := r') hne hlt
    exact ⟨_, _, dst, hencode, hdst, hbytes⟩

/-- A text that has a character other than an equal sign, that the library reads, and that
does not end with more equal signs than it has bytes. -/
def Decodable (o : EvpBase64) (text : List UInt8) : Prop :=
  (∃ c ∈ text, c ≠ '='.toUInt8)
    ∧ ∃ d, o.decodeBlock (givenBytes text) = some d ∧ trailing text ≤ d.length

/-- Decoding stays inside of the input and of its memory exactly when the text is decodable, and
decryption exactly when the plaintext is shorter than the bytes it is made of; that text is
hexadecimal never matters.  The bytes come back from their base64 text exactly when there are
some, and their text is shorter than 2 GB. -/
theorem decoding_inBounds_iff {o : EvpBase64} (ho : o.Documented) :
  (∀ (text : List UInt8) (ilen : Int) (r : List (Option UInt8)),
      (ilen = text.length ∨ ilen = -1 ∧ 0 ∉ text) →
      (InBounds (velyB64Decode o ⟨text.map some ++ some 0 :: r⟩ ilen) ↔ Decodable o text))
    ∧ (∀ (d : EvpContext) (text : List UInt8) (r : List (Option UInt8)),
      InBounds (cipherFromHex ⟨text.map some ++ some 0 :: r⟩ text.length)
      ∧ (InBounds (velyDecrypt d ⟨text.map some ++ some 0 :: r⟩ text.length false)
        ↔ RoomFor d (cipherBytes text))
      ∧ (InBounds (velyDecrypt d ⟨text.map some ++ some 0 :: r⟩ text.length true)
        ↔ RoomFor d text))
    ∧ ∀ (b : List UInt8) (r : List (Option UInt8)),
      (∃ out olen dst, velyB64Encode o ⟨b.map some ++ r⟩ b.length = .ok (out, olen)
        ∧ velyB64Decode o out olen = .ok (dst, b.length)
        ∧ firstBytes dst b.length = .ok b)
      ↔ b ≠ [] ∧ 4 * ((b.length + 2) / 3) < 2 ^ 31
  := by
  refine ⟨?_, ?_, b64_roundTrip_iff ho⟩
  · intro text ilen r hilen
    rcases @velyB64Decode_text o ho ⟨text.map some ++ some 0 :: r⟩ text ilen r rfl hilen with
      ⟨hchar, d, r', hd, hle, hok⟩ | ⟨hnot, hfault⟩
    · rw [InBounds, hok]
      simp only [ne_eq, reduceCtorEq, not_false_eq_true, true_iff]
      exact ⟨hchar, d, hd, hle⟩
    · rw [InBounds, hfault]
      simp only [ne_eq, not_true_eq_false, false_iff]
      exact hnot
  · intro d text r
    obtain ⟨r', hread⟩ := @cipherFromHex_text ⟨text.map some ++ some 0 :: r⟩ text r rfl
    refine ⟨?_, ?_, ?_⟩
    · rw [InBounds, hread]
      simp
    · rw [velyDecrypt, if_neg (by decide), hread, ok_bind, ← decrypted_inBounds]
      exact iff_of_eq (congrArg InBounds (evpDecrypt_cells d rfl))
    · rw [velyDecrypt, if_pos rfl, ok_bind, ← decrypted_inBounds]
      exact iff_of_eq (congrArg InBounds (evpDecrypt_cells d rfl))

/-- The calls as the library makes them: an equal sign is read anywhere. -/
def openssl : EvpBase64 where
  encodeBlock := Base64.encode
  decodeBlock t :=
    if t.length % 4 = 0 ∧ ∀ c ∈ t, c ∈ Base64.alphabet ∨ c = Base64.padding then
      some (Base64.decode t)
    else none

theorem openssl_documented :
  openssl.Documented
  := by
  constructor
  · intro b
    rfl
  · intro t ht
    exact if_pos ht.mem
  · intro t d hd
    simp only [openssl] at hd
    split at hd
    · rw [← Option.some.inj hd]
      exact Base64.length_decode t
    · cases hd

/-- A stream cipher: a plaintext is as long as its ciphertext. -/
def streamCipher : EvpContext := ⟨1, fun given => given.map (· ^^^ 42), fun _ => []⟩

theorem decoding_inBounds_witness :
  InBounds (velyB64Decode openssl ⟨(ascii "QQ==").map some ++ [some 0]⟩ 4)
    ↔ Decodable openssl (ascii "QQ==")
  := (decoding_inBounds_iff openssl_documented).1 (ascii "QQ==") 4 [] (.inl rfl)

/-- The empty text, one that is not valid, and a plaintext as long as its ciphertext. -/
theorem not_decoding_inBounds :
  ¬ InBounds (velyB64Decode openssl ⟨[some 0]⟩ 0)
    ∧ ¬ InBounds (velyB64Decode openssl ⟨(ascii "A").map some ++ [some 0]⟩ 1)
    ∧ ¬ InBounds (velyDecrypt streamCipher ⟨(ascii "A").map some ++ [some 0]⟩ 1 true)
  := by
  refine ⟨?_, ?_, ?_⟩
  · intro h
    exact h rfl
  · intro h
    exact h rfl
  · intro h
    exact h rfl

end Vely
