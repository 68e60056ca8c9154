import Vely.Sec.Hex

/-!
# Encryption and decryption (`vely_encrypt`, `vely_decrypt`)

The cipher is the library's: what its calls write is a parameter, of which nothing is known.
The ciphertext is handed over as bytes or in hexadecimal; the length of the plaintext and the
numbers of bytes that the library is given and gives back are of type `int`.
-/

namespace Vely

/-- A context of OpenSSL: the block size of its cipher, and what the two calls write for the
bytes that are given (`EVP_EncryptUpdate`, `EVP_EncryptFinal_ex`, and those to decrypt). -/
structure EvpContext where
  blockSize : Nat
  update : List UInt8 → List UInt8
  final : List UInt8 → List UInt8

/-- All that is written for the bytes that are given. -/
def EvpContext.output (e : EvpContext) (given : List UInt8) : List UInt8 :=
  e.update given ++ e.final given

/-! ### The functions -/

/-- The part of `vely_encrypt` that makes the ciphertext, and its length. -/
def evpEncrypt (e : EvpContext) (plaintext : Block) (len : Nat) : Except Stop (Block × Nat) := do
  let pLen := int32 (len + e.blockSize)
  let ciphertext ← velyMalloc (int32 (pLen + 1))
  let given ← firstBytes plaintext (int32 len).toNat
  let ciphertext ← ciphertext.putAll 0 (e.update given)
  let ciphertext ← ciphertext.putAll (e.update given).length (e.final given)
  return (ciphertext, (e.output given).length)

/-- `vely_encrypt` -/
def velyEncrypt (e : EvpContext) (plaintext : Block) (len : Nat) (isBinary : Bool) :
    Except Stop (Block × Nat) := do
  let (ciphertext, len) ← evpEncrypt e plaintext len
  if isBinary then return (ciphertext, len)
  else
    let hexCiphertext ← velyMalloc (2 * len + 1)
    let (hexCiphertext, totLen) ← hexLoop ucharToUnsigned ciphertext len 0 hexCiphertext 0
    let hexCiphertext ← hexCiphertext.put totLen 0
    return (hexCiphertext, totLen)

/-- The loop of `vely_decrypt` that reads hexadecimal, two digits at a time. -/
def cipherLoop (ciphertext : Block) (len : Nat) :
    Nat → Nat → Block → Nat → Except Stop (Block × Nat)
  | 0, _, cipherBin, currByte => .ok (cipherBin, currByte)
  | bound + 1, i, cipherBin, currByte =>
    if i < len then do
      let h ← ciphertext.get i
      let l ← ciphertext.get (i + 1)
      let c := byte (vvCharFromHex h.toNat * 16 + vvCharFromHex l.toNat)
      let cipherBin ← cipherBin.put currByte c
      cipherLoop ciphertext len bound (i + 2) cipherBin (currByte + 1)
    else .ok (cipherBin, currByte)

/-- The part of `vely_decrypt` that makes bytes of hexadecimal text. -/
def cipherFromHex (ciphertext : Block) (len : Nat) : Except Stop (Block × Nat) := do
  let cipherBin ← velyMalloc (len / 2 + 2)
  let (cipherBin, currByte) ← cipherLoop ciphertext len len 0 cipherBin 0
  let cipherBin ← cipherBin.put currByte 0
  return (cipherBin, currByte)

/-- The part of `vely_decrypt` that decrypts bytes. -/
def evpDecrypt (d : EvpContext) (cipherBin : Block) (len : Nat) : Except Stop (Block × Nat) := do
  let pLen := int32 len
  let plaintext ← velyMalloc pLen
  let given ← firstBytes cipherBin pLen.toNat
  let plaintext ← plaintext.putAll 0 (d.update given)
  let plaintext ← plaintext.putAll (d.update given).length (d.final given)
  let plaintext ← plaintext.put (d.output given).length 0
  return (plaintext, (d.output given).length)

/-- `vely_decrypt` -/
def velyDecrypt (d : EvpContext) (ciphertext : Block) (len : Nat) (isBinary : Bool) :
    Except Stop (Block × Nat) := do
  let (cipherBin, len) ← if isBinary then .ok (ciphertext, len) else cipherFromHex ciphertext len
  evpDecrypt d cipherBin len

/-! ### What is written -/

/-- The bytes of both calls are written one after the other, when there is room for them. -/
theorem putAll_alloc (n : Nat) (u f : List UInt8) :
  (do
      let b ← (Block.alloc n).putAll 0 u
      b.putAll u.length f)
    = if (u ++ f).length ≤ n
      then .ok ⟨(u ++ f).map some ++ List.replicate (n - (u ++ f).length) none⟩
      else .error .fault
  := by
  by_cases hu : u.length ≤ n
  · have hfirst := @Block.putAll_of_cells (Block.alloc n) [] (List.replicate u.length none)
      (List.replicate (n - u.length) none) u 0
      (by rw [Block.alloc, List.nil_append, List.replicate_append_replicate]; congr; omega)
      rfl (by simp)
    rw [hfirst, ok_bind, List.nil_append]
    split
    next hfit =>
      rw [List.length_append] at hfit
      rw [@Block.putAll_of_cells _ (u.map some) (List.replicate f.length none)
        (List.replicate (n - (u ++ f).length) none) f _
        (by
          simp only [List.append_assoc, List.replicate_append_replicate, List.length_append]
          congr
          omega)
        (by simp) (by simp), List.map_append]
    next hfit =>
      rw [List.length_append] at hfit
      apply Block.putAll_of_lt
      · simp
        omega
      · simp
  · rw [Block.putAll_of_lt (by simp [Block.alloc]; omega) (by simp), error_bind, if_neg]
    rw [List.length_append]
    omega

theorem velyMalloc_ok {size : Int} {b : Block} (h : velyMalloc size = .ok b) :
  ∃ n, b = Block.alloc n
  := by
  rw [velyMalloc] at h
  split at h
  · cases h
  · exact ⟨size.toNat, (Except.ok.inj h).symm⟩

/-- Encryption stops, or it leaves all that the library writes at the start of its memory. -/
theorem evpEncrypt_cases (e : EvpContext) (plaintext : Block) (len : Nat) :
  (∃ s, evpEncrypt e plaintext len = .error s)
    ∨ ∃ (ct : List UInt8) (r : List (Option UInt8)),
      evpEncrypt e plaintext len = .ok (⟨ct.map some ++ r⟩, ct.length)
  := by
  rw [evpEncrypt]
  cases hmalloc : velyMalloc (int32 (int32 (len + e.blockSize) + 1)) with
  | error s => exact .inl ⟨s, by simp only [error_bind]⟩
  | ok ciphertext =>
    cases hgiven : firstBytes plaintext (int32 len).toNat with
    | error s => exact .inl ⟨s, by simp only [ok_bind, error_bind]⟩
    | ok given =>
      obtain ⟨n, rfl⟩ := velyMalloc_ok hmalloc
      have hwrite := putAll_alloc n (e.update given) (e.final given)
      simp only [ok_bind]
      rw [← bind_assoc, hwrite]
      split
      · exact .inr ⟨e.output given, _, rfl⟩
      · exact .inl ⟨_, rfl⟩

/-! ### What is read -/

/-- The bytes that hexadecimal text is read to; a last digit goes with the terminator. -/
def cipherBytes : List UInt8 → List UInt8
  | h :: l :: text => byte (vvCharFromHex h.toNat * 16 + vvCharFromHex l.toNat) :: cipherBytes text
  | [h] => [byte (vvCharFromHex h.toNat * 16 + vvCharFromHex 0)]
  | [] => []

theorem cipherBytes_hexText (b : List UInt8) :
  cipherBytes (hexText b) = b
  := by
  induction b with
  | nil => rfl
  | cons c b ih =>
    have hc := c.toNat_lt
    rw [hexText_cons, cipherBytes, ih, vvCharFromHex_hexDigit (by omega),
      vvCharFromHex_hexDigit (by omega), byte_halves]

theorem length_cipherBytes (text : List UInt8) :
  (cipherBytes text).length = (text.length + 1) / 2
  := by
  induction text using cipherBytes.induct with
  | case1 h l text ih =>
    simp only [cipherBytes, List.length_cons, ih]
    omega
  | case2 h => simp [cipherBytes]
  | case3 => rfl

/-- Any text is read, up to its terminator. -/
theorem cipherLoop_text {ciphertext cipherBin : Block} {l r l' xs r' : List (Option UInt8)}
    {text : List UInt8} {len bound i j : Nat}
    (hsrc : ciphertext.cells = l ++ text.map some ++ some 0 :: r)
    (hi : i = l.length) (hlen : len = i + text.length) (hbound : text.length ≤ bound)
    (hdst : cipherBin.cells = l' ++ xs ++ r') (hj : j = l'.length)
    (hxs : xs.length = (cipherBytes text).length) :
  cipherLoop ciphertext len bound i cipherBin j
    = .ok (⟨l' ++ (cipherBytes text).map some ++ r'⟩, j + (cipherBytes text).length)
  := by
  induction text using cipherBytes.induct generalizing l l' xs cipherBin bound i j with
  | case1 h d text ih =>
    obtain ⟨x, xs, rfl⟩ := List.exists_cons_of_length_eq_add_one hxs
    cases bound with
    | zero => simp at hbound
    | succ bound =>
      simp only [List.length_cons, cipherBytes] at hlen hbound hxs
      have hhigh : ciphertext.get i = .ok h :=
        Block.get_of_cells (l := l) (r := some d :: (text.map some ++ some 0 :: r))
          (by simp [hsrc]) hi
      have hlow : ciphertext.get (i + 1) = .ok d :=
        Block.get_of_cells (l := l ++ [some h]) (r := text.map some ++ some 0 :: r)
          (by simp [hsrc]) (by simp [hi])
      rw [cipherLoop, if_pos (by omega), hhigh, ok_bind, hlow, ok_bind, cipherBytes]
      generalize byte (vvCharFromHex h.toNat * 16 + vvCharFromHex d.toNat) = c
      have hput : cipherBin.put j c = .ok ⟨l' ++ some c :: (xs ++ r')⟩ :=
        Block.put_of_cells (x := x) c (by simp [hdst]) hj
      have hrest := @ih ⟨l' ++ some c :: (xs ++ r')⟩ (l ++ [some h, some d]) (l' ++ [some c]) xs
        bound (i + 2) (j + 1) (by simp [hsrc]) (by simp [hi]) (by omega) (by omega) (by simp)
        (by simp [hj]) (by omega)
      simp only
      rw [hput, ok_bind, hrest]
      simp
      omega
  | case2 h =>
    obtain ⟨x, xs, rfl⟩ := List.exists_cons_of_length_eq_add_one hxs
    obtain rfl : xs = [] := List.length_eq_zero_iff.mp (by simpa [cipherBytes] using hxs)
    cases bound with
    | zero => simp at hbound
    | succ bound =>
      simp only [List.length_cons, List.length_nil] at hlen
      have hhigh : ciphertext.get i = .ok h :=
        Block.get_of_cells (l := l) (r := some 0 :: r) (by simp [hsrc]) hi
      have hlow : ciphertext.get (i + 1) = .ok 0 :=
        Block.get_of_cells (l := l ++ [some h]) (r := r) (by simp [hsrc]) (by simp [hi])
      have hput (c : UInt8) : cipherBin.put j c = .ok ⟨l' ++ some c :: r'⟩ :=
        Block.put_of_cells (x := x) c (by simp [hdst]) hj
      have hend (b : Block) (k : Nat) : cipherLoop ciphertext len bound (i + 2) b k = .ok (b, k) := by
        cases bound with
        | zero => rfl
        | succ bound => rw [cipherLoop, if_neg (by omega)]
      rw [cipherLoop, if_pos (by omega), hhigh, ok_bind, hlow, ok_bind]
      simp only [UInt8.toNat_zero, Int.natCast_zero]
      rw [hput, ok_bind, hend]
      simp [cipherBytes]
  | case3 =>
    obtain rfl : xs = [] := List.length_eq_zero_iff.mp hxs
    rw [List.append_nil] at hdst
    simp only [List.length_nil] at hlen
    cases bound with
    | zero => simp [cipherLoop, cipherBytes, ← hdst]
    | succ bound =>
      rw [cipherLoop, if_neg (by omega)]
      simp [cipherBytes, ← hdst]

/-- Hexadecimal text, whatever it is, is read inside of its memory and of that allocated. -/
theorem cipherFromHex_text {ciphertext : Block} {text : List UInt8} {r : List (Option UInt8)}
    (h : ciphertext.cells = text.map some ++ some 0 :: r) :
  ∃ r', cipherFromHex ciphertext text.length
    = .ok (⟨(cipherBytes text).map some ++ some 0 :: r'⟩, (cipherBytes text).length)
  := by
  have hlength := length_cipherBytes text
  obtain ⟨k, hk⟩ : ∃ k, text.length / 2 + 2 = (cipherBytes text).length + 1 + k :=
    ⟨text.length / 2 + 1 - (cipherBytes text).length, by omega⟩
  have hmalloc : velyMalloc ((text.length : Int) / 2 + 2)
      = .ok (Block.alloc ((cipherBytes text).length + 1 + k)) :=
    velyMalloc_natCast (by rw [← hk]; push_cast; rfl)
  have hloop := @cipherLoop_text ciphertext (Block.alloc ((cipherBytes text).length + 1 + k)) [] r []
    (List.replicate (cipherBytes text).length none) (List.replicate (1 + k) none) text text.length
    text.length 0 0 h rfl (by simp) le_rfl
    (by rw [Block.alloc, Nat.add_assoc, List.replicate_add]; rfl) rfl (by simp)
  use List.replicate k none
  simp only [cipherFromHex, hmalloc, ok_bind, hloop, List.nil_append, Nat.zero_add]
  rw [Block.put_of_cells (l := (cipherBytes text).map some) (x := none)
    (r := List.replicate k none) 0 (by simp [Nat.add_comm 1 k, List.replicate_succ]) (by simp)]
  rfl

/-! ### Decryption of bytes -/

theorem int32_toNat_le (n : Nat) :
  (int32 n).toNat ≤ n
  := by
  rw [int32, Int.bmod_def]
  split
  · omega
  · omega

/-- The bytes that the library is given: a length of type `int` may be less than theirs. -/
def givenBytes (ct : List UInt8) : List UInt8 := ct.take (int32 ct.length).toNat

theorem length_givenBytes (ct : List UInt8) :
  (givenBytes ct).length = (int32 ct.length).toNat
  := by
  have hle := int32_toNat_le ct.length
  rw [givenBytes, List.length_take]
  omega

theorem firstBytes_given {b : Block} {ct : List UInt8} {r : List (Option UInt8)}
    (h : b.cells = ct.map some ++ r) :
  firstBytes b (int32 ct.length).toNat = .ok (givenBytes ct)
  := by
  rw [← length_givenBytes]
  apply firstBytes_of_cells (r := (ct.drop (int32 ct.length).toNat).map some ++ r)
  rw [h, givenBytes, ← List.append_assoc, ← List.map_append, List.take_append_drop]

/-- What comes of the decryption of bytes: the memory is as large as they are many, and the
terminator of the plaintext has no room when the plaintext is as long. -/
def decrypted (d : EvpContext) (ct : List UInt8) : Except Stop (Block × Nat) :=
  let text := d.output (givenBytes ct)
  let room := (givenBytes ct).length
  if int32 ct.length + alignment < 0 then .error .outOfMemory
  else if text.length < room then
    .ok (⟨text.map some ++ some 0 :: List.replicate (room - text.length - 1) none⟩, text.length)
  else .error .fault

theorem evpDecrypt_cells (d : EvpContext) {b : Block} {ct : List UInt8} {r : List (Option UInt8)}
    (h : b.cells = ct.map some ++ r) :
  evpDecrypt d b ct.length = decrypted d ct
  := by
  have hgiven := firstBytes_given h
  have hwrite := putAll_alloc (int32 ct.length).toNat (d.update (givenBytes ct))
    (d.final (givenBytes ct))
  simp only [evpDecrypt, velyMalloc, decrypted, length_givenBytes]
  split
  · rfl
  · rw [ok_bind, hgiven, ok_bind, ← bind_assoc, hwrite]
    rw [← EvpContext.output]
    generalize d.output (givenBytes ct) = text
    split
    next hfit =>
      rw [ok_bind]
      split
      next hroom =>
        obtain ⟨k, hk⟩ : ∃ k, (int32 ct.length).toNat - text.length = k + 1 :=
          ⟨(int32 ct.length).toNat - text.length - 1, by omega⟩
        rw [hk, Block.put_of_cells (l := text.map some) (x := none)
          (r := List.replicate k none) 0 (by simp [List.replicate_succ]) (by simp), ok_bind]
        rfl
      next hroom =>
        have hfull : (int32 ct.length).toNat - text.length = 0 := by omega
        rw [hfull, Block.put, if_neg (by simp), error_bind]
    next hfit =>
      rw [if_neg (by omega), error_bind]

/-- Encryption makes a ciphertext when the library writes no more than it says it does. -/
theorem evpEncrypt_ok (e : EvpContext) {plaintext : Block} {text : List UInt8}
    {r : List (Option UInt8)} (h : plaintext.cells = text.map some ++ r)
    (hlen : text.length + e.blockSize < 2 ^ 31 - 1)
    (hout : (e.output text).length ≤ text.length + e.blockSize) :
  ∃ r', evpEncrypt e plaintext text.length
    = .ok (⟨(e.output text).map some ++ r'⟩, (e.output text).length)
  := by
  have hgiven := firstBytes_given h
  rw [givenBytes, int32_of_lt (by omega), Int.toNat_natCast, List.take_length] at hgiven
  have hmalloc : velyMalloc (int32 (int32 (text.length + e.blockSize) + 1))
      = .ok (Block.alloc (text.length + e.blockSize + 1)) := by
    apply velyMalloc_natCast
    have hsum := int32_of_lt (n := text.length + e.blockSize) (by omega)
    have hnext := int32_of_lt (n := text.length + e.blockSize + 1) (by omega)
    push_cast at hsum hnext ⊢
    rw [hsum, hnext]
  have hwrite := putAll_alloc (text.length + e.blockSize + 1) (e.update text) (e.final text)
  rw [← EvpContext.output, if_pos (by omega)] at hwrite
  rw [evpEncrypt]
  simp only [hmalloc, ok_bind, int32_of_lt (n := text.length) (by omega), Int.toNat_natCast, hgiven]
  rw [← bind_assoc, hwrite]
  exact ⟨_, rfl⟩

/-! ### Main result -/

/-- Bytes that are written in hexadecimal are read back to them, inside of the memory that is
allocated.  When encryption makes a ciphertext, the one in hexadecimal is read back to its
bytes, and decrypted as they are. -/
theorem hex_roundTrips :
  (∀ (b : List UInt8) (r : List (Option UInt8)), ∃ hex dst,
      velyBin2hex ⟨b.map some ++ r⟩ b.length none = .ok (hex, 2 * b.length)
      ∧ velyHex2bin hex (2 * b.length) = .ok (dst, b.length)
      ∧ velyHex2bin hex (-1) = .ok (dst, b.length)
      ∧ firstBytes dst b.length = .ok b)
    ∧ ∀ (e : EvpContext) (plaintext : Block) (len : Nat),
      (∃ s, evpEncrypt e plaintext len = .error s)
      ∨ ∃ ct ciphertext hex cipherBin,
        evpEncrypt e plaintext len = .ok (ciphertext, ct.length)
        ∧ firstBytes ciphertext ct.length = .ok ct
        ∧ velyEncrypt e plaintext len false = .ok (hex, 2 * ct.length)
        ∧ cipherFromHex hex (2 * ct.length) = .ok (cipherBin, ct.length)
        ∧ firstBytes cipherBin ct.length = .ok ct
        ∧ ∀ d, velyDecrypt d hex (2 * ct.length) false = velyDecrypt d ciphertext ct.length true
  := by
  constructor
  · intro b r
    refine ⟨_, _, velyBin2hex_cells rfl, velyHex2bin_cells rfl (.inl rfl),
      velyHex2bin_cells rfl (.inr rfl), ?_⟩
    exact firstBytes_of_cells rfl
  · intro e plaintext len
    rcases evpEncrypt_cases e plaintext len with hstop | ⟨ct, r, hct⟩
    · exact .inl hstop
    · right
      have hhex : velyEncrypt e plaintext len false
          = .ok (⟨(hexText ct).map some ++ [some 0]⟩, 2 * ct.length) := by
        have hmalloc : velyMalloc (2 * (ct.length : Int) + 1)
            = .ok (Block.alloc (2 * ct.length + 1)) := velyMalloc_natCast (by push_cast; rfl)
        have hloop := @hexLoop_cells _ hexPair_uchar ⟨ct.map some ++ r⟩
          (Block.alloc (2 * ct.length + 1)) [] r [] (List.replicate (2 * ct.length) none) [none] ct
          0 0 rfl rfl (by rw [Block.alloc, List.replicate_succ']; rfl) rfl (by simp)
        simp only [velyEncrypt, hct, ok_bind, Bool.false_eq_true, if_false, hmalloc, hloop,
          List.nil_append, Nat.zero_add]
        rw [Block.put_of_cells (l := (hexText ct).map some) (x := none) (r := []) 0 rfl (by simp)]
        rfl
      obtain ⟨r', hread⟩ := @cipherFromHex_text ⟨(hexText ct).map some ++ [some 0]⟩ (hexText ct) []
        rfl
      rw [cipherBytes_hexText, length_hexText] at hread
      refine ⟨ct, _, _, _, hct, firstBytes_of_cells rfl, hhex, hread, firstBytes_of_cells rfl, ?_⟩
      intro d
      rw [velyDecrypt, velyDecrypt, if_neg (by decide), if_pos rfl, hread, ok_bind, ok_bind]
      exact (evpDecrypt_cells d rfl).trans (evpDecrypt_cells d rfl).symm

end Vely
