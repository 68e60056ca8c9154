import Vely.Json.Strings

/-!
# What decoding a string leaves alone

Decoding a string comes to an end, and writes between the beginning of the string and its end
only.  So the text behind a string is read as it was.
-/

namespace Vely

/-! ### Bytes -/

theorem byteAt_drop (s : List UInt8) (i k : Nat) :
  byteAt (s.drop i) k = byteAt s (i + k)
  := by simp [byteAt, List.getD_eq_getElem?_getD]

theorem byteAt_of_le {s : List UInt8} {k : Nat} (h : s.length ≤ k) :
  byteAt s k = 0
  := by simp [byteAt, List.getD_eq_getElem?_getD, h]

/-- A byte that is not zero is inside the string. -/
theorem lt_length_of_byteAt {s : List UInt8} {k : Nat} (h : byteAt s k ≠ 0) :
  k < s.length
  := by
  by_contra hk
  apply h (byteAt_of_le (by omega))

theorem byteAt_append_left {s t : List UInt8} {k : Nat} (h : k < s.length) :
  byteAt (s ++ t) k = byteAt s k
  := by simp [byteAt, List.getD_eq_getElem?_getD, List.getElem?_append_left h]

theorem byteAt_append_right {s t : List UInt8} {k : Nat} (h : s.length ≤ k) :
  byteAt (s ++ t) k = byteAt t (k - s.length)
  := by simp [byteAt, List.getD_eq_getElem?_getD, List.getElem?_append_right h]

/-- The terminator behind a string is read as what is behind its end. -/
theorem byteAt_append_zero (s : List UInt8) (k : Nat) :
  byteAt (s ++ [0]) k = byteAt s k
  := by
  rcases lt_or_ge k s.length with h | h
  · apply byteAt_append_left h
  · rw [byteAt_append_right h, byteAt_of_le h]
    cases k - s.length <;> simp

/-! ### What is left alone -/

/-- Between `p` and `i` the two strings may differ. -/
structure Kept (p i : Nat) (val val' : List UInt8) : Prop where
  length : val'.length = val.length
  before : val'.take p = val.take p
  behind : val'.drop i = val.drop i

section Kept

variable {p i j : Nat} {val val' val'' : List UInt8}

theorem Kept.refl :
  Kept p i val val
  := ⟨rfl, rfl, rfl⟩

theorem Kept.trans (h : Kept p i val val') (h' : Kept p i val' val'') :
  Kept p i val val''
  := ⟨h'.length.trans h.length, h'.before.trans h.before, h'.behind.trans h.behind⟩

theorem Kept.mono (h : Kept p i val val') (hij : i ≤ j) :
  Kept p j val val'
  := by
  refine ⟨h.length, h.before, ?_⟩
  have hj := congrArg (List.drop (j - i)) h.behind
  rwa [List.drop_drop, List.drop_drop, Nat.add_sub_cancel' hij] at hj

/-- The bytes behind `i` are the same. -/
theorem Kept.byteAt_eq (h : Kept p i val val') (hij : i ≤ j) :
  byteAt val' j = byteAt val j
  := by
  have hj := congrArg (fun s => byteAt s (j - i)) h.behind
  simpa [byteAt_drop, Nat.add_sub_cancel' hij] using hj

theorem kept_set {k : Nat} (c : UInt8) (hp : p ≤ k) (hk : k < i) :
  Kept p i val (val.set k c)
  := ⟨List.length_set, List.take_set_of_le hp, List.drop_set_of_lt hk⟩

theorem length_writeBytes {k : Nat} {bs : List UInt8} (hk : k + bs.length ≤ val.length) :
  (writeBytes val k bs).length = val.length
  := by
  rw [writeBytes, List.length_append, List.length_append, List.length_take, List.length_drop]
  omega

theorem kept_writeBytes {k : Nat} {bs : List UInt8} (hp : p ≤ k) (hk : k + bs.length ≤ i)
    (hi : i ≤ val.length) :
  Kept p i val (writeBytes val k bs)
  := by
  have hlen : (val.take k ++ bs).length = k + bs.length := by
    rw [List.length_append, List.length_take]
    omega
  refine ⟨length_writeBytes (by omega), ?_, ?_⟩
  · rw [writeBytes, List.append_assoc, List.take_append_of_le_length, List.take_take,
      Nat.min_eq_left hp]
    rw [List.length_take]
    omega
  · rw [writeBytes, List.drop_append, hlen, List.drop_eq_nil_of_le (by omega), List.nil_append,
      List.drop_drop, Nat.add_sub_cancel' hk]

end Kept

/-! ### The loops -/

/-- What is left alone when a string from `i` on is decoded; it ends with a quote, or with the
terminator when it is not quoted. -/
def StringFrame (quoted : Bool) (p i : Nat) (val : List UInt8) (r : Utf8Result) : Prop :=
  (r.stop = none → r.val.length = val.length ∧ r.val.take p = val.take p)
    ∧ ∀ e, r.stop = some e → i ≤ e ∧ e ≤ val.length ∧ Kept p e val r.val
      ∧ (byteAt val e = '"'.toUInt8 ∨ byteAt val e = 0 ∧ quoted = false)

section Loop

variable {quoted : Bool} {p i j pull bound : Nat} {val val' : List UInt8}

/-- What was written before is left out. -/
theorem StringFrame.of_kept {r : Utf8Result} (h : StringFrame quoted p j val' r)
    (hkept : Kept p j val val') (hij : i ≤ j) :
  StringFrame quoted p i val r
  := by
  refine ⟨?_, ?_⟩
  · intro hr
    obtain ⟨hlen, htake⟩ := h.1 hr
    exact ⟨hlen.trans hkept.length, htake.trans hkept.before⟩
  · intro e he
    obtain ⟨hje, hlen, hk, hbyte⟩ := h.2 e he
    rw [hkept.length] at hlen
    refine ⟨by omega, hlen, (hkept.mono hje).trans hk, ?_⟩
    rwa [hkept.byteAt_eq hje] at hbyte

theorem finishString_frame (hp : p + pull ≤ i) (hi : i ≤ val.length)
    (hstop : byteAt val i = '"'.toUInt8 ∨ byteAt val i = 0) :
  StringFrame quoted p i val (finishString val quoted i pull)
  := by
  have hkept : Kept p i val (if pull ≠ 0 then val.set (i - pull) 0 else val) := by
    split
    · apply kept_set <;> omega
    · apply Kept.refl
  rw [finishString]
  generalize (if pull ≠ 0 then val.set (i - pull) 0 else val) = v at hkept ⊢
  split
  · refine ⟨fun _ => ⟨hkept.length, hkept.before⟩, ?_⟩
    intro e he
    cases he
  · next hend =>
    refine ⟨by simp, ?_⟩
    intro e he
    obtain rfl : i = e := by simpa using he
    refine ⟨le_rfl, hi, hkept, ?_⟩
    rw [hkept.byteAt_eq le_rfl] at hend
    rcases hstop with h | h
    · exact Or.inl h
    · right
      simpa [h] using hend

/-- A hexadecimal number has four digits. -/
theorem length_of_velyGetHex {v : List UInt8} {r : Int} (h : velyGetHex v = .ok r) :
  4 ≤ v.length
  := by
  have hbyte : byteAt v 3 ≠ 0 := by
    intro h0
    have hnone : hexValue 0 = none := by decide
    simp only [velyGetHex, List.range, List.range.loop, List.foldlM_cons, List.foldlM_nil, h0,
      hnone] at h
    revert h
    cases hexValue (byteAt v 0) <;> cases hexValue (byteAt v 1) <;> cases hexValue (byteAt v 2) <;>
      simp [bind, Except.bind]
  have hlt := lt_length_of_byteAt hbyte
  omega

/-- The bytes of an escape with `u`. -/
theorem length_of_unicodeEscape {v : List UInt8} {u : Int} {n : Nat}
    (h : unicodeEscape v = .ok (u, n)) :
  6 ≤ n ∧ n ≤ v.length + 2
  := by
  rw [unicodeEscape] at h
  cases hr : velyGetHex v with
  | error e =>
    rw [hr] at h
    cases h
  | ok r =>
    have hlen := length_of_velyGetHex hr
    rw [hr] at h
    simp only [bind, Except.bind, pure, Except.pure] at h
    split at h
    · split at h
      · cases h
      · cases hr' : velyGetHex (v.drop 6) with
        | error e =>
          rw [hr'] at h
          cases h
        | ok r' =>
          have hlen' := length_of_velyGetHex hr'
          rw [List.length_drop] at hlen'
          rw [hr'] at h
          simp only [Except.ok.injEq, Prod.mk.injEq] at h
          omega
    · simp only [Except.ok.injEq, Prod.mk.injEq] at h
      omega

/-- A character has one to four bytes. -/
theorem length_of_velyDecodeUtf8 {u : Int} {bs : List UInt8} (h : velyDecodeUtf8 u = .ok bs) :
  1 ≤ bs.length ∧ bs.length ≤ 4
  := by
  rw [velyDecodeUtf8] at h
  split_ifs at h <;> first | (cases h; done) | (simp only [Except.ok.injEq] at h; subst h; simp)

/-- The bytes of an escape are at most as many as are written for it. -/
theorem replaceEscape_kept {i' pull' : Nat} (hp : p + pull + 1 ≤ i)
    (h : replaceEscape val i pull = .ok (val', i', pull')) :
  Kept p i' val val' ∧ i < i' ∧ i' ≤ val.length ∧ p + pull' ≤ i'
  := by
  rw [replaceEscape] at h
  split at h
  · next c hc =>
    have hbyte : byteAt val i ≠ 0 := by
      intro h0
      have hnone : escapedByte 0 = none := by decide
      rw [h0, hnone] at hc
      cases hc
    have hlt := lt_length_of_byteAt hbyte
    simp only [Except.ok.injEq, Prod.mk.injEq] at h
    obtain ⟨rfl, rfl, rfl⟩ := h
    refine ⟨?_, by omega, by omega, by omega⟩
    apply kept_set <;> omega
  · split at h
    · cases hu : unicodeEscape (val.drop (i + 1)) with
      | error e =>
        rw [hu] at h
        cases h
      | ok un =>
        obtain ⟨u, n⟩ := un
        have hn := length_of_unicodeEscape hu
        rw [List.length_drop] at hn
        cases hbs : velyDecodeUtf8 u with
        | error e =>
          simp only [hu, bind, Except.bind, hbs] at h
          cases h
        | ok bs =>
          have hlen := length_of_velyDecodeUtf8 hbs
          simp only [hu, bind, Except.bind, hbs, pure, Except.pure, Except.ok.injEq,
            Prod.mk.injEq] at h
          obtain ⟨rfl, rfl, rfl⟩ := h
          refine ⟨?_, by omega, by omega, by omega⟩
          apply kept_writeBytes <;> omega
    · cases h

/-- The loop that replaces the escapes comes to its end. -/
theorem encodeLoop_frame (hp : p + pull ≤ i) (hi : i ≤ val.length)
    (hb : val.length < bound + i) :
  ∃ r, encodeLoop quoted bound val i pull = .ok r ∧ StringFrame quoted p i val r
  := by
  induction bound generalizing val i pull with
  | zero => omega
  | succ bound ih =>
    rw [encodeLoop]
    simp only
    split
    · next hstop => exact ⟨_, rfl, finishString_frame hp hi hstop⟩
    · next hstop =>
      have hlt : i < val.length := lt_length_of_byteAt (fun h => hstop (Or.inr h))
      split
      · -- an escape
        cases hesc : replaceEscape val (i + 1) pull with
        | error e =>
          refine ⟨_, rfl, fun _ => ⟨rfl, rfl⟩, ?_⟩
          intro e' he'
          cases he'
        | ok x =>
          obtain ⟨val', i', pull'⟩ := x
          obtain ⟨hkept, hi', hlen', hp'⟩ := replaceEscape_kept (p := p) (by omega) hesc
          obtain ⟨r, hr, hframe⟩ := @ih _ _ val' hp' (by rw [hkept.length]; omega)
            (by rw [hkept.length]; omega)
          exact ⟨r, hr, hframe.of_kept hkept (by omega)⟩
      · -- a byte that stands for itself
        have hkept : Kept p (i + 1) val
            (if pull ≠ 0 then val.set (i - pull) (byteAt val i) else val) := by
          split
          · apply kept_set <;> omega
          · apply Kept.refl
        obtain ⟨r, hr, hframe⟩ := @ih (i + 1) pull _ (by omega)
          (by rw [hkept.length]; omega) (by rw [hkept.length]; omega)
        exact ⟨r, hr, hframe.of_kept hkept (by omega)⟩

/-- The loop that looks for the end of a quoted string comes to its end, and writes nothing. -/
theorem noencodeLoop_frame (hi : i ≤ val.length) (hb : val.length < bound + i) (hp : p ≤ i) :
  ∃ r, noencodeLoop true bound val i = .ok r ∧ StringFrame true p i val r
  := by
  induction bound generalizing i with
  | zero => omega
  | succ bound ih =>
    rw [noencodeLoop]
    simp only
    split
    · next h0 => exact ⟨_, rfl, finishString_frame (by omega) hi (Or.inr h0)⟩
    · next h0 =>
      have hlt : i < val.length := lt_length_of_byteAt h0
      have hnext : ∀ j, i < j → j ≤ val.length →
          ∃ r, noencodeLoop true bound val j = .ok r ∧ StringFrame true p i val r := by
        intro j hij hj
        obtain ⟨r, hr, hframe⟩ := ih hj (by omega) (by omega)
        exact ⟨r, hr, hframe.of_kept Kept.refl (by omega)⟩
      split
      · next hesc =>
        have hlt' := lt_length_of_byteAt hesc.2
        apply hnext <;> omega
      · split
        · next hquote => exact ⟨_, rfl, finishString_frame (by omega) hi (Or.inl hquote)⟩
        · apply hnext <;> omega

/-- A quoted string is decoded between its quotes. -/
theorem velyJsonToUtf8_frame (enc : Bool) (hval : val ≠ []) :
  ∃ r, velyJsonToUtf8 val true enc = .ok r ∧ StringFrame true 1 1 val r
  := by
  have hlen := List.length_pos_of_ne_nil hval
  have hopen : (if true = true then 1 else 0) = 1 := if_pos rfl
  rw [velyJsonToUtf8]
  split
  · apply encodeLoop_frame <;> omega
  · apply noencodeLoop_frame <;> omega

end Loop

end Vely
