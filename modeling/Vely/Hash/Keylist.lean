import Vely.Hash.Run

/-!
# Keys given in parts

`vely_find_hash` takes a key also as a list of parts.  It then hashes the parts one after the other,
and compares them one after the other with the keys in the bucket.  It does not look whether a
stored key ends where the parts end, and a part longer than what is left of a stored key is compared
beyond the end of the key.  So it agrees with the search for the whole key exactly when the keys in
the bucket, up to the key itself, allow neither.
-/

namespace Vely

variable {D : Type}

/-! ### The elements of a chain, read from memory -/

/-- The elements of a chain. -/
def chainEntries (m : Mem (HashTable D)) : Nat → Option Addr → Except Stop (List (HashEntry D))
  | _, none => .ok []
  | 0, some _ => .error .fault
  | bound + 1, some a => do
    let e ← m.read a
    return (a, e.key, e.data) :: (← chainEntries m bound e.next)

/-- The elements in the bucket of the key `k`. -/
def Hash.entries (h : Hash) (m : Mem (HashTable D)) (k : CString) :
    Except Stop (List (HashEntry D)) := do
  chainEntries m loopBound (← h.bucket (velyComputeHash k none h.numBuckets))

theorem chainEntries_eq {m : Mem (HashTable D)} {c : List (HashEntry D)} {p : Option Addr}
    {bound : Nat} (hc : EntryChain m p c none) (hb : c.length < bound) :
  chainEntries m bound p = .ok c
  := by
  induction c generalizing p bound with
  | nil =>
    obtain rfl : p = none := hc
    rw [chainEntries]
  | cons e c ih =>
    obtain ⟨a, key, data⟩ := e
    obtain ⟨rfl, v, hv, hi, hrest⟩ := hc
    obtain ⟨n, rfl⟩ : ∃ n, bound = n + 1 := ⟨bound - 1, by simp at hb; omega⟩
    obtain ⟨rfl, rfl⟩ : v.key = key ∧ v.data = data := by simpa using hi
    rw [chainEntries, Mem.read_of hv, ok_bind, ih hrest (by simpa using hb)]
    rfl

/-! ### Hashing and comparing parts -/

/-- Hashing the parts hashes the key they make up. -/
theorem velyComputeHash_parts (k : CString) (els : List CString) (n : Nat) :
  velyComputeHash k (some els) n = velyComputeHash (CString.concat els) none n
  := by
  have hfold : ∀ h : UInt32, els.foldl (fun h (i : CString) => i.bytes.foldl fnvComp h) h
      = (CString.concat els).bytes.foldl fnvComp h := by
    induction els with
    | nil =>
      intro h
      rfl
    | cons el els ih =>
      intro h
      rw [List.foldl_cons, ih, CString.concat_cons, List.foldl_append]
  simp only [velyComputeHash, hfold]

/-- No part is longer than what follows the parts before it, and the terminator, in `rest`. -/
def WithinBlock (els : List CString) (rest : List UInt8) : Prop :=
  ∀ pre el post, els = pre ++ el :: post → (CString.concat pre).bytes <+: rest →
    (CString.concat pre).length + el.length ≤ rest.length + 1

section Parts

variable {stored el : CString} {els : List CString} {done rest : List UInt8}

theorem withinBlock_cons :
  WithinBlock (el :: els) rest
    ↔ el.length ≤ rest.length + 1
      ∧ (el.bytes <+: rest → WithinBlock els (rest.drop el.length))
  := by
  constructor
  · intro h
    constructor
    · have hfirst := h [] el els rfl List.nil_prefix
      simpa [CString.length] using hfirst
    · rintro ⟨rest, rfl⟩ pre el' post rfl hpre
      have hlater := h (el :: pre) el' post rfl
      simp only [CString.length, CString.concat_cons, List.length_append, List.drop_left] at *
      rw [List.prefix_append_right_inj] at hlater
      have hle := hlater hpre
      omega
  · rintro ⟨hfirst, hlater⟩ pre el' post heq hpre
    cases pre with
    | nil =>
      obtain ⟨rfl, rfl⟩ : el = el' ∧ els = post := by simpa using heq
      simpa [CString.length] using hfirst
    | cons p pre =>
      obtain ⟨rfl, rfl⟩ : el = p ∧ els = pre ++ el' :: post := by simpa using heq
      rw [CString.concat_cons] at hpre
      obtain ⟨rest, rfl⟩ := (List.prefix_append _ _).trans hpre
      rw [List.prefix_append_right_inj] at hpre
      have hle := hlater (List.prefix_append _ _) pre el' post rfl
      simp only [CString.length, CString.concat_cons, List.length_append, List.drop_left] at *
      have hle' := hle hpre
      omega

/-- The block of a key is a part followed by more, or it is not. -/
theorem memcmp_eq (hs : stored.bytes = done ++ rest) (hle : el.length ≤ rest.length + 1) :
  stored.memcmp done.length el el.length = .ok (decide (el.bytes <+: rest))
  := by
  have hdrop : stored.block.drop done.length = rest ++ [0] := by
    rw [CString.block, hs, List.append_assoc, List.drop_left]
  have hel : el.block.take el.length = el.bytes := by
    rw [CString.block, CString.length, List.take_left]
  rw [CString.memcmp, if_pos, hdrop, hel]
  · congr 2
    rw [eq_iff_iff, List.prefix_iff_eq_take]
    rcases Nat.lt_or_ge rest.length el.length with hlt | hge
    · -- the part would hold the terminator
      rw [List.take_of_length_le (by simp; omega)]
      constructor
      · intro heq
        apply absurd el.nonzero
        rw [← heq]
        simp
      · intro heq
        have hlen := congrArg List.length heq
        rw [List.length_take] at hlen
        rw [CString.length] at hlt
        omega
    · rw [List.take_append_of_le_length hge]
      exact eq_comm
  · simp only [CString.block, CString.length, hs, List.length_append, List.length_singleton] at *
    omega

/-- Comparing the parts tells whether the key they make up is a prefix of the stored key. -/
theorem matchParts_within (done : List UInt8) (hs : stored.bytes = done ++ rest) (h : WithinBlock els rest) :
  matchParts stored done.length els = .ok (decide ((CString.concat els).bytes <+: rest))
  := by
  induction els generalizing done rest with
  | nil => simp [matchParts]
  | cons el els ih =>
    obtain ⟨hle, hlater⟩ := withinBlock_cons.mp h
    rw [matchParts, memcmp_eq hs hle, ok_bind, CString.concat_cons]
    by_cases hpre : el.bytes <+: rest
    · obtain ⟨rest, rfl⟩ := hpre
      have hlater' := hlater (List.prefix_append _ _)
      rw [CString.length, List.drop_left] at hlater'
      have hih := ih (done ++ el.bytes) (by rw [hs, List.append_assoc]) hlater'
      rw [List.length_append] at hih
      rw [decide_eq_true (List.prefix_append _ _), if_pos rfl, CString.length, hih]
      simp only [List.prefix_append_right_inj]
    · rw [decide_eq_false hpre, if_neg (by simp), decide_eq_false]
      · rfl
      · intro hconcat
        apply hpre ((List.prefix_append _ _).trans hconcat)

/-- Comparing the parts reads beyond the end of the stored key. -/
theorem matchParts_beyond (done : List UInt8) (hs : stored.bytes = done ++ rest) (h : ¬ WithinBlock els rest) :
  matchParts stored done.length els = .error .fault
  := by
  induction els generalizing done rest with
  | nil =>
    exfalso
    apply h
    rintro pre el post heq
    simp at heq
  | cons el els ih =>
    rw [matchParts]
    by_cases hle : el.length ≤ rest.length + 1
    · rw [memcmp_eq hs hle, ok_bind]
      rw [withinBlock_cons, not_and, Classical.not_imp] at h
      obtain ⟨hpre, hlater⟩ := h hle
      rw [decide_eq_true hpre, if_pos rfl]
      obtain ⟨rest, rfl⟩ := hpre
      rw [CString.length, List.drop_left] at hlater
      have hih := ih (done ++ el.bytes) (by rw [hs, List.append_assoc]) hlater
      rw [List.length_append] at hih
      apply hih
    · have hcmp : stored.memcmp done.length el el.length = .error .fault := by
        rw [CString.memcmp, if_neg]
        simp only [CString.block, CString.length, hs, List.length_append,
          List.length_singleton] at *
        omega
      rw [hcmp]
      rfl

end Parts

/-! ### Agreement with the search for the whole key -/

/-- The parts are compared with the stored key as the key they make up is: no comparison reaches
beyond the stored key, and the key they make up is no proper prefix of it. -/
def PartsAgree (els : List CString) (stored : CString) : Prop :=
  WithinBlock els stored.bytes
    ∧ ((CString.concat els).bytes <+: stored.bytes → stored = CString.concat els)

/-- The search for the key in parts is that for the whole key: it gives the same answer and
leaves the same hash, which it does exactly when the key is bound by `M`. -/
def SearchesAgree (st : HashState D) (M : HashMap D) (key : CString) (els : List CString)
    (del : Bool) : Prop :=
  ∃ r, velyFindHash st.1 st.2 key (some els) del = .ok r
    ∧ velyFindHash st.1 st.2 (CString.concat els) none del = .ok r
    ∧ (r.1.status = .okay ↔ CString.concat els ∈ M.keys)

/-- The elements that a search for the whole key passes agree with the parts. -/
def PassedAgree (st : HashState D) (els : List CString) : Prop :=
  ∀ c, st.1.entries st.2 (CString.concat els) = .ok c →
    ∀ e ∈ c.takeWhile (fun e => HashEntry.text e ≠ CString.concat els),
      PartsAgree els (HashEntry.text e)

section Agree

variable {el : CString} {els : List CString} {stored : CString} {c xs ys : List (HashEntry D)}
  {e : HashEntry D}

/-- The parts are within the block of the key they make up. -/
theorem partsAgree_self :
  PartsAgree els (CString.concat els)
  := by
  refine ⟨?_, fun _ => rfl⟩
  rintro pre el post rfl -
  have hconcat : ∀ as bs : List CString, (CString.concat (as ++ bs)).bytes
      = (CString.concat as).bytes ++ (CString.concat bs).bytes := by
    intro as bs
    induction as with
    | nil => rfl
    | cons a as ih => simp [ih]
  rw [hconcat, CString.concat_cons]
  simp only [CString.length, List.length_append]
  omega

/-- A stored key that agrees with the parts is taken when it is the key they make up. -/
theorem isMatch_agree (k : CString) (h : PartsAgree (el :: els) stored) :
  isMatch k (some (el :: els)) stored = .ok (decide (CString.concat (el :: els) = stored))
  := by
  have hmatch := matchParts_within [] rfl h.1
  rw [List.length_nil] at hmatch
  rw [isMatch, hmatch]
  congr 2
  rw [eq_iff_iff]
  constructor
  · intro hpre
    exact (h.2 hpre).symm
  · rintro rfl
    apply List.prefix_rfl

/-- A stored key that does not agree with the parts is taken, or read beyond its end. -/
theorem isMatch_disagree (k : CString) (h : ¬ PartsAgree (el :: els) stored) :
  isMatch k (some (el :: els)) stored = .error .fault
    ∨ isMatch k (some (el :: els)) stored = .ok true
  := by
  by_cases hwithin : WithinBlock (el :: els) stored.bytes
  · right
    have hmatch := matchParts_within [] rfl hwithin
    rw [List.length_nil] at hmatch
    rw [isMatch, hmatch, decide_eq_true]
    by_contra hpre
    exact h ⟨hwithin, fun hpre' => absurd hpre' hpre⟩
  · left
    apply matchParts_beyond [] rfl hwithin

/-- When the elements passed agree, the two searches of the chain are the same. -/
theorem searchEntries_agree (k : CString) (prev : Option Addr) (reads : Int)
    (h : ∀ e ∈ c.takeWhile (fun e => HashEntry.text e ≠ CString.concat (el :: els)),
      PartsAgree (el :: els) (HashEntry.text e)) :
  searchEntries (isMatch k (some (el :: els))) prev c reads
    = searchEntries (isMatch (CString.concat (el :: els)) none) prev c reads
  := by
  induction c generalizing prev reads with
  | nil => rfl
  | cons e c ih =>
    rw [searchEntries, searchEntries]
    by_cases he : HashEntry.text e = CString.concat (el :: els)
    · rw [he, isMatch_agree k partsAgree_self]
      simp [isMatch]
    · rw [List.takeWhile_cons_of_pos (by simpa using he)] at h
      rw [isMatch_agree k (h e (by simp)), isMatch, decide_eq_false (fun heq => he heq.symm),
        ok_bind, ok_bind, if_neg (by simp), if_neg (by simp)]
      apply ih
      intro f hf
      apply h f (List.mem_cons_of_mem _ hf)

/-- When an element passed does not agree, the search for the parts stops at one with another
key, or reads beyond the end of one. -/
theorem searchEntries_disagree (k : CString) (prev : Option Addr) (reads : Int)
    (he : e ∈ c.takeWhile (fun e => HashEntry.text e ≠ CString.concat (el :: els)))
    (h : ¬ PartsAgree (el :: els) (HashEntry.text e)) :
  searchEntries (isMatch k (some (el :: els))) prev c reads = .error .fault
    ∨ ∃ f ∈ c, HashEntry.text f ≠ CString.concat (el :: els) ∧ ∃ last reads',
      searchEntries (isMatch k (some (el :: els))) prev c reads = .ok (some f.1, last, reads')
  := by
  induction c generalizing prev reads with
  | nil => cases he
  | cons f c ih =>
    rw [searchEntries]
    by_cases hf : HashEntry.text f = CString.concat (el :: els)
    · rw [List.takeWhile_cons_of_neg (by simpa using hf)] at he
      cases he
    · rw [List.takeWhile_cons_of_pos (by simpa using hf)] at he
      by_cases hagree : PartsAgree (el :: els) (HashEntry.text f)
      · rw [isMatch_agree k hagree, decide_eq_false (fun heq => hf heq.symm), ok_bind,
          if_neg (by simp)]
        have hec : e ∈ c.takeWhile
            (fun e => HashEntry.text e ≠ CString.concat (el :: els)) := by
          rcases List.mem_cons.mp he with rfl | hec
          · exact absurd hagree h
          · apply hec
        rcases ih (some f.1) (reads + 1) hec with hfault | ⟨g, hg, hne, last, reads', hfound⟩
        · exact Or.inl hfault
        · exact Or.inr ⟨g, List.mem_cons_of_mem _ hg, hne, last, reads', hfound⟩
      · rcases isMatch_disagree k hagree with hmatch | hmatch
        · left
          rw [hmatch]
          rfl
        · right
          refine ⟨f, by simp, hf, prev, reads + 1, ?_⟩
          rw [hmatch]
          rfl

end Agree

section Keylist

variable {base m : Mem (HashTable D)} {h : Hash} {cs : List (List (HashEntry D))}
  {M : HashMap D} {el : CString} {els : List CString}

/-- The elements in the bucket of a key. -/
theorem HashLaid.entries_eq (hl : HashLaid base h m cs) {k : CString} {c : List (HashEntry D)}
    (hc : cs[slotOf cs.length k]? = some c) :
  h.entries m k = .ok c
  := by
  rw [Hash.entries, hl.size]
  have hbucket := hl.bucket_eq hc
  rw [slotOf] at hbucket
  rw [hbucket, ok_bind, chainEntries_eq (hl.chain hc).2 (hl.length_lt_bound hc)]

/-- What a search hands back has the key pointer of the element found. -/
theorem handBack_oldkey {a : Addr} {v : HashTable D} {prev : Option Addr} {i : Nat} {del : Bool}
    {r : HashAnswer D × HashState D} (hv : m a = some v)
    (hr : handBack h m (some a) prev i del = .ok r) :
  r.1.oldkey = some v.key
  := by
  rw [handBack, Mem.read_of hv, ok_bind] at hr
  cases del with
  | false =>
    obtain rfl := Except.ok.inj hr
    rfl
  | true =>
    rw [if_pos rfl] at hr
    cases hdel : velyDelHashEntry h m a prev (some i) with
    | error stop =>
      rw [hdel] at hr
      cases hr
    | ok st =>
      rw [hdel] at hr
      obtain rfl := Except.ok.inj hr
      rfl

/-- A search of a map succeeds when the key is bound, and hands back a pointer to the key. -/
theorem find_spec_okay (hm : Bindings HashEntry.text HashEntry.item cs M) (k : CString)
    (del : Bool) :
  (((HashOp.find k del).spec M).1.status = .okay ↔ k ∈ M.keys)
    ∧ ∀ key, ((HashOp.find k del).spec M).1.oldkey = some key → key.text = k
  := by
  rw [HashOp.spec, Finmap.mem_keys, ← Finmap.lookup_isSome]
  cases hk : M.lookup k with
  | none => simp
  | some v =>
    refine ⟨by simp, ?_⟩
    intro key hkey
    obtain rfl := Option.some.inj hkey
    obtain ⟨e, -, rfl, rfl⟩ := (hm k v).mp hk
    rfl

/-- The search for the key in parts agrees with the search for the whole key exactly when the
elements passed agree with the parts. -/
theorem searchesAgree_iff (hl : HashLaid base h m cs)
    (hm : Bindings HashEntry.text HashEntry.item cs M) (key : CString) (del : Bool) :
  SearchesAgree (h, m) M key (el :: els) del ↔ PassedAgree (h, m) (el :: els)
  := by
  obtain ⟨c, hc⟩ := hl.exists_bucket (CString.concat (el :: els))
  have hparts := velyFindHash_eq (k := key) hl.toHashChains (some (el :: els))
    (by rw [velyComputeHash_parts]; exact hc) del
  have hwhole := velyFindHash_eq hl.toHashChains none hc del
  rw [velyComputeHash_parts] at hparts
  obtain ⟨r, hfind, hspec, -⟩ := velyFindHash_spec (CString.concat (el :: els)) del hl hm
  obtain ⟨hokay, hold⟩ := find_spec_okay hm (CString.concat (el :: els)) del
  constructor
  · rintro ⟨r', hr', hr'', -⟩ c' hc' e he
    obtain rfl : r = r' := Except.ok.inj (hfind.symm.trans hr'')
    obtain rfl : c = c' := Except.ok.inj ((hl.entries_eq hc).symm.trans hc')
    by_contra hdisagree
    rcases searchEntries_disagree key none h.reads he hdisagree with
      hfault | ⟨f, hf, hne, last, reads, hfound⟩
    · rw [hparts, hfault] at hr'
      cases hr'
    · -- the search has stopped at an element with another key, and hands this key back
      rw [hparts, hfound, ok_bind] at hr'
      obtain ⟨n, hn⟩ := hl.cell (mem_elements_of hc hf)
      have hkey := handBack_oldkey hn hr'
      rw [hspec] at hkey
      apply hne (hold _ hkey)
  · intro hpassed
    refine ⟨r, ?_, hfind, by rw [hspec]; exact hokay⟩
    rw [hparts, searchEntries_agree key none h.reads (hpassed c (hl.entries_eq hc)),
      ← hfind, hwhole]

/-- On every hash that calls lead to, the search for a key in parts agrees with the search for the
whole key exactly when the elements passed agree with the parts. -/
theorem velyFindHash_keylist_iff (base : Mem (HashTable D)) (size : Int) (process : Bool)
    (calls : List (HashCall D)) (key el : CString) (els : List CString) (del : Bool) :
  Ends (runHash base size process calls) (fun r =>
    SearchesAgree r.2 (specRun HashCall.spec calls ∅).2 key (el :: els) del
      ↔ PassedAgree r.2 (el :: els))
  := by
  apply (runHash_refines base size process calls).mono
  rintro ⟨answers, h, m⟩ ⟨-, ⟨cs, hl, hm⟩, -⟩
  apply searchesAgree_iff hl hm

/-- A search of a hash of size 10 with the one key `stored`, for the parts `els`, or for the whole
key: the status and the data. -/
def searchSample (stored : CString) (keylist : Option (List CString)) (key : CString) :
    Except Stop (Status × Option Nat) := do
  let (_, h, m) ← runHash Mem.empty 10 false
    [.op (.add ⟨⟨0, addrSpace_pos⟩, stored⟩ 7 (Allocator.firstFit _ 8))]
  let (answer, _) ← velyFindHash h m key keylist false
  return (answer.status, answer.data)

/-- With the one key "af" in a hash, the search for the part "a" finds it, though "a" is not there;
with the one key "a", the search for the part "aaa" reads beyond the end of it. -/
theorem velyFindHash_keylist_disagrees :
  searchSample ⟨[97, 102], by decide⟩ (some [⟨[97], by decide⟩]) CString.empty
      = .ok (.okay, some 7)
    ∧ searchSample ⟨[97, 102], by decide⟩ none ⟨[97], by decide⟩ = .ok (.errExist, none)
    ∧ searchSample ⟨[97], by decide⟩ (some [⟨[97, 97, 97], by decide⟩]) CString.empty
      = .error .fault
  := by
  refine ⟨?_, ?_, ?_⟩ <;> rfl

end Keylist

end Vely
