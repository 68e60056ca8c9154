import Vely.Dispatch.Model
import Vely.Hash.Run

/-!
# Reading the file of requests

A name is read in one line when there is room for it in the buffer together with the space and the
newline behind it.  When there is not, the rest of its line is read as one more name, the empty one.
The hash has the names that are read as its keys.
-/

namespace Vely

/-- The requests of an application: distinct names of functions that are shorter than the limit;
their number is one of the language. -/
structure Requests where
  names : List CString
  distinct : names.Nodup
  valid : ∀ n ∈ names, velyIsValidParamName n false = true
  short : ∀ n ∈ names, n.length < maxReqNameLen
  count : names.length < 2 ^ 63

/-! ### Lines -/

section Line

variable {n : Nat} {s t rest : List UInt8} {name : CString} {hyphen : Bool}

/-- A line that fits is read up to its newline. -/
theorem takeLine_short (hs : newline ∉ s) (hn : s.length < n) :
  takeLine n (s ++ newline :: rest) = (s ++ [newline], rest)
  := by
  induction s generalizing n with
  | nil =>
    obtain ⟨n, rfl⟩ : ∃ k, n = k + 1 := ⟨n - 1, by simp at hn; omega⟩
    rw [List.nil_append, takeLine, if_pos rfl]
    rfl
  | cons c s ih =>
    obtain ⟨n, rfl⟩ : ∃ k, n = k + 1 := ⟨n - 1, by simp at hn; omega⟩
    rw [List.mem_cons, not_or] at hs
    rw [List.cons_append, takeLine, if_neg (Ne.symm hs.1), ih hs.2 (by simpa using hn)]
    rfl

/-- A line that does not fit is cut. -/
theorem takeLine_long (hs : newline ∉ s) :
  takeLine s.length (s ++ rest) = (s, rest)
  := by
  induction s with
  | nil =>
    rw [List.length_nil, List.nil_append]
    rw [takeLine.eq_def]
  | cons c s ih =>
    rw [List.mem_cons, not_or] at hs
    rw [List.cons_append, List.length_cons, takeLine, if_neg (Ne.symm hs.1), ih hs.2]

/-- A name in the buffer, with spaces behind it. -/
theorem trimit_name (hname : velyIsValidParamName name hyphen = true)
    (ht : ∀ c ∈ t, isspace c = true) :
  trimit (bufferString (name.bytes ++ t)) = name
  := by
  have hzero : ∀ c ∈ name.bytes ++ t, c ≠ 0 := by
    rintro c hc rfl
    rcases List.mem_append.mp hc with hc | hc
    · apply name.nonzero hc
    · have h := ht 0 hc
      rw [isspace_zero] at h
      cases h
  apply CString.ext
  have htake : (name.bytes ++ t).takeWhile (· ≠ 0) = name.bytes ++ t := by
    rw [List.takeWhile_eq_self_iff]
    intro c hc
    simpa using hzero c hc
  simp only [trimit, velyTrim, bufferString]
  rw [htake, trimSpaces_append ht, trimSpaces_of_valid hname]

/-- Spaces in the buffer. -/
theorem trimit_spaces (ht : ∀ c ∈ t, isspace c = true) :
  trimit (bufferString t) = CString.empty
  := by
  apply CString.ext
  have hall : ∀ c ∈ t.takeWhile (· ≠ 0), isspace c = true := by
    intro c hc
    apply ht c ((List.takeWhile_prefix _).subset hc)
  have htrim := trimSpaces_append (s := []) hall
  simpa [trimit, velyTrim, bufferString, CString.empty, trimSpaces] using htrim

theorem newline_not_mem (hname : velyIsValidParamName name hyphen = true) :
  newline ∉ name.bytes
  := by
  intro h
  have hspace := isspace_of_isNameChar (isNameChar_of_valid hname _ h)
  revert hspace
  decide

/-- The count in the buffer. -/
theorem atol_decimal (n : Nat) :
  atol (trimit (bufferString (decimal n ++ [newline]))) = n
  := by
  have hspace : ∀ c ∈ decimal n, isspace c = false :=
    fun c hc => isspace_of_isdigit (isdigit_of_mem_decimal hc)
  have hnewline : ∀ c ∈ [newline], isspace c = true := List.forall_mem_singleton.mpr rfl
  have htrim : (trimit (bufferString (decimal n ++ [newline]))).bytes = decimal n := by
    have htake : (decimal n ++ [newline]).takeWhile (· ≠ 0) = decimal n ++ [newline] := by
      rw [List.takeWhile_eq_self_iff]
      intro c hc
      rcases List.mem_append.mp hc with hc | hc
      · have h := isdigit_of_mem_decimal hc
        by_contra h0
        obtain rfl : c = 0 := by simpa using h0
        revert h
        decide
      · rw [List.mem_singleton.mp hc]
        decide
    simp only [trimit, velyTrim, bufferString]
    rw [htake, trimSpaces_append hnewline]
    apply trimSpaces_eq_self
    · intro c hc
      apply hspace c (List.mem_of_mem_head? hc)
    · intro c hc
      apply hspace c (List.mem_of_mem_getLast? hc)
  have hdrop : (decimal n).dropWhile isspace = decimal n := by
    cases hd : decimal n with
    | nil => rfl
    | cons c cs =>
      rw [List.dropWhile_cons_of_neg]
      rw [hspace c (by rw [hd]; simp)]
      simp
  have htake : (decimal n).takeWhile isdigit = decimal n := by
    rw [List.takeWhile_eq_self_iff]
    intro c hc
    apply isdigit_of_mem_decimal hc
  rw [atol, htrim, hdrop]
  cases hd : decimal n with
  | nil => exact absurd hd (decimal_ne_nil n)
  | cons c cs =>
    have hc : isdigit c = true := isdigit_of_mem_decimal (n := n) (by rw [hd]; simp)
    have hminus : c ≠ '-'.toUInt8 := by
      rintro rfl
      revert hc
      decide
    have hplus : c ≠ '+'.toUInt8 := by
      rintro rfl
      revert hc
      decide
    simp only
    rw [if_neg hminus, if_neg hplus, ← hd, htake, decimalValue_decimal]

end Line

/-! ### The hash that is built -/

/-- The names that are read for a name of the file. -/
def namesRead (n : CString) : List CString :=
  if n.length + 2 < maxReqNameLen then [n] else [n, CString.empty]

/-- The lines of the file behind the count. -/
def nameLines (names : List CString) : List UInt8 :=
  names.flatMap (fun n => n.bytes ++ [space, newline])

/-- A hash of `size` buckets that has the keys `ks`. -/
def HoldsKeys (size : Nat) (ks : Finset CString) (h : Hash) (m : Mem (HashTable CString)) : Prop :=
  ∃ cs M, HashLaid Mem.empty h m cs ∧ cs.length = size
    ∧ Bindings HashEntry.text HashEntry.item cs M ∧ M.keys = ks

section Build

variable {size bound : Nat} {ks : Finset CString} {h : Hash} {m : Mem (HashTable CString)}
  (al : Allocator (HashTable CString)) (strdup : CString → Addr)

theorem velyAddHash_keys (hh : HoldsKeys size ks h m) (key : StringPtr) (data : CString) :
  Ends (velyAddHash al h m key none data)
    (fun r => HoldsKeys size (insert key.text ks) r.2.1 r.2.2)
  := by
  obtain ⟨cs, M, hl, hsize, hm, hkeys⟩ := hh
  apply ((HashOp.add key data al).exec_spec hl hm).mono
  rintro ⟨answer, h', m'⟩ ⟨-, cs', hl', hsize', hm', -⟩
  refine ⟨cs', _, hl', by rw [hsize', hsize], hm', ?_⟩
  have hinsert : ((HashOp.add key data al).spec M).2 = M.insert key.text (key, data) := by
    rw [HashOp.spec]
    cases M.lookup key.text <;> rfl
  ext k
  rw [hinsert, Finmap.mem_keys, Finmap.mem_insert, Finset.mem_insert, ← hkeys, Finmap.mem_keys]

/-- One line of the file is read. -/
theorem readReqlist_line {f line rest : List UInt8} {k : CString}
    {P : Option Hash × Mem (HashTable CString) → Prop} (hh : HoldsKeys size ks h m)
    (hf : f ≠ []) (hline : takeLine 255 f = (line, rest)) (hk : trimit (bufferString line) = k)
    (hnext : ∀ h' m', HoldsKeys size (insert k ks) h' m' →
      Ends (readReqlist al strdup bound rest (some h') m') P) :
  Ends (readReqlist al strdup (bound + 1) f (some h) m) P
  := by
  have hgets : fgets maxReqNameLen f = some (line, rest) := by
    rw [fgets, if_neg hf, ← hline]
    rfl
  rw [readReqlist, hgets]
  simp only [hk]
  apply (velyAddHash_keys al hh _ _).bind
  rintro ⟨answer, h', m'⟩ hh'
  apply hnext h' m' hh'

/-- The lines of the names are read. -/
theorem readReqlist_names {names : List CString}
    (hvalid : ∀ n ∈ names, velyIsValidParamName n false = true)
    (hshort : ∀ n ∈ names, n.length < maxReqNameLen) (hh : HoldsKeys size ks h m)
    (hb : (nameLines names).length < bound) :
  Ends (readReqlist al strdup bound (nameLines names) (some h) m) (fun r =>
    ∃ h', r.1 = some h' ∧ HoldsKeys size (ks ∪ (names.flatMap namesRead).toFinset) h' r.2)
  := by
  induction names generalizing ks h m bound with
  | nil =>
    obtain ⟨bound, rfl⟩ : ∃ b, bound = b + 1 := ⟨bound - 1, by omega⟩
    refine ⟨h, rfl, ?_⟩
    simpa using hh
  | cons n names ih =>
    have hn := hvalid n List.mem_cons_self
    have hnl := newline_not_mem hn
    have hlen : n.length < 256 := hshort n List.mem_cons_self
    have hlines : nameLines (n :: names) = (n.bytes ++ [space]) ++ newline :: nameLines names := by
      simp [nameLines]
    have hnl' : newline ∉ n.bytes ++ [space] := by
      rw [List.mem_append, not_or]
      exact ⟨hnl, by decide⟩
    have hih := fun k b h' m' (hh' : HoldsKeys size k h' m') => @ih b _ _ _
      (fun n' hn' => hvalid n' (List.mem_cons_of_mem _ hn'))
      (fun n' hn' => hshort n' (List.mem_cons_of_mem _ hn')) hh'
    simp only [hlines, List.length_append, List.length_cons] at hb
    obtain ⟨bound, rfl⟩ : ∃ b, bound = b + 1 + 1 := ⟨bound - 2, by omega⟩
    have hread : ks ∪ ((n :: names).flatMap namesRead).toFinset
        = (ks ∪ (namesRead n).toFinset) ∪ (names.flatMap namesRead).toFinset := by
      rw [List.flatMap_cons, List.toFinset_append, Finset.union_assoc]
    by_cases hfit : n.length + 2 < maxReqNameLen
    · -- the name and what is behind it fit in the buffer
      have hfit' : (n.bytes ++ [space]).length < 255 := by
        rw [List.length_append]
        simp only [CString.length, maxReqNameLen] at hfit
        rw [List.length_singleton]
        omega
      have hnames : namesRead n = [n] := if_pos hfit
      rw [hlines, hread, hnames]
      have hk : trimit (bufferString (n.bytes ++ [space] ++ [newline])) = n := by
        rw [List.append_assoc]
        apply trimit_name hn
        simp only [List.singleton_append, List.mem_cons, List.not_mem_nil, or_false, forall_eq_or_imp,
          forall_eq]
        decide
      apply readReqlist_line al strdup hh (by simp) (takeLine_short hnl' hfit') hk
      intro h' m' hh'
      have hinsert : ks ∪ [n].toFinset = insert n ks := by
        rw [Finset.union_comm]
        rfl
      rw [hinsert]
      apply hih _ _ h' m' hh'
      simp only [List.length_nil] at hb
      omega
    · -- the line is cut, and what is left of it is read as a line of its own
      have hnames : namesRead n = [n, CString.empty] := if_neg hfit
      have hinsert : ks ∪ [n, CString.empty].toFinset = insert CString.empty (insert n ks) := by
        ext k
        simp only [Finset.mem_union, List.mem_toFinset, List.mem_cons, Finset.mem_insert,
          List.not_mem_nil, or_false]
        tauto
      obtain ⟨s, t, hst, hslen, hs⟩ : ∃ s t, [space] = s ++ t ∧ (n.bytes ++ s).length = 255
          ∧ ∀ c ∈ s, isspace c = true := by
        simp only [CString.length, maxReqNameLen] at hfit hlen
        by_cases h254 : n.bytes.length = 254
        · exact ⟨[space], [], rfl, by simp [h254], List.forall_mem_singleton.mpr rfl⟩
        · exact ⟨[], [space], rfl, by simp; omega, List.forall_mem_nil _⟩
      have htspace : ∀ c ∈ t ++ [newline], isspace c = true := by
        intro c hc
        rcases List.mem_append.mp hc with hc | hc
        · have hc' : c ∈ [space] := by rw [hst]; apply List.mem_append_right _ hc
          rw [List.mem_singleton.mp hc']
          decide
        · rw [List.mem_singleton.mp hc]
          decide
      have htlen : t.length < 255 := by
        have h := congrArg List.length hst
        simp only [List.length_append, List.length_singleton] at h
        omega
      rw [hst, ← List.append_assoc] at hnl'
      have hcut : takeLine 255 (n.bytes ++ s ++ (t ++ newline :: nameLines names))
          = (n.bytes ++ s, t ++ newline :: nameLines names) := by
        rw [← hslen]
        apply takeLine_long
        intro h
        apply hnl' (List.mem_append_left _ h)
      have hrest : takeLine 255 (t ++ newline :: nameLines names)
          = (t ++ [newline], nameLines names) := by
        apply takeLine_short _ htlen
        intro h
        apply hnl' (List.mem_append_right _ h)
      have hk : trimit (bufferString (n.bytes ++ s)) = n := trimit_name hn hs
      have hk' : trimit (bufferString (t ++ [newline])) = CString.empty := trimit_spaces htspace
      rw [hlines, hread, hnames, hinsert, hst, ← List.append_assoc, List.append_assoc]
      apply readReqlist_line al strdup hh (by simp) hcut hk
      intro h' m' hh'
      apply readReqlist_line al strdup hh' (by simp) hrest hk'
      intro h'' m'' hh''
      apply hih _ _ h'' m'' hh''
      simp only [List.length_nil] at hb
      omega

/-- The file of the requests is read: the hash has the names that are read as its keys. -/
theorem readReqlist_spec (r : Requests) :
  Ends (readReqlist al strdup ((genReqlist r.names).length + 1) (genReqlist r.names) none Mem.empty)
    (fun res => ∃ h, res.1 = some h
      ∧ HoldsKeys (bucketsFor r.names.length) (r.names.flatMap namesRead).toFinset h res.2)
  := by
  have hnl : newline ∉ decimal r.names.length := by
    intro h
    have hdigit := isdigit_of_mem_decimal h
    revert hdigit
    decide
  have hlen : (decimal r.names.length).length < 255 := by
    have h := length_decimal_le (k := 19) (by omega) (n := r.names.length) (by
      have hcount := r.count
      omega)
    omega
  have hfile : genReqlist r.names
      = decimal r.names.length ++ newline :: nameLines r.names := by
    simp [genReqlist, nameLines]
  have hgets : fgets maxReqNameLen (genReqlist r.names)
      = some (decimal r.names.length ++ [newline], nameLines r.names) := by
    rw [fgets, if_neg (by simp [hfile]), hfile]
    exact congrArg some (takeLine_short hnl hlen)
  have hpos : 0 < bucketsFor r.names.length := by
    rw [bucketsFor]
    omega
  rw [readReqlist, hgets]
  simp only [atol_decimal, velyCreateHash_eq, ok_bind]
  have hnew : HoldsKeys (bucketsFor r.names.length) ∅
      ⟨bucketsFor r.names.length, List.replicate (bucketsFor r.names.length) none, 0, none, 0, 0,
        0, false⟩ Mem.empty :=
    ⟨_, ∅, hashLaid_replicate _ hpos rfl rfl rfl, List.length_replicate, Bindings.replicate _,
      rfl⟩
  have hbound : (nameLines r.names).length < (genReqlist r.names).length := by
    rw [hfile, List.length_append, List.length_cons]
    omega
  have hread := readReqlist_names al strdup r.valid r.short hnew hbound
  rw [Finset.empty_union] at hread
  apply hread

end Build

end Vely
