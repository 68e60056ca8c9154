import Vely.Dispatch.Model
import Vely.Hash.Calls

/-!
# What is printed for a hash

The initialisers are those of the keys in the buckets, listed bucket by bucket: the first key of
bucket `i` is printed at `i`, and the other keys of all buckets are printed one after the other
behind the buckets.  So no index is used twice, all are inside the array, and the last one is left
for the end.
-/

namespace Vely

/-- The initialisers of the keys of a chain. -/
def chainInits : Nat → Nat → List CString → List Initializer
  | _, _, [] => []
  | currI, _, [k] => [⟨currI, k, some k, none⟩]
  | currI, bottom, k :: k' :: ks =>
    ⟨currI, k, some k, some bottom⟩ :: chainInits bottom (bottom + 1) (k' :: ks)

/-- The number of keys behind the first ones of their chains. -/
def overflow (ks : List (List CString)) : Nat := (ks.map (fun c => c.length - 1)).sum

/-- The initialisers of the keys of all buckets, from bucket `i` on. -/
def bucketInits : Nat → Nat → List (List CString) → List Initializer
  | _, _, [] => []
  | i, bottom, c :: ks => chainInits i bottom c ++ bucketInits (i + 1) (bottom + (c.length - 1)) ks

/-- The initialisers of the keys of each bucket, from bucket `i` on. -/
def bucketChains : Nat → Nat → List (List CString) → List (List Initializer)
  | _, _, [] => []
  | i, bottom, c :: ks => chainInits i bottom c :: bucketChains (i + 1) (bottom + (c.length - 1)) ks

/-- The keys in the buckets of a hash. -/
def bucketKeys {D : Type} (cs : List (List (HashEntry D))) : List (List CString) :=
  cs.map (·.map HashEntry.text)

theorem mem_bucketKeys {D : Type} {cs : List (List (HashEntry D))} {k : CString} :
  k ∈ elements (bucketKeys cs) ↔ ∃ e ∈ elements cs, HashEntry.text e = k
  := by
  rw [bucketKeys, elements, ← List.map_flatten, List.mem_map]
  rfl

/-! ### The initialisers of a chain -/

section Chain

variable {currI bottom : Nat} {c : List CString} {x : Initializer}

/-- The data of an initialiser is initialised to the name that is its key. -/
theorem data_of_mem_chainInits (hx : x ∈ chainInits currI bottom c) :
  x.data = some x.key ∧ x.key ∈ c
  := by
  induction currI, bottom, c using chainInits.induct with
  | case1 => cases hx
  | case2 currI bottom k =>
    rw [chainInits, List.mem_singleton] at hx
    simp [hx]
  | case3 currI bottom k k' ks ih =>
    rw [chainInits, List.mem_cons] at hx
    rcases hx with rfl | hx
    · simp
    · obtain ⟨hdata, hkey⟩ := ih hx
      exact ⟨hdata, List.mem_cons_of_mem _ hkey⟩

/-- Every key of a chain has an initialiser. -/
theorem exists_chainInits {k : CString} (hk : k ∈ c) :
  ∃ x ∈ chainInits currI bottom c, x.key = k
  := by
  induction currI, bottom, c using chainInits.induct with
  | case1 => cases hk
  | case2 currI bottom l =>
    rw [List.mem_singleton] at hk
    exact ⟨_, List.mem_singleton_self _, hk.symm⟩
  | case3 currI bottom l l' ks ih =>
    rw [chainInits]
    rcases List.mem_cons.mp hk with rfl | hk
    · exact ⟨_, List.mem_cons_self, rfl⟩
    · obtain ⟨x, hx, hxk⟩ := ih hk
      exact ⟨x, List.mem_cons_of_mem _ hx, hxk⟩

/-- The indices of a chain: the first one, and those behind `bottom`. -/
theorem chainInits_index {k : CString} {ks : List CString} :
  (chainInits currI bottom (k :: ks)).map Initializer.index
    = currI :: List.range' bottom ks.length
  := by
  induction ks generalizing currI bottom k with
  | nil => rfl
  | cons k' ks ih =>
    rw [chainInits, List.map_cons, ih, List.length_cons, List.range'_succ]

/-- An index of a chain is the first one, or behind `bottom`. -/
theorem index_of_mem_chainInits (hx : x ∈ chainInits currI bottom c) :
  x.index = currI ∨ bottom ≤ x.index ∧ x.index < bottom + (c.length - 1)
  := by
  cases c with
  | nil => cases hx
  | cons k ks =>
    have hindex := List.mem_map_of_mem (f := Initializer.index) hx
    rw [chainInits_index, List.mem_cons, List.mem_range'_1] at hindex
    simpa using hindex

/-- The next index is behind `bottom`. -/
theorem next_of_mem_chainInits {n : Nat} (hx : x ∈ chainInits currI bottom c)
    (hn : x.next = some n) :
  n < bottom + (c.length - 1)
  := by
  induction currI, bottom, c using chainInits.induct with
  | case1 => cases hx
  | case2 currI bottom k =>
    rw [chainInits, List.mem_singleton] at hx
    rw [hx] at hn
    cases hn
  | case3 currI bottom k k' ks ih =>
    rw [chainInits, List.mem_cons] at hx
    simp only [List.length_cons] at ih ⊢
    rcases hx with rfl | hx
    · obtain rfl : bottom = n := by simpa using hn
      omega
    · have h := ih hx
      omega

theorem nodup_chainInits (hb : currI < bottom) :
  ((chainInits currI bottom c).map Initializer.index).Nodup
  := by
  cases c with
  | nil => apply List.nodup_nil
  | cons k ks =>
    rw [chainInits_index, List.nodup_cons, List.mem_range'_1]
    refine ⟨?_, List.nodup_range'⟩
    omega

end Chain

/-! ### The initialisers of the buckets -/

section Buckets

variable {i bottom : Nat} {ks : List (List CString)} {x : Initializer}

theorem bucketInits_concat (c : List CString) :
  bucketInits i bottom (ks ++ [c])
    = bucketInits i bottom ks ++ chainInits (i + ks.length) (bottom + overflow ks) c
  := by
  induction ks generalizing i bottom with
  | nil => simp [bucketInits, overflow]
  | cons d ks ih =>
    rw [List.cons_append, bucketInits, bucketInits, ih, List.append_assoc]
    congr 3
    · rw [List.length_cons]
      omega
    · simp only [overflow, List.map_cons, List.sum_cons]
      omega

theorem overflow_concat (c : List CString) :
  overflow (ks ++ [c]) = overflow ks + (c.length - 1)
  := by simp [overflow]

theorem data_of_mem_bucketInits (hx : x ∈ bucketInits i bottom ks) :
  x.data = some x.key ∧ x.key ∈ elements ks
  := by
  induction ks generalizing i bottom with
  | nil => cases hx
  | cons c ks ih =>
    rw [bucketInits, List.mem_append] at hx
    rw [elements, List.flatten_cons, List.mem_append]
    rcases hx with hx | hx
    · obtain ⟨hdata, hkey⟩ := data_of_mem_chainInits hx
      exact ⟨hdata, Or.inl hkey⟩
    · obtain ⟨hdata, hkey⟩ := ih hx
      exact ⟨hdata, Or.inr hkey⟩

/-- Every key has an initialiser. -/
theorem exists_bucketInits {k : CString} (hk : k ∈ elements ks) :
  ∃ x ∈ bucketInits i bottom ks, x.key = k
  := by
  induction ks generalizing i bottom with
  | nil => cases hk
  | cons c ks ih =>
    rw [elements, List.flatten_cons, List.mem_append] at hk
    rw [bucketInits]
    rcases hk with hk | hk
    · obtain ⟨x, hx, hxk⟩ := exists_chainInits hk
      exact ⟨x, List.mem_append_left _ hx, hxk⟩
    · obtain ⟨x, hx, hxk⟩ := ih hk
      exact ⟨x, List.mem_append_right _ hx, hxk⟩

/-- An index is that of a bucket, or behind `bottom`. -/
theorem index_of_mem_bucketInits (hx : x ∈ bucketInits i bottom ks) :
  i ≤ x.index ∧ x.index < i + ks.length
    ∨ bottom ≤ x.index ∧ x.index < bottom + overflow ks
  := by
  induction ks generalizing i bottom with
  | nil => cases hx
  | cons c ks ih =>
    rw [bucketInits, List.mem_append] at hx
    simp only [overflow, List.map_cons, List.sum_cons, List.length_cons] at ih ⊢
    rcases hx with hx | hx
    · have h := index_of_mem_chainInits hx
      omega
    · have h := ih hx
      omega

theorem next_of_mem_bucketInits {n : Nat} (hx : x ∈ bucketInits i bottom ks)
    (hn : x.next = some n) :
  n < bottom + overflow ks
  := by
  induction ks generalizing i bottom with
  | nil => cases hx
  | cons c ks ih =>
    rw [bucketInits, List.mem_append] at hx
    simp only [overflow, List.map_cons, List.sum_cons] at ih ⊢
    rcases hx with hx | hx
    · have h := next_of_mem_chainInits hx hn
      omega
    · have h := ih hx
      omega

/-- No index is used twice. -/
theorem nodup_bucketInits (hb : i + ks.length ≤ bottom) :
  ((bucketInits i bottom ks).map Initializer.index).Nodup
  := by
  induction ks generalizing i bottom with
  | nil => apply List.nodup_nil
  | cons c ks ih =>
    rw [List.length_cons] at hb
    rw [bucketInits, List.map_append]
    apply List.Nodup.append (nodup_chainInits (by omega)) (ih (by omega))
    rw [List.disjoint_left]
    intro n hn hn'
    obtain ⟨x, hx, rfl⟩ := List.mem_map.mp hn
    obtain ⟨y, hy, hyx⟩ := List.mem_map.mp hn'
    have h := index_of_mem_chainInits hx
    have h' := index_of_mem_bucketInits hy
    omega

/-- The buckets and the overflow: as many as the keys and the empty buckets. -/
theorem length_add_overflow :
  ks.length + overflow ks = (elements ks).length + ks.count []
  := by
  induction ks with
  | nil => rfl
  | cons c ks ih =>
    simp only [overflow, elements, List.map_cons, List.sum_cons, List.length_cons,
      List.flatten_cons, List.length_append] at ih ⊢
    cases c with
    | nil =>
      simp only [List.length_nil, List.count_cons_self]
      omega
    | cons k c =>
      rw [List.count_cons_of_ne (by simp)]
      simp only [List.length_cons]
      omega

end Buckets

section Chains

variable {i bottom : Nat} {ks : List (List CString)}

theorem flatten_bucketChains :
  elements (bucketChains i bottom ks) = bucketInits i bottom ks
  := by
  induction ks generalizing i bottom with
  | nil => rfl
  | cons c ks ih => rw [bucketChains, elements, List.flatten_cons, ← elements, ih, bucketInits]

theorem getElem?_bucketChains (j : Nat) :
  ∃ b, (bucketChains i bottom ks)[j]? = ks[j]?.map (chainInits (i + j) b)
  := by
  induction ks generalizing i bottom j with
  | nil => simp [bucketChains]
  | cons c ks ih =>
    cases j with
    | zero => exact ⟨bottom, rfl⟩
    | succ j =>
      obtain ⟨b, hb⟩ := @ih (i + 1) (bottom + (c.length - 1)) j
      use b
      rw [bucketChains, List.getElem?_cons_succ, List.getElem?_cons_succ, hb, Nat.add_right_comm,
        Nat.add_assoc]

theorem chainInits_key {currI bottom : Nat} {c : List CString} :
  (chainInits currI bottom c).map Initializer.key = c
  := by
  induction currI, bottom, c using chainInits.induct with
  | case1 => rfl
  | case2 => rfl
  | case3 currI bottom k k' ks ih => rw [chainInits, List.map_cons, ih]

theorem bucketChains_key :
  (bucketChains i bottom ks).map (·.map Initializer.key) = ks
  := by
  induction ks generalizing i bottom with
  | nil => rfl
  | cons c ks ih => rw [bucketChains, List.map_cons, ih, chainInits_key]

end Chains

/-! ### The loops of `setup_reqhash` over a hash -/

section Loops

variable {h : Hash} {m : Mem (HashTable CString)} {cs : List (List (HashEntry CString))}
  {c : List (HashEntry CString)} {p : Option Addr}

theorem emitChain_eq {bound currI bottom : Nat} (hc : EntryChain m p c none)
    (hb : c.length < bound) :
  emitChain m bound p currI bottom
    = .ok (chainInits currI bottom (c.map HashEntry.text), bottom + (c.length - 1))
  := by
  induction c generalizing bound p currI bottom with
  | nil =>
    obtain rfl : p = none := hc
    rw [emitChain]
    rfl
  | cons e c ih =>
    obtain ⟨a, key, data⟩ := e
    obtain ⟨rfl, v, hv, hi, hrest⟩ := hc
    obtain ⟨n, rfl⟩ : ∃ n, bound = n + 1 := ⟨bound - 1, by simp at hb; omega⟩
    obtain ⟨rfl, rfl⟩ : v.key = key ∧ v.data = data := by simpa using hi
    rw [emitChain, Mem.read_of hv, ok_bind]
    cases c with
    | nil =>
      have hnext : v.next = none := hrest
      rw [hnext]
      rfl
    | cons f c =>
      have hih := @ih _ _ bottom (bottom + 1) hrest (by simpa using hb)
      obtain ⟨hnext, -⟩ := hrest
      rw [hnext] at hih ⊢
      simp only [hih, ok_bind, pure_eq_ok]
      congr 2
      simp only [List.length_cons]
      omega

/-- What holds of the first `n` buckets. -/
theorem take_succ {n : Nat} (hn : n < cs.length) :
  ∃ c, cs[n]? = some c
    ∧ bucketKeys (cs.take (n + 1)) = bucketKeys (cs.take n) ++ [c.map HashEntry.text]
  := by
  refine ⟨cs[n], List.getElem?_eq_getElem hn, ?_⟩
  rw [List.take_succ_eq_append_getElem hn, bucketKeys, List.map_append]
  rfl

theorem emitBuckets_eq (hl : HashChains h m cs) {n : Nat} (hn : n ≤ cs.length) :
  emitBuckets h m n
    = .ok (bucketInits 0 cs.length (bucketKeys (cs.take n)),
        cs.length + overflow (bucketKeys (cs.take n)))
  := by
  induction n with
  | zero =>
    rw [emitBuckets, hl.size]
    rfl
  | succ n ih =>
    obtain ⟨c, hc, htake⟩ := take_succ (show n < cs.length by omega)
    have hlen : (bucketKeys (cs.take n)).length = n := by
      rw [bucketKeys, List.length_map, List.length_take]
      omega
    rw [emitBuckets, ih (by omega), ok_bind]
    simp only [hl.bucket_eq hc, ok_bind,
      emitChain_eq (hl.chain hc).2 (hl.length_lt_bound hc), pure_eq_ok]
    rw [htake, bucketInits_concat, overflow_concat, hlen, Nat.zero_add, List.length_map,
      Nat.add_assoc]

theorem head?_eq_none_iff (c : List (HashEntry CString)) :
  c.head?.map Prod.fst = none ↔ c.map HashEntry.text = []
  := by
  cases c <;> simp

theorem countEmpty_eq (hl : HashChains h m cs) {n : Nat} (hn : n ≤ cs.length) :
  countEmpty h n = .ok ((bucketKeys (cs.take n)).count [])
  := by
  induction n with
  | zero => rfl
  | succ n ih =>
    obtain ⟨c, hc, htake⟩ := take_succ (show n < cs.length by omega)
    rw [countEmpty, ih (by omega), ok_bind, hl.bucket_eq hc, ok_bind, htake, List.count_append]
    simp only [head?_eq_none_iff, pure_eq_ok]
    split
    · next he => rw [he, List.count_singleton_self]
    · next he => rw [List.count_singleton, beq_eq_false_iff_ne.mpr he, if_neg (by simp)]; rfl

/-- The pointers: one for each bucket that is not empty. -/
def bucketPtrs (ks : List (List CString)) : List (Option Nat) :=
  ks.mapIdx (fun i c => if c = [] then none else some i)

theorem emitPointers_eq (hl : HashChains h m cs) {n : Nat} (hn : n ≤ cs.length) :
  emitPointers h n = .ok (bucketPtrs (bucketKeys (cs.take n)))
  := by
  induction n with
  | zero => rfl
  | succ n ih =>
    obtain ⟨c, hc, htake⟩ := take_succ (show n < cs.length by omega)
    have hlen : (bucketKeys (cs.take n)).length = n := by
      rw [bucketKeys, List.length_map, List.length_take]
      omega
    rw [emitPointers, ih (by omega), ok_bind, hl.bucket_eq hc, ok_bind, htake, bucketPtrs,
      bucketPtrs, List.mapIdx_concat, hlen]
    simp only [head?_eq_none_iff]
    rfl

end Loops

end Vely
