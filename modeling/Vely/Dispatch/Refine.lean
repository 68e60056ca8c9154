import Vely.Dispatch.Emit
import Vely.Dispatch.Read

/-!
# The table of requests answers as the hash it is made from

The table that is printed for a hash lies in the memory of the generated program as a hash with
the same keys in the same buckets, and so answers every search the same way.  The number of
buckets of the two agrees when as many names are read from the file as it lists, and every name
that is printed is the name of a request then.  Otherwise the empty name is printed, too, and
there is no such function.
-/

namespace Vely

/-- Searching hashes, one key after the other. -/
def findKey {D : Type} (key : CString) (st : Hash × Mem (HashTable D)) :
    Except Stop (HashAnswer D × Hash × Mem (HashTable D)) :=
  velyFindHash st.1 st.2 key none false

/-- What an answer says besides the data: the status and the text of the key. -/
def HashAnswer.found {D : Type} (a : HashAnswer D) : Status × Option CString :=
  (a.status, a.oldkey.map StringPtr.text)

/-- The answer a search is to give: the function of a request, or that there is no request of this
name. -/
def requestAnswer {H : Type} (names : List CString) (literal : CString → Addr)
    (handler : CString → H) (key : CString) : HashAnswer (Option H) :=
  if key ∈ names then ⟨.okay, some (some (handler key)), some ⟨literal key, key⟩⟩
  else ⟨.errExist, none, none⟩

/-- The generated program finds the requests: every name it uses is declared, every index is inside
its array, and wherever the array is, any searches are answered as by the hash `h` it is made from,
with the functions of the requests as data. -/
structure Dispatches (names : List CString) (t : ReqTable) (h : Hash)
    (m : Mem (HashTable CString)) : Prop where
  declared : ∀ x ∈ t.inits, ∀ k ∈ x.data, k ∈ names
  inside : ∀ x ∈ t.inits, x.index < t.harr ∧ ∀ n ∈ x.next, n < t.harr
  pointers : t.ptrs.length ≤ t.harr - 1 ∧ ∀ p ∈ t.ptrs, ∀ n ∈ p, n < t.harr
  answers : ∀ {H : Type} (place : Nat → Addr) (literal : CString → Addr)
    (handler : CString → H), Set.InjOn place (Set.Iio t.harr) → ∀ keys : List CString,
    ∃ g as bs st st', t.wrap place = .ok g
      ∧ run findKey keys (h, m) = .ok (as, st)
      ∧ run findKey keys (g, t.load place literal handler) = .ok (bs, st')
      ∧ bs.map HashAnswer.found = as.map HashAnswer.found
      ∧ bs = keys.map (requestAnswer names literal handler)

/-! ### What is printed for the requests -/

/-- The table that is printed for the keys of a hash. -/
def tableOf (ks : List (List CString)) : ReqTable where
  harr := (elements ks).length + 1 + ks.count []
  inits := bucketInits 0 ks.length ks
    ++ [⟨(elements ks).length + ks.count [], CString.empty, none, none⟩]
  ptrs := bucketPtrs ks
  size := (elements ks).length

/-- The hash and the table that are made of the file of the requests. -/
theorem setupReqhash_spec (al : Allocator (HashTable CString)) (strdup : CString → Addr)
    (r : Requests) :
  Ends (setupReqhash al strdup (genReqlist r.names)) (fun res => ∃ cs,
    HashLaid Mem.empty res.2.1 res.2.2 cs ∧ cs.length = bucketsFor r.names.length
      ∧ (∀ k, k ∈ elements (bucketKeys cs) ↔ k ∈ r.names.flatMap namesRead)
      ∧ res.1 = tableOf (bucketKeys cs))
  := by
  rw [setupReqhash]
  apply (readReqlist_spec al strdup r).bind
  rintro ⟨_, m⟩ ⟨h, rfl, cs, M, hl, hlen, hm, hkeys⟩
  have hcs : h.numBuckets = cs.length := hl.size
  have htake : cs.take cs.length = cs := List.take_length
  have htot : h.tot = (elements (bucketKeys cs)).length := by
    rw [hl.total, bucketKeys, elements, elements, ← List.map_flatten, List.length_map]
  simp only [deref_some, ok_bind, hcs, countEmpty_eq hl.toHashChains le_rfl,
    emitBuckets_eq hl.toHashChains le_rfl, emitPointers_eq hl.toHashChains le_rfl, htake]
  refine ⟨cs, hl, hlen, ?_, ?_⟩
  · intro k
    rw [mem_bucketKeys, ← List.mem_toFinset, ← hkeys, Finmap.mem_keys, ← Finmap.lookup_isSome,
      Option.isSome_iff_exists]
    constructor
    · rintro ⟨e, he, rfl⟩
      exact ⟨_, hm.lookup_of_mem he⟩
    · rintro ⟨v, hv⟩
      obtain ⟨e, he, hek, -⟩ := (hm k v).mp hv
      exact ⟨e, he, hek⟩
  · have hbuckets : (bucketKeys cs).length = cs.length := List.length_map ..
    simp only [tableOf, hbuckets, htot]
    congr 4
    omega

/-! ### The array in memory -/

section Table

variable {ks : List (List CString)} {x : Initializer}

/-- The initialisers are inside the array, and the last element is left for the end. -/
theorem index_lt_harr (hx : x ∈ bucketInits 0 ks.length ks) :
  x.index < (tableOf ks).harr - 1 ∧ ∀ n ∈ x.next, n < (tableOf ks).harr - 1
  := by
  have hlen := @length_add_overflow ks
  simp only [tableOf]
  constructor
  · have h := index_of_mem_bucketInits hx
    omega
  · intro n hn
    have h := next_of_mem_bucketInits hx hn
    omega

theorem tableOf_inside (hx : x ∈ (tableOf ks).inits) :
  x.index < (tableOf ks).harr ∧ ∀ n ∈ x.next, n < (tableOf ks).harr
  := by
  have hpos : 0 < (tableOf ks).harr := by
    simp only [tableOf]
    omega
  rcases List.mem_append.mp hx with hx | hx
  · obtain ⟨hindex, hnext⟩ := index_lt_harr hx
    refine ⟨by omega, ?_⟩
    intro n hn
    have h := hnext n hn
    omega
  · rw [List.mem_singleton.mp hx]
    refine ⟨?_, by simp⟩
    simp only [tableOf]
    omega

theorem getElem?_bucketPtrs (i : Nat) :
  (bucketPtrs ks)[i]? = ks[i]?.map (fun c => if c = [] then none else some i)
  := by simp [bucketPtrs, List.getElem?_mapIdx]

theorem tableOf_pointers :
  (tableOf ks).ptrs.length ≤ (tableOf ks).harr - 1
    ∧ ∀ p ∈ (tableOf ks).ptrs, ∀ n ∈ p, n < (tableOf ks).harr
  := by
  have hlen := @length_add_overflow ks
  constructor
  · simp only [tableOf, bucketPtrs, List.length_mapIdx]
    omega
  · intro p hp n hn
    obtain ⟨i, hi⟩ := List.mem_iff_getElem?.mp hp
    simp only [tableOf, getElem?_bucketPtrs] at hi ⊢
    obtain ⟨c, hc, rfl⟩ := Option.map_eq_some_iff.mp hi
    have hi' := (List.getElem?_eq_some_iff.mp hc).1
    split at hn
    · cases hn
    · obtain rfl : i = n := by simpa using hn
      omega

/-- No index is used twice. -/
theorem nodup_index :
  ((tableOf ks).inits.map Initializer.index).Nodup
  := by
  rw [tableOf, List.map_append]
  apply List.Nodup.append (nodup_bucketInits (by omega)) (List.nodup_singleton _)
  rw [List.disjoint_left]
  intro n hn hn'
  obtain ⟨x, hx, rfl⟩ := List.mem_map.mp hn
  have h := (index_lt_harr hx).1
  rw [List.mem_singleton.mp hn'] at h
  simp only [tableOf] at h
  omega

variable {H : Type} {place : Nat → Addr} (literal : CString → Addr) (handler : CString → H)

/-- The element that is printed with an initialiser. -/
def loadedEntry (place : Nat → Addr) (x : Initializer) : HashEntry (Option H) :=
  (place x.index, ⟨literal x.key, x.key⟩, x.data.map handler)

/-- The element of an initialiser in memory. -/
theorem load_of_mem (hplace : Set.InjOn place (Set.Iio (tableOf ks).harr))
    (hx : x ∈ (tableOf ks).inits) :
  (tableOf ks).load place literal handler (place x.index)
    = some ⟨⟨literal x.key, x.key⟩, x.data.map handler, x.next.map place⟩
  := by
  apply Mem.setAll_of_mem
  · rw [List.map_map]
    have hcomp : (tableOf ks).inits.map (Prod.fst ∘ fun i : Initializer =>
        ((place i.index, ⟨⟨literal i.key, i.key⟩, i.data.map handler, i.next.map place⟩)
          : Addr × HashTable (Option H)))
        = ((tableOf ks).inits.map Initializer.index).map place := by
      rw [List.map_map]
      rfl
    rw [hcomp]
    apply List.Nodup.map_on _ nodup_index
    intro a ha b hb hab
    obtain ⟨y, hy, rfl⟩ := List.mem_map.mp ha
    obtain ⟨z, hz, rfl⟩ := List.mem_map.mp hb
    apply hplace _ _ hab
    · apply (tableOf_inside hy).1
    · apply (tableOf_inside hz).1
  · apply List.mem_map_of_mem hx

/-- The initialisers of a chain are a chain in memory. -/
theorem chainInits_chain {m : Mem (HashTable (Option H))} {currI bottom : Nat} {c : List CString}
    (hm : ∀ x ∈ chainInits currI bottom c, m (place x.index)
      = some ⟨⟨literal x.key, x.key⟩, x.data.map handler, x.next.map place⟩) :
  EntryChain m (if c = [] then none else some (place currI))
    ((chainInits currI bottom c).map (loadedEntry literal handler place)) none
  := by
  induction currI, bottom, c using chainInits.induct with
  | case1 => rfl
  | case2 currI bottom k =>
    have hk := hm _ (List.mem_singleton_self _)
    exact ⟨rfl, _, hk, rfl, rfl⟩
  | case3 currI bottom k k' ks ih =>
    have hk := hm _ List.mem_cons_self
    refine ⟨rfl, _, hk, rfl, ?_⟩
    have hrest := ih (fun x hx => hm x (List.mem_cons_of_mem _ hx))
    rw [if_neg (by simp)] at hrest
    exact hrest

/-- The elements of the hash that is loaded, by buckets. -/
def loadedBuckets (place : Nat → Addr) (ks : List (List CString)) :
    List (List (HashEntry (Option H))) :=
  (bucketChains 0 ks.length ks).map (·.map (loadedEntry literal handler place))

theorem bucketKeys_loaded :
  bucketKeys (loadedBuckets literal handler place ks) = ks
  := by
  have hkey := @bucketChains_key 0 ks.length ks
  rw [bucketKeys, loadedBuckets, List.map_map]
  conv_rhs => rw [← hkey]
  apply List.map_congr_left
  intro c hc
  rw [Function.comp_apply, List.map_map]
  rfl

theorem length_loadedBuckets :
  (loadedBuckets literal handler place ks).length = ks.length
  := by
  have h := congrArg List.length (@bucketKeys_loaded ks _ place literal handler)
  rwa [bucketKeys, List.length_map] at h

/-- The data of a loaded element is the function of its key. -/
theorem mem_loadedBuckets {e : HashEntry (Option H)}
    (he : e ∈ elements (loadedBuckets literal handler place ks)) :
  e.2 = (⟨literal (HashEntry.text e), HashEntry.text e⟩, some (handler (HashEntry.text e)))
  := by
  rw [loadedBuckets, elements, ← List.map_flatten, ← elements, flatten_bucketChains] at he
  obtain ⟨x, hx, rfl⟩ := List.mem_map.mp he
  rw [loadedEntry, (data_of_mem_bucketInits hx).1]
  rfl

/-- The loaded table is a hash with the keys it is made for, in the same buckets. -/
theorem load_chains {h : Hash} (hpos : 0 < ks.length)
    (hplaced : Placed id (slotOf ks.length) ks)
    (hplace : Set.InjOn place (Set.Iio (tableOf ks).harr)) (hsize : h.numBuckets = ks.length)
    (htable : h.table = (tableOf ks).pointers place) :
  HashChains h ((tableOf ks).load place literal handler) (loadedBuckets literal handler place ks)
  where
  size := by rw [hsize, length_loadedBuckets]
  pos := by rw [length_loadedBuckets]; apply hpos
  placed := by
    rw [length_loadedBuckets]
    apply hplaced.congr
    have hkeys := @bucketKeys_loaded ks _ place literal handler
    rw [bucketKeys] at hkeys
    simp [hkeys]
  chains := by
    intro i d hd
    obtain ⟨b, hb⟩ := @getElem?_bucketChains 0 ks.length ks i
    rw [loadedBuckets, List.getElem?_map, hb, Option.map_map] at hd
    obtain ⟨c, hc, rfl⟩ := Option.map_eq_some_iff.mp hd
    rw [hc, Option.map_some, Nat.zero_add] at hb
    have hi := (List.getElem?_eq_some_iff.mp hc).1
    refine ⟨if c = [] then none else some (place i), ?_, ?_⟩
    · rw [htable, ReqTable.pointers, List.getElem?_append_left, List.getElem?_map]
      · simp only [tableOf, getElem?_bucketPtrs, hc, Option.map_some]
        split <;> rfl
      · simpa [tableOf, bucketPtrs] using hi
    · rw [Function.comp_apply, Nat.zero_add]
      apply chainInits_chain
      intro x hx
      apply load_of_mem literal handler hplace
      apply List.mem_append_left
      rw [← flatten_bucketChains]
      apply mem_elements_of hb hx

end Table

/-! ### Searches -/

section Searches

variable {D : Type} {h : Hash} {m : Mem (HashTable D)} {cs : List (List (HashEntry D))}

/-- Searches on a hash are answered one by one. -/
theorem findKeys_spec (hl : HashChains h m cs) (keys : List CString) :
  ∃ as st, run findKey keys (h, m) = .ok (as, st) ∧ List.Forall₂ (IsAnswer cs) keys as
  := by
  induction keys generalizing h with
  | nil => exact ⟨[], (h, m), rfl, List.Forall₂.nil⟩
  | cons k keys ih =>
    obtain ⟨answer, h', hfind, hanswer, hl'⟩ := velyFindHash_keep hl k
    obtain ⟨as, st, hrun, has⟩ := ih hl'
    refine ⟨answer :: as, st, ?_, List.Forall₂.cons hanswer has⟩
    rw [run, findKey, hfind, ok_bind]
    simp only [hrun]
    rfl

end Searches

/-- The answers to a list of keys, as far as `g` shows them. -/
theorem map_answers {A B : Type} {P : CString → A → Prop} {g : A → B} {f : CString → B}
    {keys : List CString} {as : List A} (h : List.Forall₂ P keys as)
    (hg : ∀ k a, P k a → g a = f k) :
  as.map g = keys.map f
  := by
  induction h with
  | nil => rfl
  | cons hka _ ih => rw [List.map_cons, List.map_cons, hg _ _ hka, ih]

/-- What is found in a hash with the keys `names`. -/
theorem found_of_isAnswer {D : Type} {cs : List (List (HashEntry D))} {names : List CString}
    {k : CString} {answer : HashAnswer D}
    (hkeys : ∀ k, k ∈ elements (bucketKeys cs) ↔ k ∈ names) (h : IsAnswer cs k answer) :
  answer.found = if k ∈ names then (.okay, some k) else (.errExist, none)
  := by
  have hk := hkeys k
  rw [mem_bucketKeys] at hk
  rcases h with ⟨hnone, rfl⟩ | ⟨e, he, rfl, rfl⟩
  · rw [if_neg]
    · rfl
    · intro hmem
      obtain ⟨e, he, hek⟩ := hk.mpr hmem
      apply hnone e he hek
  · rw [if_pos (hk.mp ⟨e, he, rfl⟩)]
    rfl

/-- What is found in the table that is loaded. -/
theorem requestAnswer_of_isAnswer {H : Type} {place : Nat → Addr} {literal : CString → Addr}
    {handler : CString → H} {ks : List (List CString)} {names : List CString} {k : CString}
    {answer : HashAnswer (Option H)} (hkeys : ∀ k, k ∈ elements ks ↔ k ∈ names)
    (h : IsAnswer (loadedBuckets literal handler place ks) k answer) :
  answer = requestAnswer names literal handler k
  := by
  have hk := hkeys k
  rw [← @bucketKeys_loaded ks _ place literal handler, mem_bucketKeys] at hk
  rw [requestAnswer]
  rcases h with ⟨hnone, rfl⟩ | ⟨e, he, rfl, rfl⟩
  · rw [if_neg]
    intro hmem
    obtain ⟨e, he, hek⟩ := hk.mpr hmem
    apply hnone e he hek
  · rw [if_pos (hk.mp ⟨e, he, rfl⟩), mem_loadedBuckets literal handler he]

/-! ### The refinement -/

section Refine

variable {h : Hash} {m : Mem (HashTable CString)} {cs : List (List (HashEntry CString))}
  (r : Requests)

/-- When every name is read in one line, the table dispatches the requests. -/
theorem dispatches_of_short (hl : HashLaid Mem.empty h m cs)
    (hlen : cs.length = bucketsFor r.names.length)
    (hkeys : ∀ k, k ∈ elements (bucketKeys cs) ↔ k ∈ r.names.flatMap namesRead)
    (hshort : ∀ n ∈ r.names, n.length + 2 < maxReqNameLen) :
  Dispatches r.names (tableOf (bucketKeys cs)) h m
  := by
  have hread : r.names.flatMap namesRead = r.names := by
    rw [List.flatMap_congr (g := fun n => [n])]
    · simp
    · intro n hn
      apply if_pos (hshort n hn)
  rw [hread] at hkeys
  have hbuckets : (bucketKeys cs).length = cs.length := List.length_map ..
  have hplaced : Placed id (slotOf (bucketKeys cs).length) (bucketKeys cs) := by
    rw [hbuckets]
    apply hl.placed.congr
    simp [bucketKeys]
  have htot : (elements (bucketKeys cs)).length = r.names.length := by
    have hnodup : (elements (bucketKeys cs)).Nodup := by simpa using hplaced.nodup
    apply (((List.perm_ext_iff_of_nodup hnodup r.distinct).mpr hkeys)).length_eq
  constructor
  case declared =>
    intro x hx k hk
    rw [tableOf] at hx
    rcases List.mem_append.mp hx with hx | hx
    · obtain ⟨hdata, hkey⟩ := data_of_mem_bucketInits hx
      rw [hdata, Option.mem_some_iff] at hk
      rw [← hk, ← hkeys]
      apply hkey
    · rw [List.mem_singleton.mp hx] at hk
      cases hk
  case inside =>
    intro x hx
    apply tableOf_inside hx
  case pointers => apply tableOf_pointers
  case answers =>
    intro H place literal handler hplace keys
    obtain ⟨p, ptrs, hptrs⟩ :
        ∃ p ptrs, (tableOf (bucketKeys cs)).pointers place = p :: ptrs := by
      apply List.exists_cons_of_length_pos
      have hpos := hl.pos
      simp only [ReqTable.pointers, tableOf, bucketPtrs, List.length_append, List.length_map,
        List.length_mapIdx]
      omega
    have hwrap : (tableOf (bucketKeys cs)).wrap place = .ok
        ⟨bucketsFor r.names.length, p :: ptrs, 0, p, 0, 0, 0, false⟩ := by
      rw [ReqTable.wrap, hptrs, velyCreateHash_table]
      simp only [tableOf, htot]
    have hloaded : HashChains ⟨bucketsFor r.names.length, p :: ptrs, 0, p, 0, 0, 0, false⟩
        ((tableOf (bucketKeys cs)).load place literal handler)
        (loadedBuckets literal handler place (bucketKeys cs)) := by
      apply load_chains literal handler _ hplaced hplace _ hptrs.symm
      · rw [hbuckets]
        apply hl.pos
      · rw [hbuckets, hlen]
    obtain ⟨as, st, hrun, has⟩ := findKeys_spec hl.toHashChains keys
    obtain ⟨bs, st', hrun', hbs⟩ := findKeys_spec hloaded keys
    have hloadedKeys : ∀ k,
        k ∈ elements (bucketKeys (loadedBuckets literal handler place (bucketKeys cs)))
          ↔ k ∈ r.names := by
      rw [bucketKeys_loaded]
      apply hkeys
    refine ⟨_, as, bs, st, st', hwrap, hrun, hrun', ?_, ?_⟩
    · rw [map_answers has (fun k a => found_of_isAnswer hkeys),
        map_answers hbs (fun k a => found_of_isAnswer hloadedKeys)]
    · rw [← map_answers (g := id) hbs (fun k a => requestAnswer_of_isAnswer hkeys), List.map_id]

/-- When a name is not read in one line, the generated program uses a name that is not declared. -/
theorem not_dispatches_of_long
    (hkeys : ∀ k, k ∈ elements (bucketKeys cs) ↔ k ∈ r.names.flatMap namesRead)
    (hlong : ∃ n ∈ r.names, ¬ n.length + 2 < maxReqNameLen) :
  ¬ Dispatches r.names (tableOf (bucketKeys cs)) h m
  := by
  intro hdispatches
  obtain ⟨n, hn, hlong⟩ := hlong
  have hempty : CString.empty ∈ elements (bucketKeys cs) := by
    rw [hkeys, List.mem_flatMap]
    refine ⟨n, hn, ?_⟩
    rw [namesRead, if_neg hlong]
    simp
  obtain ⟨x, hx, hkey⟩ := @exists_bucketInits 0 (bucketKeys cs).length _ _ hempty
  have hdata := (data_of_mem_bucketInits hx).1
  rw [hkey] at hdata
  have hdeclared := hdispatches.declared x (List.mem_append_left _ hx) _ hdata
  apply ne_nil_of_valid (r.valid _ hdeclared) rfl

/-- The table is made, and then has a name that is not declared. -/
theorem setupReqhash_not_of_long {al : Allocator (HashTable CString)} {strdup : CString → Addr}
    (hok : (setupReqhash al strdup (genReqlist r.names)).isOk = true)
    (hlong : ∃ n ∈ r.names, ¬ n.length + 2 < maxReqNameLen) :
  ∃ res, setupReqhash al strdup (genReqlist r.names) = .ok res
    ∧ ¬ Dispatches r.names res.1 res.2.1 res.2.2
  := by
  obtain ⟨res, hres, cs, -, -, hkeys, htable⟩ := (setupReqhash_spec al strdup r).exists_ok hok
  refine ⟨res, hres, ?_⟩
  rw [htable]
  apply not_dispatches_of_long r hkeys hlong

/-- The table that is made for the requests finds them exactly if every name fits in the buffer
together with the space and the newline that are written behind it. -/
theorem setupReqhash_dispatches_iff (al : Allocator (HashTable CString))
    (strdup : CString → Addr) :
  Ends (setupReqhash al strdup (genReqlist r.names)) (fun res =>
    Dispatches r.names res.1 res.2.1 res.2.2 ↔ ∀ n ∈ r.names, n.length + 2 < maxReqNameLen)
  := by
  apply (setupReqhash_spec al strdup r).mono
  rintro ⟨t, h, m⟩ ⟨cs, hl, hlen, hkeys, rfl⟩
  constructor
  · intro hdispatches
    by_contra hlong
    push Not at hlong
    simp only [← not_lt] at hlong
    apply not_dispatches_of_long r hkeys hlong hdispatches
  · apply dispatches_of_short r hl hlen hkeys

/-- A request with a name of 254 characters. -/
def longRequest : Requests where
  names := [⟨List.replicate 254 'a'.toUInt8, fun h => by cases List.eq_of_mem_replicate h⟩]
  distinct := List.nodup_singleton _
  valid := by decide +kernel
  short := by decide +kernel
  count := by decide +kernel

/-- The table that is made for it does not find it: the empty name is printed, too. -/
theorem setupReqhash_not_dispatches :
  ∃ res, setupReqhash (Allocator.firstFit _ 2) (fun _ => ⟨0, Nat.two_pow_pos 64⟩)
      (genReqlist longRequest.names) = .ok res
    ∧ ¬ Dispatches longRequest.names res.1 res.2.1 res.2.2
  := by
  have hok : (setupReqhash (Allocator.firstFit _ 2) (fun _ => ⟨0, Nat.two_pow_pos 64⟩)
      (genReqlist longRequest.names)).isOk = true := by decide +kernel
  have hlong : ∃ n ∈ longRequest.names, ¬ n.length + 2 < maxReqNameLen := by decide +kernel
  apply setupReqhash_not_of_long longRequest hok hlong

end Refine

end Vely
