import Vely.Hash.Layout

/-!
# What the functions of the hash table do

A search goes over the chain of one bucket, and its result is that of a search in the list of
elements of this bucket.  From it follow the effects of finding, deleting, adding and replacing an
element on the layout of a hash.  Freeing the elements gives the memory back as it was
before the hash.
-/

namespace Vely

variable {D : Type}

/-! ### Searching a chain -/

/-- The search of a chain, over the list of its elements. -/
def searchEntries (takes : CString → Except Stop Bool) :
    Option Addr → List (HashEntry D) → Int → Except Stop (Option Addr × Option Addr × Int)
  | prev, [], reads => .ok (none, prev, reads)
  | prev, e :: es, reads => do
    if ← takes (HashEntry.text e) then return (some e.1, prev, reads + 1)
    else searchEntries takes (some e.1) es (reads + 1)

section Search

variable (takes : CString → Except Stop Bool) (prev : Option Addr) (reads : Int)
  {m : Mem (HashTable D)} {c xs ys : List (HashEntry D)} {e : HashEntry D} {p : Option Addr}

/-- Searching a chain in memory searches the list of its elements. -/
theorem searchChain_eq {bound : Nat} (hc : EntryChain m p c none) (hb : c.length < bound) :
  searchChain m takes bound prev p reads = searchEntries takes prev c reads
  := by
  induction c generalizing bound p prev reads with
  | nil =>
    obtain rfl : p = none := hc
    rw [searchChain, searchEntries]
  | cons e c ih =>
    obtain ⟨a, key, data⟩ := e
    obtain ⟨rfl, v, hv, hi, hrest⟩ := hc
    obtain ⟨n, rfl⟩ : ∃ n, bound = n + 1 := ⟨bound - 1, by simp at hb; omega⟩
    obtain ⟨rfl, rfl⟩ : v.key = key ∧ v.data = data := by simpa using hi
    rw [searchChain, searchEntries, Mem.read_of hv, ok_bind,
      ih _ _ hrest (by simpa using hb)]
    rfl

/-- No element is taken. -/
theorem searchEntries_none (hc : ∀ e ∈ c, takes (HashEntry.text e) = .ok false) :
  ∃ last reads', searchEntries takes prev c reads = .ok (none, last, reads')
  := by
  induction c generalizing prev reads with
  | nil => exact ⟨prev, reads, rfl⟩
  | cons e c ih =>
    rw [searchEntries, hc e (by simp)]
    apply ih
    intro f hf
    apply hc f (by simp [hf])

/-- The first element that is taken, and the one before it. -/
theorem searchEntries_some (ys : List (HashEntry D))
    (hxs : ∀ f ∈ xs, takes (HashEntry.text f) = .ok false)
    (he : takes (HashEntry.text e) = .ok true) :
  ∃ reads', searchEntries takes prev (xs ++ e :: ys) reads
    = .ok (some e.1, (xs.getLast?.map Prod.fst).or prev, reads')
  := by
  induction xs generalizing prev reads with
  | nil =>
    rw [List.nil_append, searchEntries, he]
    exact ⟨_, rfl⟩
  | cons f xs ih =>
    obtain ⟨reads', h⟩ := ih (some f.1) (reads + 1) (fun g hg => hxs g (by simp [hg]))
    use reads'
    rw [List.cons_append, searchEntries, hxs f (by simp)]
    rw [ok_bind, if_neg (by simp), h]
    cases xs with
    | nil => rfl
    | cons g xs => simp [List.getLast?_cons]

end Search

section Calls

variable {base m : Mem (HashTable D)} {h : Hash} {cs : List (List (HashEntry D))}
  {c xs ys : List (HashEntry D)} {e : HashEntry D} {k : CString}

/-- The elements of a bucket with the key `k`: there is one, or none. -/
theorem bucket_cases (c : List (HashEntry D)) (k : CString) :
  (∀ e ∈ c, HashEntry.text e ≠ k)
    ∨ ∃ xs e ys, c = xs ++ e :: ys ∧ HashEntry.text e = k ∧ ∀ f ∈ xs, HashEntry.text f ≠ k
  := by
  induction c with
  | nil => simp
  | cons f c ih =>
    by_cases hf : HashEntry.text f = k
    · exact Or.inr ⟨[], f, c, rfl, hf, by simp⟩
    · rcases ih with hc | ⟨xs, e, ys, rfl, he, hxs⟩
      · left
        simpa [hf] using hc
      · right
        refine ⟨f :: xs, e, ys, rfl, he, ?_⟩
        simpa [hf] using hxs

/-! ### Finding and deleting -/

/-- Finding a key searches the list of the elements of its bucket. -/
theorem velyFindHash_eq (hl : HashChains h m cs) (keylist : Option (List CString))
    (hc : cs[velyComputeHash k keylist cs.length]? = some c) (del : Bool) :
  velyFindHash h m k keylist del
    = searchEntries (isMatch k keylist) none c h.reads >>= fun r =>
        handBack { h with hits := h.hits + 1, reads := r.2.2 } m r.1 r.2.1
          (velyComputeHash k keylist cs.length) del
  := by
  rw [velyFindHash, hl.size, hl.bucket_eq hc, ok_bind,
    searchChain_eq _ _ _ (hl.chain hc).2 (hl.length_lt_bound hc)]

/-- A key that is not in its bucket is not found. -/
theorem velyFindHash_absent (hl : HashChains h m cs) (hc : cs[slotOf cs.length k]? = some c)
    (hk : ∀ e ∈ c, HashEntry.text e ≠ k) (del : Bool) :
  ∃ reads, velyFindHash h m k none del
    = .ok (⟨.errExist, none, none⟩, { h with hits := h.hits + 1, reads }, m)
  := by
  obtain ⟨last, reads, hsearch⟩ :=
    searchEntries_none (isMatch k none) none h.reads (c := c) (by
      intro e he
      rw [isMatch, decide_eq_false (fun hke => hk e he hke.symm)])
  use reads
  rw [velyFindHash_eq hl none hc, hsearch]
  rfl

/-- A cell in the middle of a chain, and its link. -/
theorem cell_middle (hl : HashChains h m cs) {i : Nat} (hc : cs[i]? = some (xs ++ e :: ys)) :
  m e.1 = some ⟨e.2.1, e.2.2, ys.head?.map Prod.fst⟩
  := by
  obtain ⟨-, hchain⟩ := hl.chain hc
  obtain ⟨a, key, data⟩ := e
  obtain ⟨-, ⟨key', data', n⟩, hv, hi, hafter⟩ := chain_middle.mp hchain
  obtain ⟨rfl, rfl⟩ : key' = key ∧ data' = data := by simpa using hi
  rw [hv, ← hafter.head.trans Option.or_none]

/-- A key that is in its bucket is found. -/
theorem velyFindHash_present (hl : HashChains h m cs)
    (hc : cs[slotOf cs.length k]? = some (xs ++ e :: ys)) (he : HashEntry.text e = k)
    (hxs : ∀ f ∈ xs, HashEntry.text f ≠ k) (del : Bool) :
  ∃ reads, velyFindHash h m k none del
    = handBack { h with hits := h.hits + 1, reads } m (some e.1) (xs.getLast?.map Prod.fst)
        (slotOf cs.length k) del
  := by
  obtain ⟨reads, hsearch⟩ :=
    searchEntries_some (isMatch k none) none h.reads ys
      (by
        intro f hf
        rw [isMatch, decide_eq_false (fun hkf => hxs f hf hkf.symm)])
      (by rw [isMatch, he, decide_eq_true rfl])
  use reads
  rw [velyFindHash_eq hl none hc, hsearch, ok_bind, Option.or_none]
  rfl

/-- Handing an element back without deleting it. -/
theorem handBack_keep (hl : HashChains h m cs) {i : Nat}
    (hc : cs[i]? = some (xs ++ e :: ys)) (prev : Option Addr) :
  handBack h m (some e.1) prev i false = .ok (⟨.okay, some e.2.2, some e.2.1⟩, h, m)
  := by
  rw [handBack, Mem.read_of (cell_middle hl hc)]
  rfl

/-- What a search for `k` answers: the element with this key, or that there is none. -/
def IsAnswer (cs : List (List (HashEntry D))) (k : CString) (answer : HashAnswer D) : Prop :=
  (∀ e ∈ elements cs, HashEntry.text e ≠ k) ∧ answer = ⟨.errExist, none, none⟩
    ∨ ∃ e ∈ elements cs, HashEntry.text e = k ∧ answer = ⟨.okay, some e.2.2, some e.2.1⟩

/-- A search without deletion, which changes only what is counted. -/
theorem velyFindHash_keep (hl : HashChains h m cs) (k : CString) :
  ∃ answer h', velyFindHash h m k none false = .ok (answer, h', m) ∧ IsAnswer cs k answer
    ∧ HashChains h' m cs
  := by
  obtain ⟨c, hc⟩ := hl.exists_bucket k
  rcases bucket_cases c k with hk | ⟨xs, e, ys, rfl, he, hxs⟩
  · obtain ⟨reads, hfind⟩ := velyFindHash_absent hl hc hk false
    refine ⟨_, _, hfind, Or.inl ⟨?_, rfl⟩, hl.congr rfl rfl⟩
    rintro e hmem rfl
    apply hk e _ rfl
    apply (hl.placed.mem_slot hc).mp hmem
  · obtain ⟨reads, hfind⟩ := velyFindHash_present hl hc he hxs false
    have hl₀ : HashChains { h with hits := h.hits + 1, reads } m cs := hl.congr rfl rfl
    rw [handBack_keep hl₀ hc] at hfind
    exact ⟨_, _, hfind, Or.inr ⟨e, mem_elements_of hc (by simp), he, rfl⟩, hl₀⟩

/-- The deleted element is unlinked and freed. -/
theorem unlink_spec (hl : HashLaid base h m cs) {i : Nat} (hc : cs[i]? = some (xs ++ e :: ys)) :
  ∃ h' m' p, unlink h m (xs.getLast?.map Prod.fst) i (ys.head?.map Prod.fst) = .ok (h', m')
    ∧ h' = { h with table := h.table.set i p }
    ∧ EntryChain m' p (xs ++ ys) none ∧ (∀ a, (∀ f ∈ xs, f.1 ≠ a) → m' a = m a)
  := by
  obtain ⟨htable, hchain⟩ := hl.chain hc
  rcases List.eq_nil_or_concat' xs with rfl | ⟨ws, f, rfl⟩
  · -- the first element of the chain: the bucket is set
    refine ⟨_, m, ys.head?.map Prod.fst, ?_, rfl, ?_, fun _ _ => rfl⟩
    · rw [List.getLast?_nil, Option.map_none, unlink, hl.setBucket_eq hc]
      rfl
    · obtain ⟨a, i⟩ := e
      obtain ⟨-, v, -, -, hafter⟩ := chain_middle.mp hchain
      rw [← hafter.head.trans Option.or_none]
      apply hafter
  · -- an element with one before it: this one is relinked
    have hcell := cell_middle hl.toHashChains hc
    rw [List.append_assoc, List.singleton_append] at hc hchain
    have hcell' := cell_middle hl.toHashChains hc
    refine ⟨h, m.set f.1 ⟨f.2.1, f.2.2, ys.head?.map Prod.fst⟩,
      (ws ++ f :: e :: ys).head?.map Prod.fst, ?_, ?_, ?_, ?_⟩
    · rw [List.getLast?_concat, Option.map_some, unlink, Mem.modify_of hcell']
      rfl
    · have hset : h.table.set i ((ws ++ f :: e :: ys).head?.map Prod.fst) = h.table := by
        obtain ⟨hi, hval⟩ := List.getElem?_eq_some_iff.mp (hl.chain hc).1
        rw [← hval, List.set_getElem_self]
      rw [hset]
    · rw [List.append_assoc, List.singleton_append]
      apply Chain.unlink (w := ⟨f.2.1, f.2.2, ys.head?.map Prod.fst⟩) hchain hcell' hcell rfl rfl
      · intro x hx
        apply hl.addr_ne hc (Or.inl hx)
      · intro y hy
        apply hl.addr_ne hc (Or.inr (List.mem_cons_of_mem _ hy))
    · intro a ha
      apply Mem.set_of_ne
      rintro rfl
      apply ha f (by simp) rfl

/-- Deleting an element takes it out of its chain; a traversal about to return it goes on to the
next one. -/
theorem velyDelHashEntry_spec (hl : HashLaid base h m cs) {i : Nat}
    (hc : cs[i]? = some (xs ++ e :: ys)) :
  ∃ h' m', velyDelHashEntry h m e.1 (xs.getLast?.map Prod.fst) (some i) = .ok (h', m')
    ∧ HashLaid base h' m' (cs.set i (xs ++ ys))
    ∧ h'.dnext = h.dnext
    ∧ h'.dcurr = if h.dcurr = some e.1 then ys.head?.map Prod.fst else h.dcurr
  := by
  have hcell := cell_middle hl.toHashChains hc
  obtain ⟨h', m', p, hunlink, rfl, hchain, hsame⟩ := unlink_spec hl hc
  have hlive : m' e.1 = some ⟨e.2.1, e.2.2, ys.head?.map Prod.fst⟩ := by
    rw [hsame e.1 (fun f hf => hl.addr_ne hc (Or.inl hf)), hcell]
  have hne : ∀ f ∈ xs ++ ys, f.1 ≠ e.1 := by
    intro f hf
    apply hl.addr_ne hc (List.mem_append.mp hf)
  rw [velyDelHashEntry, Mem.read_of hcell, ok_bind, Option.getD_some]
  simp only [hunlink, ok_bind, Mem.free_of hlive]
  refine ⟨_, _, rfl, ?_, rfl, rfl⟩
  apply hl.put hc (p := p)
  case hsize => rfl
  case htable => rfl
  case hchain =>
    apply hchain.frame
    intro f hf
    apply Mem.erase_of_ne _ (hne f hf)
  case hother =>
    intro a hold hnew
    rw [Mem.erase_of_ne, hsame a (fun f hf => hold f (by simp [hf]))]
    rintro rfl
    apply hold e (by simp) rfl
  case hnew =>
    intro f hf
    refine Or.inl ⟨f, ?_, rfl⟩
    simp only [List.mem_append, List.mem_cons] at hf ⊢
    tauto
  case hgone =>
    intro f hf hkept
    have hfe : f = e := by
      by_contra hfe
      apply hkept f _ rfl
      simp only [List.mem_append, List.mem_cons] at hf ⊢
      tauto
    rw [hfe, Mem.erase_self]
  case hslots =>
    intro f hf
    apply hl.placed.slots i _ hc
    simp only [List.mem_append, List.mem_cons] at hf ⊢
    tauto
  case hdistinct =>
    apply List.Nodup.sublist _ (hl.placed.distinct i _ hc)
    apply List.Sublist.map
    apply List.Sublist.append_left
    apply List.sublist_cons_self
  case htot =>
    simp only [List.length_append, List.length_cons]
    omega

/-! ### Adding and replacing -/

/-- A key that is not in its bucket is put in front of the chain. -/
theorem velyAddHash_absent (al : Allocator (HashTable D)) (hl : HashLaid base h m cs)
    {key : StringPtr} (hc : cs[slotOf cs.length key.text]? = some c)
    (hk : ∀ e ∈ c, HashEntry.text e ≠ key.text) (data : D) :
  Ends (velyAddHash al h m key none data) (fun r => r.1 = ⟨.okay, none, none⟩
    ∧ r.2.1.dnext = h.dnext ∧ r.2.1.dcurr = h.dcurr
    ∧ ∃ a, HashLaid base r.2.1 r.2.2
        (cs.set (slotOf cs.length key.text) ((a, key, data) :: c)))
  := by
  have hslot : velyComputeHash key.text none h.numBuckets = slotOf cs.length key.text := by
    rw [hl.size, slotOf]
  have hadd : velyAddHash al h m key none data =
      (al.alloc m ⟨key, data, c.head?.map Prod.fst⟩ >>= fun r =>
        h.setBucket (slotOf cs.length key.text) (some r.1) >>= fun h =>
          .ok (⟨.okay, none, none⟩, { h with tot := h.tot + 1 }, r.2)) := by
    rw [velyAddHash, hslot, hl.bucket_eq hc, ok_bind]
    cases c with
    | nil => rfl
    | cons e c =>
      obtain ⟨-, hchain⟩ := hl.chain hc
      obtain ⟨last, reads, hsearch⟩ :=
        searchEntries_none (fun stored => .ok (key.text = stored)) none 0 (c := e :: c) (by
            intro f hf
            rw [decide_eq_false (fun hkf => hk f hf hkf.symm)])
      have hsearch' := (searchChain_eq (fun stored => .ok (key.text = stored)) none 0 hchain
        (hl.length_lt_bound hc)).trans hsearch
      simp only [List.head?_cons, Option.map_some] at hsearch' ⊢
      rw [hsearch']
      rfl
  rw [hadd, Allocator.alloc]
  cases hal : al.choose m with
  | none => rfl
  | some a =>
    have hfresh := al.fresh hal
    simp only [ok_bind, hl.setBucket_eq hc]
    refine ⟨rfl, rfl, rfl, a, ?_⟩
    apply hl.put hc (p := some a)
    case hsize => rfl
    case htable => rfl
    case hchain => apply (hl.chain hc).2.push hfresh rfl
    case hother =>
      intro b hold hnew
      apply Mem.set_of_ne
      rintro rfl
      apply hnew (b, key, data) (by simp) rfl
    case hnew =>
      intro e he
      rcases List.mem_cons.mp he with rfl | he
      · exact Or.inr hfresh
      · exact Or.inl ⟨e, he, rfl⟩
    case hgone =>
      intro e he hkept
      exact absurd rfl (hkept e (by simp [he]))
    case hslots =>
      intro e he
      rcases List.mem_cons.mp he with rfl | he
      · rfl
      · apply hl.placed.slots _ c hc e he
    case hdistinct =>
      rw [List.map_cons, List.nodup_cons]
      refine ⟨?_, hl.placed.distinct _ c hc⟩
      intro hmem
      obtain ⟨e, he, hek⟩ := List.mem_map.mp hmem
      apply hk e he hek
    case htot =>
      simp only [List.length_cons]
      omega

/-- A key that is in its bucket: its element gets the new key pointer and the new data. -/
theorem velyAddHash_present (al : Allocator (HashTable D)) (hl : HashLaid base h m cs)
    {key : StringPtr} (hc : cs[slotOf cs.length key.text]? = some (xs ++ e :: ys))
    (he : HashEntry.text e = key.text) (hxs : ∀ f ∈ xs, HashEntry.text f ≠ key.text)
    (data : D) :
  ∃ m', velyAddHash al h m key none data
      = .ok (⟨.errExist, some e.2.2, some e.2.1⟩, h, m')
    ∧ HashLaid base h m'
        (cs.set (slotOf cs.length key.text) (xs ++ (e.1, key, data) :: ys))
  := by
  have hslot : velyComputeHash key.text none h.numBuckets = slotOf cs.length key.text := by
    rw [hl.size, slotOf]
  have hcell := cell_middle hl.toHashChains hc
  obtain ⟨htable, hchain⟩ := hl.chain hc
  obtain ⟨reads, hsearch⟩ :=
    searchEntries_some (fun stored => .ok (key.text = stored)) none 0 ys
      (by
        intro f hf
        rw [decide_eq_false (fun hkf => hxs f hf hkf.symm)])
      (by rw [he, decide_eq_true rfl])
  have hsearch' := (searchChain_eq (fun stored => .ok (key.text = stored)) none 0 hchain
    (hl.length_lt_bound hc)).trans hsearch
  obtain ⟨el, hel⟩ : ∃ el, (xs ++ e :: ys).head?.map Prod.fst = some el := by
    cases xs <;> simp
  rw [velyAddHash, hslot, hl.bucket_eq hc, ok_bind]
  rw [hel] at hsearch' ⊢
  simp only [hsearch', ok_bind, Mem.read_of hcell, Mem.modify_of hcell]
  refine ⟨_, rfl, ?_⟩
  have hne : ∀ f, f ∈ xs ∨ f ∈ ys → f.1 ≠ e.1 := fun f hf => hl.addr_ne hc hf
  apply hl.put hc (p := some el)
  case hchain =>
    rw [← hel]
    apply Chain.change (w := ⟨key, data, ys.head?.map Prod.fst⟩) hchain hcell rfl
    · intro x hx
      apply hne x (Or.inl hx)
    · intro y hy
      apply hne y (Or.inr hy)
  case hother =>
    intro a hold hnew
    apply Mem.set_of_ne
    rintro rfl
    apply hold e (by simp) rfl
  case hnew =>
    intro f hf
    left
    simp only [List.mem_append, List.mem_cons] at hf
    rcases hf with hf | rfl | hf
    · exact ⟨f, by simp [hf], rfl⟩
    · exact ⟨e, by simp, rfl⟩
    · exact ⟨f, by simp [hf], rfl⟩
  case hgone =>
    intro f hf hkept
    simp only [List.mem_append, List.mem_cons] at hf
    rcases hf with hf | rfl | hf
    · exact absurd rfl (hkept f (by simp [hf]))
    · exact absurd rfl (hkept (f.1, key, data) (by simp))
    · exact absurd rfl (hkept f (by simp [hf]))
  case hslots =>
    intro f hf
    simp only [List.mem_append, List.mem_cons] at hf
    rcases hf with hf | rfl | hf
    · apply hl.placed.slots _ _ hc f (by simp [hf])
    · rfl
    · apply hl.placed.slots _ _ hc f (by simp [hf])
  case hdistinct =>
    have hdistinct := hl.placed.distinct _ _ hc
    rw [List.map_append, List.map_cons] at hdistinct ⊢
    rw [he] at hdistinct
    apply hdistinct
  case hsize => rfl
  case htable =>
    obtain ⟨hi, hval⟩ := List.getElem?_eq_some_iff.mp htable
    rw [← hel, ← hval, List.set_getElem_self]
  case htot => simp

end Calls

end Vely
