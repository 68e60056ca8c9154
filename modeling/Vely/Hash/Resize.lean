import Vely.Hash.Traverse

/-!
# Purging and resizing a hash

Freeing the elements of a hash leaves the memory without their addresses, and this is the memory as
it was before the hash.  A resizing builds the new hash while the old one is still there, so the two
lie in memory side by side until the elements of the old one are freed.
-/

namespace Vely

variable {D : Type}

/-- The addresses of the elements. -/
def addresses (cs : List (List (HashEntry D))) : List Addr := (elements cs).map Prod.fst

theorem mem_addresses {cs : List (List (HashEntry D))} {a : Addr} :
  a ∈ addresses cs ↔ ∃ e ∈ elements cs, e.1 = a
  := List.mem_map

section Purge

variable {base m : Mem (HashTable D)} {h : Hash} {cs : List (List (HashEntry D))}
  {c : List (HashEntry D)} {p : Option Addr}

/-- Freeing a chain. -/
theorem freeChain_eq {bound : Nat} (hc : EntryChain m p c none) (hd : (c.map Prod.fst).Nodup)
    (hb : c.length ≤ bound) :
  freeChain bound m p = .ok (m.without (c.map Prod.fst))
  := by
  induction c generalizing m p bound with
  | nil =>
    obtain rfl : p = none := hc
    rw [freeChain, List.map_nil, Mem.without_nil]
  | cons e c ih =>
    obtain ⟨a, item⟩ := e
    obtain ⟨rfl, v, hv, -, hrest⟩ := hc
    obtain ⟨n, rfl⟩ : ∃ n, bound = n + 1 := ⟨bound - 1, by simp at hb; omega⟩
    rw [List.map_cons, List.nodup_cons] at hd
    rw [freeChain, Mem.read_of hv, ok_bind, Mem.free_of hv, ok_bind, List.map_cons,
      Mem.without_cons]
    apply ih _ hd.2 (by simpa using hb)
    apply hrest.frame
    intro x hx
    apply Mem.erase_of_ne
    rintro rfl
    apply hd.1 (List.mem_map.mpr ⟨x, hx, rfl⟩)

/-- The elements of a chain are at distinct addresses. -/
theorem nodup_addr_chain (hl : HashLaid base h m cs) {i : Nat} (hc : cs[i]? = some c) :
  (c.map Prod.fst).Nodup
  := by
  apply List.Nodup.sublist _ hl.nodup_addr
  apply List.Sublist.map
  apply List.sublist_flatten_of_mem (List.mem_of_getElem? hc)

/-- Freeing the elements of the first `n` buckets. -/
theorem freeBuckets_eq (hl : HashLaid base h m cs) {n : Nat} (hn : n ≤ cs.length) :
  freeBuckets h m n = .ok (m.without (addresses (cs.take n)))
  := by
  induction n with
  | zero => rw [freeBuckets, List.take_zero, addresses, elements, List.flatten_nil, List.map_nil,
      Mem.without_nil]
  | succ n ih =>
    have hc : cs[n]? = some cs[n] := List.getElem?_eq_getElem hn
    rw [freeBuckets, ih (by omega), ok_bind, hl.bucket_eq hc, ok_bind]
    have hchain : EntryChain (m.without (addresses (cs.take n))) (cs[n].head?.map Prod.fst)
        cs[n] none := by
      apply (hl.chain hc).2.frame
      intro e he
      apply Mem.without_of_not_mem
      intro hmem
      -- the elements freed so far are those of other buckets
      obtain ⟨f, hf, hfe⟩ := mem_addresses.mp hmem
      obtain ⟨i, b, hb, hfb⟩ := mem_elements.mp hf
      rw [List.getElem?_take] at hb
      split at hb
      · apply hl.addr_ne_of_ne hc he hb hfb (by omega) hfe
      · cases hb
    rw [freeChain_eq hchain (nodup_addr_chain hl hc) (hl.length_lt_bound hc).le,
      ← Mem.without_append]
    have htake : addresses (cs.take (n + 1)) = addresses (cs.take n) ++ cs[n].map Prod.fst := by
      simp only [addresses, elements, List.take_add_one, hc, Option.toList_some,
        List.flatten_append, List.flatten_singleton, List.map_append]
    rw [htake]

/-- Without its elements the memory is what it was before the hash. -/
theorem HashLaid.without_eq (hl : HashLaid base h m cs) :
  m.without (addresses cs) = base
  := by
  funext a
  by_cases ha : a ∈ addresses cs
  · rw [Mem.without_of_mem m ha]
    obtain ⟨e, he, rfl⟩ := mem_addresses.mp ha
    rw [hl.fresh e he]
  · rw [Mem.without_of_not_mem m ha]
    apply hl.frame
    intro e he hea
    apply ha (mem_addresses.mpr ⟨e, he, hea⟩)

/-- A purged hash is empty, and has given all its memory back. -/
theorem velyDeleteHash_spec (hl : HashLaid base h m cs) (recreate : Bool) :
  ∃ new, velyDeleteHash h m recreate = .ok (if recreate then some new else none, base)
    ∧ HashLaid base new base (List.replicate (bucketsFor cs.length) [])
  := by
  have hfree := freeBuckets_eq hl le_rfl
  rw [List.take_length, hl.without_eq] at hfree
  have hpos : 0 < bucketsFor cs.length := by
    rw [bucketsFor]
    omega
  rw [velyDeleteHash, hl.size, hfree, ok_bind, velyCreateHash_eq]
  refine ⟨⟨bucketsFor cs.length, List.replicate (bucketsFor cs.length) none, 0, none, 0, h.hits,
    h.reads, h.process⟩, ?_, hashLaid_replicate base hpos rfl rfl rfl⟩
  cases recreate <;> rfl

/-- A hash lies as well in a memory that has the same cells at its addresses. -/
theorem HashLaid.transport (m' : Mem (HashTable D)) (hl : HashLaid base h m cs)
    (hm : ∀ e ∈ elements cs, m' e.1 = m e.1) :
  HashLaid (m'.without (addresses cs)) h m' cs
  where
  size := hl.size
  pos := hl.pos
  len := hl.len
  chains := by
    intro i c hc
    obtain ⟨p, hp, hchain⟩ := hl.chains i c hc
    refine ⟨p, hp, ?_⟩
    apply hchain.frame
    intro e he
    apply hm e (mem_elements_of hc he)
  placed := hl.placed
  total := hl.total
  frame := by
    intro a ha
    rw [Mem.without_of_not_mem]
    intro hmem
    obtain ⟨e, he, hea⟩ := mem_addresses.mp hmem
    apply ha e he hea
  fresh := by
    intro e he
    apply Mem.without_of_mem
    apply mem_addresses.mpr ⟨e, he, rfl⟩

end Purge

/-! ### Resizing -/

section Resize

variable {base m m₀ : Mem (HashTable D)} {h nh : Hash} {cs ds : List (List (HashEntry D))}
  {rest : List (HashEntry D)}

/-- A hash built beside another does not touch the elements of the other. -/
theorem HashLaid.beside (hn : HashLaid m₀ nh m ds) {a : Addr} (ha : m₀ a ≠ none) :
  m a = m₀ a
  := by
  apply hn.frame
  rintro e he rfl
  apply ha (hn.fresh e he)

/-- The loop of a resizing moves the elements ahead to the new hash. -/
theorem moveElements_spec (al : Allocator (HashTable D)) {bound : Nat}
    (hl : HashLaid base h m cs) (hlive : ∀ e ∈ elements cs, m₀ e.1 ≠ none)
    (hn : HashLaid m₀ nh m ds) (hat : Ahead h cs rest) (hb : rest.length < bound)
    (hnodup : (rest.map HashEntry.text).Nodup)
    (hapart : ∀ e ∈ rest, ∀ f ∈ elements ds, HashEntry.text f ≠ HashEntry.text e) :
  Ends (moveElements al bound h nh m) (fun r => ∃ ds',
    HashLaid (r.2.2.without (addresses cs)) r.1 r.2.2 cs
    ∧ HashLaid m₀ r.2.1 r.2.2 ds' ∧ ds'.length = ds.length
    ∧ ∀ item, (∃ f ∈ elements ds', HashEntry.item f = item)
      ↔ (∃ f ∈ elements ds, HashEntry.item f = item) ∨ ∃ e ∈ rest, HashEntry.item e = item)
  := by
  induction bound generalizing base h nh m ds rest with
  | zero => omega
  | succ bound ih =>
    obtain ⟨h', hnext, hl', hat'⟩ := velyNextHash_spec hl hat
    rw [moveElements, hnext, ok_bind]
    cases rest with
    | nil => exact ⟨ds, hl'.transport m (fun _ _ => rfl), hn, rfl, by simp⟩
    | cons e rest =>
      obtain ⟨a, key, data⟩ := e
      rw [List.map_cons, List.nodup_cons] at hnodup
      obtain ⟨c, hc⟩ := hn.exists_bucket key.text
      have hk : ∀ f ∈ c, HashEntry.text f ≠ key.text := by
        intro f hf
        apply hapart (a, key, data) (by simp) f (mem_elements_of hc hf)
      apply (velyAddHash_absent al hn hc hk data).bind
      rintro ⟨answer, nh', m'⟩ ⟨-, -, -, b, hn'⟩
      simp only at hn'
      have hmem : ∀ f, f ∈ elements (ds.set (slotOf ds.length key.text) ((b, key, data) :: c))
          ↔ f = (b, key, data) ∨ f ∈ elements ds := by
        intro f
        rw [(elements_set_cons hc).mem_iff, List.mem_cons]
      have hsame : ∀ e ∈ elements cs, m' e.1 = m e.1 := by
        intro e he
        rw [hn'.beside (hlive e he), hn.beside (hlive e he)]
      apply (ih (hl'.transport m' hsame) hn' hat' (by simpa using hb) hnodup.2 _).mono
      · rintro ⟨h'', nh'', m''⟩ ⟨ds', hl'', hn'', hlen, hitems⟩
        refine ⟨ds', hl'', hn'', by rw [hlen, List.length_set], ?_⟩
        intro item
        rw [hitems item]
        simp only [hmem, List.mem_cons]
        grind [HashEntry.item]
      · intro e he f hf
        rcases (hmem f).mp hf with rfl | hf
        · intro hke
          apply hnodup.1 (List.mem_map.mpr ⟨e, he, hke.symm⟩)
        · apply hapart e (List.mem_cons_of_mem _ he) f hf

/-- A resized hash has the same elements in new buckets. -/
theorem velyResizeHash_spec (al : Allocator (HashTable D)) (hl : HashLaid base h m cs)
    (newsize : Int) :
  Ends (velyResizeHash al h m newsize) (fun r => ∃ ds, HashLaid base r.1 r.2 ds
    ∧ ds.length = bucketsFor newsize
    ∧ ∀ item, (∃ f ∈ elements ds, HashEntry.item f = item)
      ↔ ∃ e ∈ elements cs, HashEntry.item e = item)
  := by
  have hpos : 0 < bucketsFor newsize := by
    rw [bucketsFor]
    omega
  obtain ⟨h', hrewind, hl', hat⟩ := velyRewindHash_spec hl
  have hlive : ∀ e ∈ elements cs, m e.1 ≠ none := by
    intro e he
    obtain ⟨n, hn⟩ := hl.cell he
    rw [hn]
    simp
  rw [velyResizeHash, velyCreateHash_eq, ok_bind, hrewind, ok_bind]
  apply (moveElements_spec al hl' hlive
    (hashLaid_replicate m hpos (h := ⟨bucketsFor newsize, List.replicate (bucketsFor newsize) none,
      0, none, 0, 0, 0, h.process⟩) rfl rfl rfl) hat hl.length_elements_lt hl.placed.nodup
    (by simp [elements])).bind
  rintro ⟨h'', nh, m'⟩ ⟨ds, hold, hn, hlen, hitems⟩
  obtain ⟨new, hdelete, -⟩ := velyDeleteHash_spec hold true
  simp only [hdelete, ok_bind, if_pos, deref_some]
  refine ⟨ds, ?_, by rw [hlen, List.length_replicate], ?_⟩
  · -- the new hash does not use the addresses of the old one
    have hapart : ∀ f ∈ elements ds, f.1 ∉ addresses cs := by
      intro f hf hmem
      obtain ⟨e, he, hef⟩ := mem_addresses.mp hmem
      apply hlive e he
      rw [hef, hn.fresh f hf]
    have hbase : ∀ a, m a = none → base a = none := by
      intro a ha
      rw [← hl.without_eq, Mem.without, ha, ite_self]
    have hn' := hn.transport (m'.without (addresses cs))
      (fun f hf => Mem.without_of_not_mem m' (hapart f hf))
    have hrest : (m'.without (addresses cs)).without (addresses ds) = base := by
      rw [← hl.without_eq, ← hn.without_eq]
      funext a
      simp only [Mem.without]
      grind
    rw [hrest] at hn'
    exact hn'.congr rfl rfl rfl
  · intro item
    rw [hitems item]
    simp [elements]

end Resize

end Vely
