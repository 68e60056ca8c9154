import Vely.Hash.Model
import Vely.Lib.Buckets
import Vely.Lib.Chain
import Vely.Lib.Run

/-!
# How a hash lies in memory

`HashChains h m cs` says that the memory `m` holds the chains of the hash `h`: the chain of each
bucket is the list of elements that `cs` has for it, every element is in the bucket of its key, and
no key occurs twice.  `HashLaid base h m cs` says besides that the total is right, and that apart
from the elements the memory is `base`.  A change of one chain that agrees with this keeps the
layout.
-/

namespace Vely

variable {D : Type}

/-- An element of a hash: its address, its key and its data. -/
abbrev HashEntry (D : Type) := Addr × StringPtr × D

/-- The key of an element. -/
def HashEntry.text (e : HashEntry D) : CString := e.2.1.text

/-- The key and the data of an element. -/
def HashEntry.item (e : HashEntry D) : StringPtr × D := e.2

/-- The elements `c` are chained in memory. -/
abbrev EntryChain (m : Mem (HashTable D)) : Option Addr → List (HashEntry D) → Option Addr → Prop :=
  Chain (fun e : HashTable D => (e.key, e.data)) HashTable.next m

/-- The bucket of a key. -/
def slotOf (n : Nat) (k : CString) : Nat := velyComputeHash k none n

theorem slotOf_lt {n : Nat} (hn : 0 < n) (k : CString) :
  slotOf n k < n
  := Nat.mod_lt _ hn

/-- The memory holds the chains of the hash `h`, with the elements `cs`, by buckets. -/
structure HashChains (h : Hash) (m : Mem (HashTable D)) (cs : List (List (HashEntry D))) :
    Prop where
  size : h.numBuckets = cs.length
  pos : 0 < cs.length
  chains : ∀ (i : Nat) (c : List (HashEntry D)), cs[i]? = some c →
    ∃ p, h.table[i]? = some p ∧ EntryChain m p c none
  placed : Placed HashEntry.text (slotOf cs.length) cs

/-- The memory holds the hash `h` with the elements `cs`, by buckets, and is `base` elsewhere. -/
structure HashLaid (base : Mem (HashTable D)) (h : Hash) (m : Mem (HashTable D))
    (cs : List (List (HashEntry D))) : Prop extends HashChains h m cs where
  len : h.table.length = cs.length
  total : h.tot = (elements cs).length
  frame : ∀ a, (∀ e ∈ elements cs, e.1 ≠ a) → m a = base a
  fresh : ∀ e ∈ elements cs, base e.1 = none

section Laid

variable {base m m' : Mem (HashTable D)} {h h' : Hash} {cs : List (List (HashEntry D))}
  {c d xs ys : List (HashEntry D)} {e f : HashEntry D} {p : Option Addr} {i : Nat}

namespace HashChains

/-- The chains are found from the number of buckets and the table. -/
theorem congr (hl : HashChains h m cs) (hsize : h'.numBuckets = h.numBuckets)
    (htable : h'.table = h.table) :
  HashChains h' m cs
  where
  size := by rw [hsize, hl.size]
  pos := hl.pos
  chains := by rw [htable]; apply hl.chains
  placed := hl.placed

/-- The chain of each bucket, from its first element on. -/
theorem chain (hl : HashChains h m cs) (hc : cs[i]? = some c) :
  h.table[i]? = some (c.head?.map Prod.fst) ∧ EntryChain m (c.head?.map Prod.fst) c none
  := by
  obtain ⟨p, hp, hchain⟩ := hl.chains i c hc
  obtain rfl : p = c.head?.map Prod.fst := by rw [hchain.head, Option.or_none]
  exact ⟨hp, hchain⟩

/-- Every element is live. -/
theorem cell (hl : HashChains h m cs) (he : e ∈ elements cs) :
  ∃ n, m e.1 = some ⟨e.2.1, e.2.2, n⟩
  := by
  obtain ⟨i, c, hc, hec⟩ := mem_elements.mp he
  obtain ⟨p, -, hchain⟩ := hl.chains i c hc
  obtain ⟨⟨key, data, n⟩, hv, hi⟩ := hchain.cell hec
  use n
  rw [hv, ← hi]

/-- An element is determined by its address. -/
theorem eq_of_addr (hl : HashChains h m cs) (he : e ∈ elements cs) (hf : f ∈ elements cs)
    (ha : e.1 = f.1) :
  e = f
  := by
  obtain ⟨n, hn⟩ := hl.cell he
  obtain ⟨n', hn'⟩ := hl.cell hf
  rw [← ha, hn] at hn'
  obtain ⟨hkey, hdata, -⟩ : e.2.1 = f.2.1 ∧ e.2.2 = f.2.2 ∧ n = n' := by simpa using hn'
  apply Prod.ext ha (Prod.ext hkey hdata)

/-- The bucket of a key. -/
theorem exists_bucket (hl : HashChains h m cs) (k : CString) :
  ∃ c, cs[slotOf cs.length k]? = some c
  := ⟨_, List.getElem?_eq_getElem (slotOf_lt hl.pos k)⟩

/-- Reading the first element of a chain. -/
theorem bucket_eq (hl : HashChains h m cs) (hc : cs[i]? = some c) :
  h.bucket i = .ok (c.head?.map Prod.fst)
  := by
  rw [Hash.bucket, (hl.chain hc).1, deref_some]

/-- The elements are at distinct addresses. -/
theorem nodup_addr (hl : HashChains h m cs) :
  ((elements cs).map Prod.fst).Nodup
  := by
  apply List.Nodup.map_on
  · intro e he f hf ha
    apply hl.eq_of_addr he hf ha
  · apply List.Nodup.of_map HashEntry.text hl.placed.nodup

/-- There are fewer elements than the bound on loops. -/
theorem length_elements_lt (hl : HashChains h m cs) :
  (elements cs).length < loopBound
  := by
  have hle := length_le_addrSpace hl.nodup_addr
  rw [List.length_map] at hle
  rw [loopBound]
  omega

/-- A chain is shorter than the bound on loops. -/
theorem length_lt_bound (hl : HashChains h m cs) (hc : cs[i]? = some c) :
  c.length < loopBound
  := by
  have hset := length_elements_set [] hc
  have hlt := hl.length_elements_lt
  simp only [List.length_nil] at hset
  omega

/-- The other elements of the chain of an element are at other addresses. -/
theorem addr_ne (hl : HashChains h m cs) (hc : cs[i]? = some (xs ++ e :: ys))
    (hf : f ∈ xs ∨ f ∈ ys) :
  f.1 ≠ e.1
  := by
  intro ha
  have hfe : f = e := by
    apply hl.eq_of_addr (mem_elements_of hc _) (mem_elements_of hc (by simp)) ha
    simp only [List.mem_append, List.mem_cons]
    tauto
  have hdistinct := hl.placed.distinct _ _ hc
  subst hfe
  simp only [List.map_append, List.map_cons] at hdistinct
  grind

/-- The elements of another chain are at other addresses. -/
theorem addr_ne_of_ne {j : Nat} (hl : HashChains h m cs) (hc : cs[i]? = some c) (he : e ∈ c)
    (hd : cs[j]? = some d) (hf : f ∈ d) (hij : i ≠ j) :
  f.1 ≠ e.1
  := by
  intro ha
  obtain rfl := hl.eq_of_addr (mem_elements_of hd hf) (mem_elements_of hc he) ha
  apply hij
  rw [← hl.placed.slots j d hd f hf, hl.placed.slots i c hc f he]

end HashChains

namespace HashLaid

/-- The layout reads the number of buckets, the table and the total of the header. -/
theorem congr (hl : HashLaid base h m cs) (hsize : h'.numBuckets = h.numBuckets)
    (htable : h'.table = h.table) (htot : h'.tot = h.tot) :
  HashLaid base h' m cs
  where
  toHashChains := hl.toHashChains.congr hsize htable
  len := by rw [htable, hl.len]
  total := by rw [htot, hl.total]
  frame := hl.frame
  fresh := hl.fresh

/-- The layout does not read the position of the traversal. -/
theorem position (hl : HashLaid base h m cs) (dnext : Nat) (dcurr : Option Addr) :
  HashLaid base { h with dnext, dcurr } m cs
  := hl.congr rfl rfl rfl

/-- Setting the first element of a chain. -/
theorem setBucket_eq (hl : HashLaid base h m cs) (hc : cs[i]? = some c) (p : Option Addr) :
  h.setBucket i p = .ok { h with table := h.table.set i p }
  := by
  rw [Hash.setBucket, if_pos]
  rw [hl.len]
  apply (List.getElem?_eq_some_iff.mp hc).1

/-- One chain is changed: it is `d` afterwards, at addresses that were its own or not live, and what
it gave up is not live any more. -/
theorem put (hl : HashLaid base h m cs) (hc : cs[i]? = some c)
    (hchain : EntryChain m' p d none)
    (hother : ∀ a, (∀ e ∈ c, e.1 ≠ a) → (∀ e ∈ d, e.1 ≠ a) → m' a = m a)
    (hnew : ∀ e ∈ d, (∃ f ∈ c, f.1 = e.1) ∨ m e.1 = none)
    (hgone : ∀ e ∈ c, (∀ f ∈ d, f.1 ≠ e.1) → m' e.1 = none)
    (hslots : ∀ e ∈ d, slotOf cs.length (HashEntry.text e) = i)
    (hdistinct : (d.map HashEntry.text).Nodup)
    (hsize : h'.numBuckets = h.numBuckets) (htable : h'.table = h.table.set i p)
    (htot : h'.tot + c.length = h.tot + d.length) :
  HashLaid base h' m' (cs.set i d)
  := by
  have hi : i < cs.length := (List.getElem?_eq_some_iff.mp hc).1
  -- an element of another chain is neither in the old chain nor in the new one
  have hapart : ∀ e ∈ elements cs, slotOf cs.length (HashEntry.text e) ≠ i →
      (∀ f ∈ c, f.1 ≠ e.1) ∧ ∀ f ∈ d, f.1 ≠ e.1 := by
    intro e he hei
    have hec : ∀ f ∈ c, f.1 ≠ e.1 := by
      intro f hf ha
      rw [hl.eq_of_addr (mem_elements_of hc hf) he ha] at hf
      apply hei (hl.placed.slots i c hc e hf)
    use hec
    intro f hf ha
    rcases hnew f hf with ⟨g, hg, hga⟩ | hnone
    · apply hec g hg (hga.trans ha)
    · obtain ⟨n, hn⟩ := hl.cell he
      rw [ha, hn] at hnone
      cases hnone
  have hmem : ∀ e, e ∈ elements (cs.set i d)
      ↔ if slotOf cs.length (HashEntry.text e) = i then e ∈ d else e ∈ elements cs :=
    fun e => hl.placed.mem_set hc hslots
  refine
    { size := ?size, pos := ?pos, chains := ?chains, placed := ?placed, len := ?len, total := ?total
      frame := ?frame, fresh := ?fresh }
  case size => rw [hsize, hl.size, List.length_set]
  case pos => rw [List.length_set]; apply hl.pos
  case len => rw [htable, List.length_set, List.length_set, hl.len]
  case chains =>
    intro j b hb
    rw [htable]
    rcases eq_or_ne i j with rfl | hij
    · rw [List.getElem?_set_self hi] at hb
      obtain rfl := Option.some.inj hb
      exact ⟨p, List.getElem?_set_self (by rw [hl.len]; apply hi), hchain⟩
    · rw [List.getElem?_set_ne hij] at hb ⊢
      obtain ⟨q, hq, hb'⟩ := hl.chains j b hb
      refine ⟨q, hq, ?_⟩
      apply hb'.frame
      intro e he
      have hne : slotOf cs.length (HashEntry.text e) ≠ i := by
        rw [hl.placed.slots j b hb e he]
        apply hij.symm
      obtain ⟨hec, hed⟩ := hapart e (mem_elements_of hb he) hne
      apply hother _ hec hed
  case placed =>
    rw [List.length_set]
    apply hl.placed.set hslots hdistinct
  case total =>
    have hlen := length_elements_set d hc
    rw [hl.total] at htot
    omega
  case frame =>
    intro a ha
    by_cases hold : ∃ e ∈ c, e.1 = a
    · obtain ⟨e, he, rfl⟩ := hold
      have hed : ∀ f ∈ d, f.1 ≠ e.1 := by
        intro f hf
        apply ha f
        rw [hmem, if_pos (hslots f hf)]
        apply hf
      rw [hgone e he hed, hl.fresh e (mem_elements_of hc he)]
    · have hold' : ∀ e ∈ c, e.1 ≠ a := fun e he hea => hold ⟨e, he, hea⟩
      have hnew' : ∀ f ∈ d, f.1 ≠ a := by
        intro f hf
        apply ha f
        rw [hmem, if_pos (hslots f hf)]
        apply hf
      rw [hother a hold' hnew']
      apply hl.frame
      intro e he hea
      by_cases hei : slotOf cs.length (HashEntry.text e) = i
      · apply hold' e _ hea
        apply (hl.placed.mem_slot (e := e) (by rw [hei, hc])).mp he
      · apply ha e _ hea
        rw [hmem, if_neg hei]
        apply he
  case fresh =>
    intro e he
    rw [hmem] at he
    split at he
    · rcases hnew e he with ⟨f, hf, hfe⟩ | hnone
      · rw [← hfe]
        apply hl.fresh f (mem_elements_of hc hf)
      · by_cases hold : ∃ f ∈ elements cs, f.1 = e.1
        · obtain ⟨f, hf, hfe⟩ := hold
          rw [← hfe]
          apply hl.fresh f hf
        · rw [← hl.frame e.1 (fun f hf hfe => hold ⟨f, hf, hfe⟩), hnone]
    · apply hl.fresh e he

end HashLaid

end Laid

/-! ### A new hash -/

/-- The number of buckets of a new hash. -/
def bucketsFor (size : Int) : Nat := max size.toNat 10

/-- A new hash: empty, and rewound. -/
theorem velyCreateHash_eq (size : Int) (process : Bool) :
  velyCreateHash size none process = .ok
    ⟨bucketsFor size, List.replicate (bucketsFor size) none, 0, none, 0, 0, 0, process⟩
  := by
  have hsize : (if size < 10 then 10 else size).toNat = bucketsFor size := by
    rw [bucketsFor]
    split <;> omega
  have hpos : 0 < bucketsFor size := by
    rw [bucketsFor]
    omega
  rw [velyCreateHash, hsize, velyRewindHash, Hash.bucket, Option.getD_none]
  simp [hpos]

/-- A new hash on an array that is given: it is rewound to the first of its chains. -/
theorem velyCreateHash_table (size : Int) (p : Option Addr) (table : List (Option Addr))
    (process : Bool) :
  velyCreateHash size (some (p :: table)) process = .ok
    ⟨bucketsFor size, p :: table, 0, p, 0, 0, 0, process⟩
  := by
  have hsize : (if size < 10 then 10 else size).toNat = bucketsFor size := by
    rw [bucketsFor]
    split <;> omega
  rw [velyCreateHash, hsize, velyRewindHash, Hash.bucket, Option.getD_some]
  rfl

/-- The header and the table of an empty hash. -/
theorem hashLaid_replicate {h : Hash} {n : Nat} (m : Mem (HashTable D)) (hn : 0 < n)
    (hsize : h.numBuckets = n) (htable : h.table = List.replicate n none) (htot : h.tot = 0) :
  HashLaid m h m (List.replicate n [])
  where
  size := by rw [hsize, List.length_replicate]
  pos := by rw [List.length_replicate]; apply hn
  len := by rw [htable, List.length_replicate, List.length_replicate]
  chains := by
    intro i c hc
    obtain ⟨hi, rfl⟩ : i < n ∧ [] = c := by simpa [List.getElem?_replicate] using hc
    use none
    simp [htable, hi]
  placed := placed_replicate n
  total := by simp [htot, elements]
  frame := fun _ _ => rfl
  fresh := by simp [elements]

end Vely
