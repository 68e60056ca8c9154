import Mathlib.Data.Finmap

/-!
# Buckets

Elements with keys are kept in a list of buckets.  They are `Placed` when each is in the
bucket its key belongs to and no bucket holds a key twice; then no two elements of the
whole list have one key.  The list of buckets `Holds` a finite map when its elements are the
bindings of the map.  A change of one bucket changes the map at the keys of this bucket only.
-/

namespace Vely

variable {E κ : Type}

/-- The elements of a list of buckets. -/
def elements (cs : List (List E)) : List E := cs.flatten

theorem mem_elements {cs : List (List E)} {e : E} :
  e ∈ elements cs ↔ ∃ (i : Nat) (c : List E), cs[i]? = some c ∧ e ∈ c
  := by
  rw [elements, List.mem_flatten]
  constructor
  · rintro ⟨c, hc, he⟩
    obtain ⟨i, hi⟩ := List.mem_iff_getElem?.mp hc
    exact ⟨i, c, hi, he⟩
  · rintro ⟨i, c, hi, he⟩
    exact ⟨c, List.mem_iff_getElem?.mpr ⟨i, hi⟩, he⟩

/-- An element of a bucket. -/
theorem mem_elements_of {cs : List (List E)} {i : Nat} {c : List E} {e : E}
    (hc : cs[i]? = some c) (he : e ∈ c) :
  e ∈ elements cs
  := mem_elements.mpr ⟨i, c, hc, he⟩

/-- The number of elements after a change of one bucket. -/
theorem length_elements_set {cs : List (List E)} {i : Nat} {c : List E} (d : List E)
    (hc : cs[i]? = some c) :
  (elements (cs.set i d)).length + c.length = (elements cs).length + d.length
  := by
  induction cs generalizing i with
  | nil => simp at hc
  | cons b cs ih =>
    cases i with
    | zero =>
      obtain rfl : b = c := by simpa using hc
      simp only [elements, List.set_cons_zero, List.flatten_cons, List.length_append]
      omega
    | succ i =>
      have h := ih (by simpa using hc)
      simp only [elements, List.set_cons_succ, List.flatten_cons, List.length_append] at h ⊢
      omega

variable (key : E → κ) (slot : κ → Nat)

/-- Each element is in the bucket of its key, and no bucket holds a key twice. -/
structure Placed (cs : List (List E)) : Prop where
  slots : ∀ (i : Nat) (c : List E), cs[i]? = some c → ∀ e ∈ c, slot (key e) = i
  distinct : ∀ (i : Nat) (c : List E), cs[i]? = some c → (c.map key).Nodup

section Placed

variable {key slot} {cs : List (List E)} {c d : List E} {e f : E} {i : Nat}

/-- Two elements of one bucket with one key are the same. -/
theorem eq_of_key (h : (c.map key).Nodup) (he : e ∈ c) (hf : f ∈ c) (hk : key e = key f) :
  e = f
  := List.inj_on_of_nodup_map h he hf hk

/-- Empty buckets. -/
theorem placed_replicate (n : Nat) :
  Placed key slot (List.replicate n ([] : List E))
  := by
  constructor
  · intro i c hc e he
    obtain rfl := List.eq_of_mem_replicate (List.mem_of_getElem? hc)
    cases he
  · intro i c hc
    obtain rfl := List.eq_of_mem_replicate (List.mem_of_getElem? hc)
    apply List.nodup_nil

namespace Placed

/-- An element is in the bucket of its key. -/
theorem mem_slot (h : Placed key slot cs) (hc : cs[slot (key e)]? = some c) :
  e ∈ elements cs ↔ e ∈ c
  := by
  rw [mem_elements]
  constructor
  · rintro ⟨i, b, hb, he⟩
    rw [h.slots i b hb e he, hb] at hc
    obtain rfl := Option.some.inj hc
    apply he
  · intro he
    exact ⟨_, c, hc, he⟩

/-- Only the keys matter. -/
theorem congr {F : Type} {key' : F → κ} {ds : List (List F)} (h : Placed key slot cs)
    (hkeys : ds.map (·.map key') = cs.map (·.map key)) :
  Placed key' slot ds
  := by
  have hbucket : ∀ (i : Nat) (d : List F), ds[i]? = some d →
      ∃ c, cs[i]? = some c ∧ d.map key' = c.map key := by
    intro i d hd
    have hi := congrArg (fun ks => ks[i]?) hkeys
    simp only [List.getElem?_map, hd, Option.map_some] at hi
    obtain ⟨c, hc, hck⟩ := Option.map_eq_some_iff.mp hi.symm
    exact ⟨c, hc, hck.symm⟩
  constructor
  · intro i d hd e he
    obtain ⟨c, hc, hdc⟩ := hbucket i d hd
    have hkey : key' e ∈ c.map key := by
      rw [← hdc]
      apply List.mem_map_of_mem he
    obtain ⟨f, hf, hfe⟩ := List.mem_map.mp hkey
    rw [← hfe]
    apply h.slots i c hc f hf
  · intro i d hd
    obtain ⟨c, hc, hdc⟩ := hbucket i d hd
    rw [hdc]
    apply h.distinct i c hc

/-- Two elements with one key are the same. -/
theorem unique (h : Placed key slot cs) (he : e ∈ elements cs) (hf : f ∈ elements cs)
    (hk : key e = key f) :
  e = f
  := by
  obtain ⟨i, c, hc, hec⟩ := mem_elements.mp he
  have hs := h.slots i c hc e hec
  subst hs
  apply eq_of_key (h.distinct _ c hc) hec _ hk
  rw [hk] at hc
  apply (h.mem_slot hc).mp hf

/-- The keys of all elements are distinct. -/
theorem nodup (h : Placed key slot cs) :
  ((elements cs).map key).Nodup
  := by
  rw [elements, List.map_flatten, List.nodup_flatten]
  constructor
  · intro ks hks
    obtain ⟨c, hc, rfl⟩ := List.mem_map.mp hks
    obtain ⟨i, hi⟩ := List.mem_iff_getElem?.mp hc
    apply h.distinct i c hi
  · rw [List.pairwise_map, List.pairwise_iff_getElem]
    intro i j hi hj hij k hk hk'
    obtain ⟨e, he, rfl⟩ := List.mem_map.mp hk
    obtain ⟨f, hf, hkey⟩ := List.mem_map.mp hk'
    have hei := h.slots i _ (List.getElem?_eq_getElem hi) e he
    have hfj := h.slots j _ (List.getElem?_eq_getElem hj) f hf
    rw [hkey] at hfj
    omega

/-- A change of one bucket. -/
theorem set (h : Placed key slot cs) (hs : ∀ e ∈ d, slot (key e) = i)
    (hd : (d.map key).Nodup) :
  Placed key slot (cs.set i d)
  := by
  constructor
  · intro j b hb e he
    rcases eq_or_ne i j with rfl | hij
    · rw [List.getElem?_set_self'] at hb
      obtain ⟨-, rfl⟩ : _ ∧ d = b := by simpa using hb
      apply hs e he
    · rw [List.getElem?_set_ne hij] at hb
      apply h.slots j b hb e he
  · intro j b hb
    rcases eq_or_ne i j with rfl | hij
    · rw [List.getElem?_set_self'] at hb
      obtain ⟨-, rfl⟩ : _ ∧ d = b := by simpa using hb
      apply hd
    · rw [List.getElem?_set_ne hij] at hb
      apply h.distinct j b hb

/-- The elements after a change of one bucket. -/
theorem mem_set (h : Placed key slot cs) (hc : cs[i]? = some c) (hs : ∀ e ∈ d, slot (key e) = i) :
  e ∈ elements (cs.set i d) ↔ if slot (key e) = i then e ∈ d else e ∈ elements cs
  := by
  have hi : i < cs.length := (List.getElem?_eq_some_iff.mp hc).1
  split
  · next hei =>
    rw [mem_elements]
    constructor
    · rintro ⟨j, b, hb, he⟩
      rcases eq_or_ne i j with rfl | hij
      · rw [List.getElem?_set_self hi] at hb
        obtain rfl := Option.some.inj hb
        apply he
      · rw [List.getElem?_set_ne hij] at hb
        have hej := h.slots j b hb e he
        omega
    · intro he
      exact ⟨i, d, List.getElem?_set_self hi, he⟩
  · next hei =>
    rw [mem_elements, mem_elements]
    constructor
    · rintro ⟨j, b, hb, he⟩
      rcases eq_or_ne i j with rfl | hij
      · rw [List.getElem?_set_self hi] at hb
        obtain rfl := Option.some.inj hb
        exact absurd (hs e he) hei
      · rw [List.getElem?_set_ne hij] at hb
        exact ⟨j, b, hb, he⟩
    · rintro ⟨j, b, hb, he⟩
      have hij : i ≠ j := by
        rintro rfl
        apply hei (h.slots i b hb e he)
      exact ⟨j, b, by rw [List.getElem?_set_ne hij, hb], he⟩

end Placed

end Placed

/-! ### The finite map of a list of buckets -/

section Bindings

variable [DecidableEq κ] {β : Type} (val : E → β)

/-- The elements of the buckets are the bindings of the map. -/
def Bindings (cs : List (List E)) (m : Finmap (fun _ : κ => β)) : Prop :=
  ∀ k v, m.lookup k = some v ↔ ∃ e ∈ elements cs, key e = k ∧ val e = v

variable {key slot val} {cs : List (List E)} {c d : List E} {e : E} {i : Nat}
  {m : Finmap (fun _ : κ => β)}

namespace Bindings

theorem lookup_of_mem (h : Bindings key val cs m) (he : e ∈ elements cs) :
  m.lookup (key e) = some (val e)
  := (h _ _).mpr ⟨e, he, rfl, rfl⟩

/-- No element has a key that the map does not bind. -/
theorem lookup_eq_none (h : Bindings key val cs m) {k : κ} :
  m.lookup k = none ↔ ∀ e ∈ elements cs, key e ≠ k
  := by
  constructor
  · rintro hk e he rfl
    rw [h.lookup_of_mem he] at hk
    cases hk
  · intro hk
    rw [Option.eq_none_iff_forall_ne_some]
    intro v hv
    obtain ⟨e, he, hek, -⟩ := (h k v).mp hv
    apply hk e he hek

/-- There are as many elements as bindings. -/
theorem card (h : Bindings key val cs m) (hp : Placed key slot cs) :
  (elements cs).length = m.keys.card
  := by
  have hkeys : m.keys = ((elements cs).map key).toFinset := by
    ext k
    rw [Finmap.mem_keys, ← Finmap.lookup_isSome, List.mem_toFinset, List.mem_map,
      Option.isSome_iff_exists]
    constructor
    · rintro ⟨v, hv⟩
      obtain ⟨e, he, hk, -⟩ := (h k v).mp hv
      exact ⟨e, he, hk⟩
    · rintro ⟨e, he, rfl⟩
      exact ⟨_, h.lookup_of_mem he⟩
  rw [hkeys, List.toFinset_card_of_nodup hp.nodup, List.length_map]

/-- Empty buckets hold the empty map. -/
theorem replicate (n : Nat) :
  Bindings key val (List.replicate n []) (∅ : Finmap (fun _ : κ => β))
  := by
  intro k v
  simp [elements]

/-- A change of the bucket of `k` that keeps the elements with other keys changes the map
at `k` only. -/
theorem set {k : κ} {m' : Finmap (fun _ : κ => β)} (h : Bindings key val cs m)
    (hp : Placed key slot cs) (hc : cs[slot k]? = some c)
    (hs : ∀ e ∈ d, slot (key e) = slot k) (hd : ∀ e, key e ≠ k → (e ∈ d ↔ e ∈ c))
    (hk : ∀ v, m'.lookup k = some v ↔ ∃ e ∈ d, key e = k ∧ val e = v)
    (hne : ∀ l, l ≠ k → m'.lookup l = m.lookup l) :
  Bindings key val (cs.set (slot k) d) m'
  := by
  intro l v
  rcases eq_or_ne l k with rfl | hl
  · rw [hk]
    have hmem : ∀ e, key e = l → (e ∈ d ↔ e ∈ elements (cs.set (slot l) d)) := by
      rintro e rfl
      rw [hp.mem_set hc hs, if_pos rfl]
    grind
  · rw [hne l hl, h l v]
    have hmem : ∀ e, key e = l → (e ∈ elements cs ↔ e ∈ elements (cs.set (slot k) d)) := by
      rintro e rfl
      rw [hp.mem_set hc hs]
      split
      · next he => rw [hd e hl, hp.mem_slot (by rw [he, hc])]
      · rfl
    grind

/-- An element with a new key is put in front of its bucket. -/
theorem push (h : Bindings key val cs m) (hp : Placed key slot cs)
    (hc : cs[slot (key e)]? = some c) (hnew : ∀ f ∈ c, key f ≠ key e) :
  Bindings key val (cs.set (slot (key e)) (e :: c)) (m.insert (key e) (val e))
  := by
  apply h.set hp hc
  · intro f hf
    rcases List.mem_cons.mp hf with rfl | hf
    · rfl
    · apply hp.slots _ c hc f hf
  · intro f hf
    have hfe : f ≠ e := ne_of_apply_ne key hf
    simp [hfe]
  · intro v
    rw [Finmap.lookup_insert]
    grind
  · intro l hl
    apply Finmap.lookup_insert_of_ne m hl

/-- An element is put in the place of the one with its key. -/
theorem replace {f : E} {xs ys : List E} (h : Bindings key val cs m)
    (hp : Placed key slot cs) (hc : cs[slot (key e)]? = some (xs ++ e :: ys))
    (hkey : key f = key e) :
  Bindings key val (cs.set (slot (key e)) (xs ++ f :: ys)) (m.insert (key e) (val f))
  := by
  have hdistinct := hp.distinct _ _ hc
  have hslots := hp.slots _ _ hc
  apply h.set hp hc
  · grind
  · intro g hg
    grind
  · intro v
    rw [Finmap.lookup_insert]
    simp only [List.map_append, List.map_cons] at hdistinct
    grind
  · intro l hl
    apply Finmap.lookup_insert_of_ne m hl

/-- An element is taken out of its bucket. -/
theorem erase {xs ys : List E} (h : Bindings key val cs m) (hp : Placed key slot cs)
    (hc : cs[slot (key e)]? = some (xs ++ e :: ys)) :
  Bindings key val (cs.set (slot (key e)) (xs ++ ys)) (m.erase (key e))
  := by
  have hdistinct := hp.distinct _ _ hc
  have hslots := hp.slots _ _ hc
  apply h.set hp hc
  · grind
  · intro g hg
    grind
  · intro v
    rw [Finmap.lookup_erase]
    simp only [List.map_append, List.map_cons] at hdistinct
    grind
  · intro l hl
    apply Finmap.lookup_erase_ne hl

end Bindings

end Bindings

end Vely
