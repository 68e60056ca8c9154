import Vely.Hash.Resize

/-!
# Runs on a hash

A run starts with the creation of a hash and makes additions, searches with and without deletion,
resizings and purges.  The hash answers every run as a finite map from strings to key pointers and
data does.  An operation on one key also says what becomes of the elements a traversal has before
it.
-/

namespace Vely

variable {D : Type}

/-- A hash and the memory it lies in. -/
abbrev HashState (D : Type) := Hash × Mem (HashTable D)

/-- A finite map from strings to the pointers and the data stored for them. -/
abbrev HashMap (D : Type) := Finmap (fun _ : CString => StringPtr × D)

/-- What is asked of a hash about one key. -/
inductive HashOp (D : Type) where
  | add (key : StringPtr) (data : D) (al : Allocator (HashTable D))
  | find (key : CString) (del : Bool)

/-- A call: an operation on one key, or `vely_resize_hash`, or `vely_delete_hash`, which makes the
hash anew (`purge`) or is followed by the creation of another (`renew`). -/
inductive HashCall (D : Type) where
  | op (op : HashOp D)
  | resize (newsize : Int) (al : Allocator (HashTable D))
  | purge
  | renew (size : Int) (process : Bool)

/-- Make an operation on one key. -/
def HashOp.exec (op : HashOp D) (st : HashState D) : Except Stop (HashAnswer D × HashState D) :=
  match op with
  | .add key data al => velyAddHash al st.1 st.2 key none data
  | .find key del => velyFindHash st.1 st.2 key none del

/-- Make a call. -/
def HashCall.exec (c : HashCall D) (st : HashState D) :
    Except Stop (Option (HashAnswer D) × HashState D) :=
  match c with
  | .op o => do
    let (answer, st) ← o.exec st
    return (some answer, st)
  | .resize newsize al => do return (none, ← velyResizeHash al st.1 st.2 newsize)
  | .purge => do
    let (h, m) ← velyDeleteHash st.1 st.2 true
    return (none, ← deref h, m)
  | .renew size process => do
    let (_, m) ← velyDeleteHash st.1 st.2 false
    return (none, ← velyCreateHash size none process, m)

/-- The same operation on a finite map. -/
def HashOp.spec (op : HashOp D) (m : HashMap D) : HashAnswer D × HashMap D :=
  match op with
  | .add key data _ =>
    match m.lookup key.text with
    | none => (⟨.okay, none, none⟩, m.insert key.text (key, data))
    | some (oldkey, old) => (⟨.errExist, some old, some oldkey⟩, m.insert key.text (key, data))
  | .find key del =>
    match m.lookup key with
    | none => (⟨.errExist, none, none⟩, m)
    | some (oldkey, data) => (⟨.okay, some data, some oldkey⟩, if del then m.erase key else m)

/-- The same call on a finite map. -/
def HashCall.spec (c : HashCall D) (m : HashMap D) : Option (HashAnswer D) × HashMap D :=
  match c with
  | .op o => (some (o.spec m).1, (o.spec m).2)
  | .resize _ _ => (none, m)
  | .purge => (none, ∅)
  | .renew _ _ => (none, ∅)

/-- Create a hash in the memory `base` and make calls on it. -/
def runHash (base : Mem (HashTable D)) (size : Int) (process : Bool) (calls : List (HashCall D)) :
    Except Stop (List (Option (HashAnswer D)) × HashState D) := do
  run HashCall.exec calls (← velyCreateHash size none process, base)

/-- The elements of the hash, each in the bucket of its key, are the bindings of `m`. -/
def HashHolds (base : Mem (HashTable D)) (st : HashState D) (m : HashMap D) : Prop :=
  ∃ cs, HashLaid base st.1 st.2 cs ∧ Bindings HashEntry.text HashEntry.item cs m

/-- What becomes of the keys ahead of a traversal in an operation on a hash that holds `m`. -/
def HashOp.Moves (op : HashOp D) (m : HashMap D) (ks ls : List CString) : Prop :=
  match op with
  | .add key _ _ => ls = ks ∨ m.lookup key.text = none ∧ ls.Perm (key.text :: ks)
  | .find key del => ls = if del then ks.filter (· ≠ key) else ks

section Op

variable {base m : Mem (HashTable D)} {h : Hash} {cs : List (List (HashEntry D))}
  {c xs ys rest : List (HashEntry D)} {e : HashEntry D} {M : HashMap D} {k : CString}

/-- A key that its bucket has no element for is not bound. -/
theorem lookup_absent (hl : HashLaid base h m cs)
    (hm : Bindings HashEntry.text HashEntry.item cs M) (hc : cs[slotOf cs.length k]? = some c)
    (hk : ∀ e ∈ c, HashEntry.text e ≠ k) :
  M.lookup k = none
  := by
  rw [hm.lookup_eq_none]
  rintro e he rfl
  apply hk e _ rfl
  apply (hl.placed.mem_slot hc).mp he

/-- The keys ahead after the deletion of an element. -/
theorem texts_filter (hl : HashLaid base h m cs) (he : e ∈ elements cs)
    (hrest : List.Sublist rest (elements cs)) :
  (rest.filter (fun f => f.1 ≠ e.1)).map HashEntry.text
    = (rest.map HashEntry.text).filter (· ≠ HashEntry.text e)
  := by
  rw [List.filter_map]
  congr 1
  apply List.filter_congr
  intro f hf
  have hfe : f.1 = e.1 ↔ HashEntry.text f = HashEntry.text e := by
    constructor
    · intro ha
      rw [hl.eq_of_addr (hrest.subset hf) he ha]
    · intro ht
      rw [hl.placed.unique (hrest.subset hf) he ht]
  simp [hfe]

/-- The keys ahead after the replacement of an element. -/
theorem texts_swapIn {e' : HashEntry D} (hl : HashLaid base h m cs) (he : e ∈ elements cs)
    (ht : HashEntry.text e' = HashEntry.text e) (hrest : List.Sublist rest (elements cs)) :
  (rest.map (swapIn e e')).map HashEntry.text = rest.map HashEntry.text
  := by
  rw [List.map_map]
  apply List.map_congr_left
  intro f hf
  rw [Function.comp_apply, swapIn]
  split
  · next ha => rw [ht, hl.eq_of_addr (hrest.subset hf) he ha]
  · rfl

/-- A search always comes to its end, and is answered as on the finite map. -/
theorem velyFindHash_spec (key : CString) (del : Bool) (hl : HashLaid base h m cs)
    (hm : Bindings HashEntry.text HashEntry.item cs M) :
  ∃ r, velyFindHash h m key none del = .ok r ∧ r.1 = ((HashOp.find key del).spec M).1
    ∧ ∃ cs', HashLaid base r.2.1 r.2.2 cs' ∧ cs'.length = cs.length
      ∧ Bindings HashEntry.text HashEntry.item cs' ((HashOp.find key del).spec M).2
      ∧ ∀ rest, Ahead h cs rest → ∃ rest', Ahead r.2.1 cs' rest'
        ∧ (HashOp.find (D := D) key del).Moves M (rest.map HashEntry.text)
          (rest'.map HashEntry.text)
  := by
  obtain ⟨c, hc⟩ := hl.exists_bucket key
  rcases bucket_cases c key with hk | ⟨xs, e, ys, rfl, rfl, hxs⟩
  · have habsent := lookup_absent hl hm hc hk
    obtain ⟨reads, hfind⟩ := velyFindHash_absent hl.toHashChains hc hk del
    simp only [HashOp.spec, habsent]
    refine ⟨_, hfind, rfl, cs, hl.congr rfl rfl rfl, rfl, hm, ?_⟩
    intro rest hat
    refine ⟨rest, hat, ?_⟩
    rw [HashOp.Moves]
    split
    · symm
      rw [List.filter_eq_self]
      intro l hk'
      obtain ⟨f, hf, rfl⟩ := List.mem_map.mp hk'
      simpa using hm.lookup_eq_none.mp habsent f (hat.sublist.subset hf)
    · rfl
  · have he' := mem_elements_of hc (List.mem_append_right xs List.mem_cons_self)
    have hlookup := hm.lookup_of_mem he'
    obtain ⟨reads, hfind⟩ := velyFindHash_present hl.toHashChains hc rfl hxs del
    have hl₀ : HashLaid base { h with hits := h.hits + 1, reads } m cs := hl.congr rfl rfl rfl
    simp only [HashOp.spec, hlookup]
    rw [hfind]
    cases del with
    | false =>
      refine ⟨_, handBack_keep hl₀.toHashChains hc _, rfl, cs, hl₀, rfl, hm, ?_⟩
      intro rest hat
      exact ⟨rest, hat, rfl⟩
    | true =>
      obtain ⟨h', m', hdel, hl', hdnext, hdcurr⟩ := velyDelHashEntry_spec hl₀ hc
      rw [handBack, Mem.read_of (cell_middle hl₀.toHashChains hc), ok_bind, if_pos rfl, hdel]
      refine ⟨_, rfl, rfl, _, hl', List.length_set, hm.erase hl.placed hc, ?_⟩
      intro rest hat
      refine ⟨_, hat.erase hl hc hdnext hdcurr, ?_⟩
      rw [HashOp.Moves, if_pos rfl]
      apply texts_filter hl he' hat.sublist

/-- An operation on one key is answered as on the finite map, whatever a traversal has before it. -/
theorem HashOp.exec_spec (op : HashOp D) (hl : HashLaid base h m cs)
    (hm : Bindings HashEntry.text HashEntry.item cs M) :
  Ends (op.exec (h, m)) (fun r => r.1 = (op.spec M).1
    ∧ ∃ cs', HashLaid base r.2.1 r.2.2 cs' ∧ cs'.length = cs.length
      ∧ Bindings HashEntry.text HashEntry.item cs' (op.spec M).2
      ∧ ∀ rest, Ahead h cs rest → ∃ rest', Ahead r.2.1 cs' rest'
        ∧ op.Moves M (rest.map HashEntry.text) (rest'.map HashEntry.text))
  := by
  cases op with
  | add key data al =>
    obtain ⟨c, hc⟩ := hl.exists_bucket key.text
    rcases bucket_cases c key.text with hk | ⟨xs, e, ys, rfl, he, hxs⟩
    · have habsent := lookup_absent hl hm hc hk
      apply (velyAddHash_absent al hl hc hk data).mono
      rintro ⟨answer, h', m'⟩ ⟨rfl, hdnext, hdcurr, a, hl'⟩
      simp only [HashOp.spec, habsent]
      refine ⟨trivial, _, hl', List.length_set, hm.push (e := (a, key, data)) hl.placed hc hk, ?_⟩
      intro rest hat
      obtain ⟨rest', hat', rfl | hperm⟩ := hat.push (e := (a, key, data)) hc hdnext hdcurr
      · exact ⟨rest', hat', Or.inl rfl⟩
      · exact ⟨rest', hat', Or.inr ⟨habsent, hperm.map HashEntry.text⟩⟩
    · have he' := mem_elements_of hc (List.mem_append_right xs List.mem_cons_self)
      have hlookup := hm.lookup_of_mem he'
      obtain ⟨m', hadd, hl'⟩ := velyAddHash_present al hl hc he hxs data
      rw [he] at hlookup
      simp only [HashOp.exec, HashOp.spec, hadd, hlookup]
      rw [← he] at hc hl' ⊢
      refine ⟨rfl, _, hl', List.length_set, hm.replace (f := (e.1, key, data)) hl.placed hc he.symm, ?_⟩
      intro rest hat
      refine ⟨_, hat.replace hl hc rfl, Or.inl ?_⟩
      have htext : HashEntry.text (e.1, key, data) = HashEntry.text e := he.symm
      apply texts_swapIn hl he' htext hat.sublist
  | find key del =>
    obtain ⟨r, hfind, hspec⟩ := velyFindHash_spec key del hl hm
    rw [HashOp.exec, hfind]
    apply hspec

end Op

section Run

variable {base : Mem (HashTable D)} {st : HashState D} {M : HashMap D}

/-- A new hash holds the empty map. -/
theorem velyCreateHash_holds (base : Mem (HashTable D)) (size : Int) (process : Bool) :
  ∃ h, velyCreateHash size none process = .ok h ∧ HashHolds base (h, base) ∅
  := by
  have hpos : 0 < bucketsFor size := by
    rw [bucketsFor]
    omega
  exact ⟨_, velyCreateHash_eq size process, _, hashLaid_replicate base hpos rfl rfl rfl,
    Bindings.replicate _⟩

/-- The recorded total of a hash is the number of bindings it holds. -/
theorem HashHolds.total (hst : HashHolds base st M) :
  st.1.tot = M.keys.card
  := by
  obtain ⟨cs, hl, hm⟩ := hst
  rw [hl.total, hm.card hl.placed]

/-- A call on a hash is answered as on the finite map it holds. -/
theorem hash_simulates :
  Simulates (HashHolds base) (HashCall.exec (D := D)) HashCall.spec
  := by
  rintro c ⟨h, m⟩ M ⟨cs, hl, hm⟩
  cases c with
  | op o =>
    rw [HashCall.exec]
    apply (o.exec_spec hl hm).bind
    rintro ⟨answer, h', m'⟩ ⟨rfl, cs', hl', -, hm', -⟩
    exact ⟨rfl, cs', hl', hm'⟩
  | resize newsize al =>
    rw [HashCall.exec]
    apply (velyResizeHash_spec al hl newsize).bind
    rintro ⟨h', m'⟩ ⟨ds, hl', -, hitems⟩
    refine ⟨rfl, ds, hl', ?_⟩
    intro k v
    rw [HashCall.spec, hm k v]
    constructor
    · rintro ⟨e, he, rfl, rfl⟩
      obtain ⟨f, hf, hfe⟩ := (hitems _).mpr ⟨e, he, rfl⟩
      refine ⟨f, hf, ?_, hfe⟩
      exact congrArg (fun i : StringPtr × D => i.1.text) hfe
    · rintro ⟨f, hf, rfl, rfl⟩
      obtain ⟨e, he, hef⟩ := (hitems _).mp ⟨f, hf, rfl⟩
      refine ⟨e, he, ?_, hef⟩
      exact congrArg (fun i : StringPtr × D => i.1.text) hef
  | purge =>
    obtain ⟨new, hdelete, hl'⟩ := velyDeleteHash_spec hl true
    simp only [HashCall.exec, hdelete, ok_bind, if_pos, deref_some]
    exact ⟨rfl, _, hl', Bindings.replicate _⟩
  | renew size process =>
    obtain ⟨new, hdelete, -⟩ := velyDeleteHash_spec hl false
    obtain ⟨h', hcreate, hh'⟩ := velyCreateHash_holds base size process
    simp only [HashCall.exec, hdelete, ok_bind, hcreate]
    exact ⟨rfl, hh'⟩

/-- The calls on a new hash are answered as on a finite map, which the hash holds afterwards; its
recorded total is the number of bindings. -/
theorem runHash_refines (base : Mem (HashTable D)) (size : Int) (process : Bool)
    (calls : List (HashCall D)) :
  Ends (runHash base size process calls) (fun r =>
    r.1 = (specRun HashCall.spec calls ∅).1
      ∧ HashHolds base r.2 (specRun HashCall.spec calls ∅).2
      ∧ r.2.1.tot = (specRun HashCall.spec calls ∅).2.keys.card)
  := by
  obtain ⟨h, hcreate, hh⟩ := velyCreateHash_holds base size process
  rw [runHash, hcreate, ok_bind]
  apply (hash_simulates.run calls hh).mono
  rintro r ⟨hanswers, hholds⟩
  exact ⟨hanswers, hholds, hholds.total⟩

end Run

end Vely
