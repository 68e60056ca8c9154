import Vely.Hash.Run

/-!
# Traversals with changes

A traversal is begun, and then its steps come in any order with additions, searches and deletions.
What it has to do is said of the trace, the list of events with their answers: `FaithfulWalk`.  In
between stands an abstract walk over a finite map and a list of keys ahead, which a step returns in
order and which an addition may enlarge; the hash is an instance of it.
-/

namespace Vely

variable {D : Type}

/-- What happens during a traversal: one of its steps, or an operation on one key. -/
inductive HashWalkEvent (D : Type) where
  | next
  | op (op : HashOp D)

/-- The answer to an event: the element returned, or `none` at the end; or the answer to the
operation. -/
inductive HashWalkAnswer (D : Type) where
  | returned (item : Option (StringPtr × D))
  | answered (answer : HashAnswer D)

/-- The events of a traversal with their answers. -/
abbrev WalkTrace (D : Type) := List (HashWalkEvent D × HashWalkAnswer D)

/-- Make a step of a traversal, or an operation. -/
def HashWalkEvent.exec (ev : HashWalkEvent D) (st : HashState D) :
    Except Stop (HashWalkAnswer D × HashState D) :=
  match ev with
  | .next => do
    let (item, h) ← velyNextHash st.1 st.2
    return (.returned item, h, st.2)
  | .op o => do
    let (answer, st) ← o.exec st
    return (.answered answer, st)

/-- Begin a traversal of a hash and answer the events; an earlier traversal may have stopped
anywhere. -/
def walkHash (base : Mem (HashTable D)) (size : Int) (process : Bool) (calls : List (HashCall D))
    (dnext : Nat) (dcurr : Option Addr) (events : List (HashWalkEvent D)) :
    Except Stop (List (HashWalkAnswer D)) := do
  let (_, h, m) ← runHash base size process calls
  let h ← velyRewindHash { h with dnext, dcurr }
  let (answers, _) ← run HashWalkEvent.exec events (h, m)
  return answers

/-! ### What a trace should be -/

/-- The map after an event. -/
def HashWalkEvent.after (ev : HashWalkEvent D) (m : HashMap D) : HashMap D :=
  match ev with
  | .next => m
  | .op o => (o.spec m).2

/-- The map after a trace. -/
def mapAfter (m : HashMap D) (tr : WalkTrace D) : HashMap D :=
  tr.foldl (fun m s => s.1.after m) m

/-- The trace deletes the key `k`, if it is there. -/
def Deletes (tr : WalkTrace D) (k : CString) : Prop :=
  ∃ answer, (HashWalkEvent.op (.find k true), answer) ∈ tr

/-- The trace returns an element with the key `k`. -/
def Returns (tr : WalkTrace D) (k : CString) : Prop :=
  ∃ key data, (HashWalkEvent.next, HashWalkAnswer.returned (some (key, data))) ∈ tr ∧ key.text = k

/-- A traversal of a hash that holds the map `m` at its beginning is as it should be. -/
structure FaithfulWalk (m : HashMap D) (tr : WalkTrace D) : Prop where
  /-- Operations are answered as on the map. -/
  answered : ∀ before o answer after, tr = before ++ (.op o, answer) :: after →
    answer = .answered (o.spec (mapAfter m before)).1
  /-- What is returned is in the hash at that time, with this key pointer and this data. -/
  current : ∀ before key data after,
    tr = before ++ (.next, .returned (some (key, data))) :: after →
    (mapAfter m before).lookup key.text = some (key, data)
  /-- Nothing is returned twice, unless it was deleted and added again in between. -/
  once : ∀ before key data between key' data' after,
    tr = before ++ (.next, .returned (some (key, data))) ::
      (between ++ (.next, .returned (some (key', data'))) :: after) →
    key'.text = key.text → Deletes between key.text
  /-- At the end, all that was there at the beginning has been returned, or deleted. -/
  complete : ∀ before after, tr = before ++ (.next, .returned none) :: after →
    ∀ k ∈ m.keys, Returns before k ∨ Deletes before k
  /-- When all that is in the hash has been returned, the end is reported. -/
  exhausted : ∀ before answer after, tr = before ++ (.next, answer) :: after →
    (∀ k ∈ (mapAfter m before).keys, ∃ early key data late,
      before = early ++ (.next, .returned (some (key, data))) :: late ∧ key.text = k
        ∧ ¬ Deletes late k) →
    answer = .returned none

/-! ### The abstract walk -/

/-- The trace of a walk over the map `m` that has the keys `ks` ahead. -/
def AbstractWalk : HashMap D → List CString → WalkTrace D → Prop
  | _, _, [] => True
  | m, ks, (.next, answer) :: tr =>
    answer = .returned (ks.head?.bind m.lookup) ∧ AbstractWalk m ks.tail tr
  | m, ks, (.op o, answer) :: tr =>
    answer = .answered (o.spec m).1
      ∧ ∃ ls, o.Moves m ks ls ∧ AbstractWalk (o.spec m).2 ls tr

/-- The keys ahead are distinct keys of the map, and the map binds keys to pointers to them. -/
structure WalkState (m : HashMap D) (ks : List CString) : Prop where
  nodup : ks.Nodup
  bound : ∀ k ∈ ks, k ∈ m.keys
  text : ∀ k v, m.lookup k = some v → v.1.text = k

section Abstract

variable {m : HashMap D} {ks ls : List CString} {tr before after : WalkTrace D}
  {o : HashOp D} {k : CString}

theorem mem_keys_iff :
  k ∈ m.keys ↔ ∃ v, m.lookup k = some v
  := by
  rw [Finmap.mem_keys, ← Finmap.lookup_isSome, Option.isSome_iff_exists]

@[simp]
theorem mapAfter_nil :
  mapAfter m [] = m
  := rfl

@[simp]
theorem mapAfter_cons {s : HashWalkEvent D × HashWalkAnswer D} :
  mapAfter m (s :: tr) = mapAfter (s.1.after m) tr
  := rfl

/-- The keys of the map after an operation. -/
theorem mem_keys_spec :
  k ∈ (o.spec m).2.keys ↔
    match o with
    | .add key _ _ => k = key.text ∨ k ∈ m.keys
    | .find key del => k ∈ m.keys ∧ (del = true → k ≠ key)
  := by
  cases o with
  | add key data al =>
    rw [HashOp.spec]
    split <;> simp [Finmap.mem_keys, Finmap.mem_insert]
  | find key del =>
    rw [HashOp.spec]
    split
    · next hnone =>
      simp only [Finmap.mem_keys]
      constructor
      · intro hk
        refine ⟨hk, ?_⟩
        rintro - rfl
        rw [← Finmap.lookup_isSome, hnone] at hk
        cases hk
      · apply And.left
    · cases del <;> simp [Finmap.mem_keys, and_comm]

/-- An operation keeps the state of a walk good. -/
theorem WalkState.op (h : WalkState m ks) (hmoves : o.Moves m ks ls) :
  WalkState (o.spec m).2 ls
  := by
  cases o with
  | add key data al =>
    constructor
    case nodup =>
      rcases hmoves with rfl | ⟨habsent, hperm⟩
      · apply h.nodup
      · rw [hperm.nodup_iff, List.nodup_cons]
        refine ⟨?_, h.nodup⟩
        intro hmem
        obtain ⟨v, hv⟩ := mem_keys_iff.mp (h.bound _ hmem)
        rw [habsent] at hv
        cases hv
    case bound =>
      intro k hk
      rw [mem_keys_spec]
      rcases hmoves with rfl | ⟨-, hperm⟩
      · exact Or.inr (h.bound k hk)
      · rcases List.mem_cons.mp (hperm.subset hk) with rfl | hk
        · exact Or.inl rfl
        · exact Or.inr (h.bound k hk)
    case text =>
      have hspec : ((HashOp.add key data al).spec m).2 = m.insert key.text (key, data) := by
        rw [HashOp.spec]
        split <;> rfl
      intro k v hv
      rw [hspec] at hv
      rcases eq_or_ne k key.text with rfl | hk
      · rw [Finmap.lookup_insert] at hv
        rw [← Option.some.inj hv]
      · rw [Finmap.lookup_insert_of_ne m hk] at hv
        apply h.text k v hv
  | find key del =>
    obtain rfl := hmoves
    constructor
    case nodup =>
      split
      · apply h.nodup.filter
      · apply h.nodup
    case bound =>
      intro k hk
      rw [mem_keys_spec]
      cases del with
      | false => exact ⟨h.bound k hk, by simp⟩
      | true =>
        rw [if_pos rfl, List.mem_filter] at hk
        exact ⟨h.bound k hk.1, by simpa using hk.2⟩
    case text =>
      intro k v hv
      rw [HashOp.spec] at hv
      split at hv
      · apply h.text k v hv
      · cases del with
        | false => apply h.text k v hv
        | true =>
          rcases eq_or_ne k key with rfl | hk
          · rw [if_pos rfl, Finmap.lookup_erase] at hv
            cases hv
          · rw [if_pos rfl, Finmap.lookup_erase_ne hk] at hv
            apply h.text k v hv

/-- A step keeps the state of a walk good. -/
theorem WalkState.next (h : WalkState m ks) :
  WalkState m ks.tail
  := ⟨h.nodup.tail, fun k hk => h.bound k (List.mem_of_mem_tail hk), h.text⟩

/-- What a step returns has the first key ahead. -/
theorem WalkState.head (h : WalkState m ks) {key : StringPtr} {data : D}
    (hreturned : some (key, data) = ks.head?.bind m.lookup) :
  ∃ ls, ks = key.text :: ls ∧ m.lookup key.text = some (key, data)
  := by
  cases ks with
  | nil => cases hreturned
  | cons k ls =>
    rw [List.head?_cons, Option.bind_some] at hreturned
    obtain rfl := h.text k _ hreturned.symm
    exact ⟨ls, rfl, hreturned.symm⟩

/-- At the end no key is ahead. -/
theorem WalkState.ended (h : WalkState m ks) (hreturned : none = ks.head?.bind m.lookup) :
  ks = []
  := by
  cases ks with
  | nil => rfl
  | cons k ls =>
    obtain ⟨v, hv⟩ := mem_keys_iff.mp (h.bound k (by simp))
    rw [List.head?_cons, Option.bind_some, hv] at hreturned
    cases hreturned

/-- The keys that a deletion does not name stay where they are: behind the walk, or ahead of it. -/
theorem HashOp.Moves.keeps (h : o.Moves m ks ls) (hk : ∀ answer : HashWalkAnswer D,
    (HashWalkEvent.op o, answer) ≠ (HashWalkEvent.op (.find k true), answer)) :
  (k ∈ m.keys → k ∉ ks → k ∉ ls) ∧ (k ∈ m.keys → k ∈ (o.spec m).2.keys) ∧ (k ∈ ks → k ∈ ls)
  := by
  cases o with
  | add key data al =>
    rw [mem_keys_spec]
    rcases h with rfl | ⟨habsent, hperm⟩
    · exact ⟨fun _ => id, Or.inr, id⟩
    · refine ⟨?_, Or.inr, fun hks => hperm.symm.subset (by simp [hks])⟩
      intro hkm hks hls
      rcases List.mem_cons.mp (hperm.subset hls) with rfl | hls
      · obtain ⟨v, hv⟩ := mem_keys_iff.mp hkm
        rw [habsent] at hv
        cases hv
      · apply hks hls
  | find key del =>
    obtain rfl := h
    rw [mem_keys_spec]
    cases del with
    | false => simp
    | true =>
      have hne : k ≠ key := by
        rintro rfl
        apply hk (.returned none) rfl
      simp [hne]

/-- Walking on: the keys behind the walk stay behind unless they are deleted, and those ahead are
returned, deleted, or still ahead. -/
theorem AbstractWalk.split (h : AbstractWalk m ks (before ++ after)) (hs : WalkState m ks) :
  ∃ ls, AbstractWalk (mapAfter m before) ls after ∧ WalkState (mapAfter m before) ls
    ∧ (∀ k ∈ m.keys, k ∉ ks → ¬ Deletes before k → k ∉ ls)
    ∧ ∀ k ∈ ks, k ∈ ls ∨ Returns before k ∨ Deletes before k
  := by
  induction before generalizing m ks with
  | nil => exact ⟨ks, h, hs, fun _ _ hk _ => hk, fun _ hk => Or.inl hk⟩
  | cons s before ih =>
    obtain ⟨ev, answer⟩ := s
    have hdeletes : ∀ k, Deletes before k → Deletes ((ev, answer) :: before) k := by
      rintro k ⟨a, ha⟩
      exact ⟨a, List.mem_cons_of_mem _ ha⟩
    have hreturns : ∀ k, Returns before k → Returns ((ev, answer) :: before) k := by
      rintro k ⟨key, data, hmem, hkey⟩
      exact ⟨key, data, List.mem_cons_of_mem _ hmem, hkey⟩
    cases ev with
    | next =>
      obtain ⟨hanswer, hrest⟩ := h
      obtain ⟨ls, hwalk, hstate, hbehind, hahead⟩ := ih hrest hs.next
      refine ⟨ls, hwalk, hstate, ?_, ?_⟩
      · intro k hk hks hdel
        apply hbehind k hk (fun hmem => hks (List.mem_of_mem_tail hmem))
        exact fun hdel' => hdel (hdeletes k hdel')
      · intro k hk
        cases ks with
        | nil => cases hk
        | cons l ks =>
          rcases List.mem_cons.mp hk with rfl | hk
          · -- the key returned in this step
            obtain ⟨⟨key, data⟩, hv⟩ := mem_keys_iff.mp (hs.bound k (by simp))
            rw [List.head?_cons, Option.bind_some, hv] at hanswer
            right
            left
            refine ⟨key, data, ?_, hs.text k _ hv⟩
            rw [hanswer]
            apply List.mem_cons_self
          · exact (hahead k hk).imp id (Or.imp (hreturns k) (hdeletes k))
    | op o =>
      obtain ⟨hanswer, ks', hmoves, hrest⟩ := h
      obtain ⟨ls, hwalk, hstate, hbehind, hahead⟩ := ih hrest (hs.op hmoves)
      have hkeeps : ∀ k, ¬ Deletes ((.op o, answer) :: before) k →
          (k ∈ m.keys → k ∉ ks → k ∉ ks') ∧ (k ∈ m.keys → k ∈ (o.spec m).2.keys)
            ∧ (k ∈ ks → k ∈ ks') := by
        intro k hdel
        apply hmoves.keeps
        intro a ha
        apply hdel
        obtain ⟨rfl⟩ : o = .find k true := by simpa using ha
        exact ⟨answer, List.mem_cons_self⟩
      refine ⟨ls, hwalk, hstate, ?_, ?_⟩
      · intro k hk hks hdel
        obtain ⟨hbehind', hkept, -⟩ := hkeeps k hdel
        apply hbehind k (hkept hk) (hbehind' hk hks)
        exact fun hdel' => hdel (hdeletes k hdel')
      · intro k hk
        by_cases hdel : Deletes ((.op o, answer) :: before) k
        · exact Or.inr (Or.inr hdel)
        · obtain ⟨-, -, hahead'⟩ := hkeeps k hdel
          exact (hahead k (hahead' hk)).imp id (Or.imp (hreturns k) (hdeletes k))

/-- The trace of a walk that has all keys ahead is as it should be. -/
theorem AbstractWalk.faithful (h : AbstractWalk m ks tr) (hs : WalkState m ks)
    (hall : ∀ k ∈ m.keys, k ∈ ks) :
  FaithfulWalk m tr
  := by
  have hcurrent : ∀ before key data after,
      tr = before ++ (.next, .returned (some (key, data))) :: after →
      (mapAfter m before).lookup key.text = some (key, data) := by
    rintro before key data after rfl
    obtain ⟨ls, ⟨hanswer, -⟩, hstate, -, -⟩ := h.split hs
    obtain ⟨-, -, hlookup⟩ := hstate.head (HashWalkAnswer.returned.inj hanswer)
    apply hlookup
  have honce : ∀ before key data between key' data' after,
      tr = before ++ (.next, .returned (some (key, data))) ::
        (between ++ (.next, .returned (some (key', data'))) :: after) →
      key'.text = key.text → Deletes between key.text := by
    rintro before key data between key' data' after rfl hkey
    obtain ⟨ls, ⟨hanswer, hrest⟩, hstate, -, -⟩ := h.split hs
    obtain ⟨ls, rfl, hlookup⟩ := hstate.head (HashWalkAnswer.returned.inj hanswer)
    obtain ⟨ls', ⟨hanswer', -⟩, hstate', hbehind, -⟩ := AbstractWalk.split hrest hstate.next
    obtain ⟨ls', rfl, -⟩ := hstate'.head (HashWalkAnswer.returned.inj hanswer')
    by_contra hdel
    apply hbehind key.text (mem_keys_iff.mpr ⟨_, hlookup⟩) _ hdel
    · rw [hkey]
      apply List.mem_cons_self
    · apply (List.nodup_cons.mp hstate.nodup).1
  constructor
  case answered =>
    rintro before o answer after rfl
    obtain ⟨ls, ⟨hanswer, -⟩, -⟩ := h.split hs
    apply hanswer
  case current => apply hcurrent
  case once => apply honce
  case complete =>
    rintro before after rfl k hk
    obtain ⟨ls, ⟨hanswer, -⟩, hstate, -, hahead⟩ := h.split hs
    obtain rfl := hstate.ended (HashWalkAnswer.returned.inj hanswer)
    rcases hahead k (hall k hk) with hmem | hdone
    · cases hmem
    · apply hdone
  case exhausted =>
    intro before answer after htr hdone
    have hsplit := h
    rw [htr] at hsplit
    obtain ⟨ls, ⟨hanswer, -⟩, -⟩ := hsplit.split hs
    cases hitem : ls.head?.bind (mapAfter m before).lookup with
    | none => rw [hanswer, hitem]
    | some item =>
      obtain ⟨key, data⟩ := item
      rw [hitem] at hanswer
      rw [hanswer] at htr
      -- an element returned now would have been returned before, and not deleted since
      have hlookup := hcurrent before key data after htr
      obtain ⟨early, key', data', late, rfl, hkey, hdel⟩ :=
        hdone key.text (mem_keys_iff.mpr ⟨_, hlookup⟩)
      exfalso
      apply hdel
      rw [← hkey]
      apply honce early key' data' late key data after _ hkey.symm
      rw [htr, List.append_assoc]
      rfl

end Abstract

/-! ### The walk of a hash -/

section Walk

variable {base m : Mem (HashTable D)} {h : Hash} {cs : List (List (HashEntry D))}
  {rest : List (HashEntry D)} {M : HashMap D}

/-- A traversal of a hash answers every event, and is a walk over the map the hash holds. -/
theorem walk_abstract (events : List (HashWalkEvent D)) (hl : HashLaid base h m cs)
    (hm : Bindings HashEntry.text HashEntry.item cs M) (hat : Ahead h cs rest) :
  Ends (run HashWalkEvent.exec events (h, m)) (fun r => r.1.length = events.length
    ∧ AbstractWalk M (rest.map HashEntry.text) (events.zip r.1))
  := by
  induction events generalizing h m cs rest M with
  | nil => exact ⟨rfl, trivial⟩
  | cons ev events ih =>
    cases ev with
    | next =>
      obtain ⟨h', hnext, hl', hat'⟩ := velyNextHash_spec hl hat
      have hitem : rest.head?.map Prod.snd
          = (rest.map HashEntry.text).head?.bind M.lookup := by
        cases rest with
        | nil => rfl
        | cons e rest =>
          rw [List.map_cons, List.head?_cons, List.head?_cons, Option.bind_some,
            hm.lookup_of_mem (hat.sublist.subset (by simp))]
          rfl
      simp only [run, HashWalkEvent.exec, hnext, ok_bind, pure_eq_ok]
      apply (ih hl' hm hat').bind
      rintro ⟨answers, st⟩ ⟨hlen, hwalk⟩
      rw [List.map_tail] at hwalk
      exact ⟨congrArg Nat.succ hlen, congrArg _ hitem, hwalk⟩
    | op o =>
      simp only [run, HashWalkEvent.exec, bind_assoc]
      apply (o.exec_spec hl hm).bind
      rintro ⟨answer, h', m'⟩ ⟨rfl, cs', hl', -, hm', hahead⟩
      obtain ⟨rest', hat', hmoves⟩ := hahead rest hat
      apply (ih hl' hm' hat').bind
      rintro ⟨answers, st⟩ ⟨hlen, hwalk⟩
      exact ⟨congrArg Nat.succ hlen, rfl, _, hmoves, hwalk⟩

/-- A traversal begun on a hash has all keys of its map ahead. -/
theorem walkState_elements (hl : HashLaid base h m cs)
    (hm : Bindings HashEntry.text HashEntry.item cs M) :
  WalkState M ((elements cs).map HashEntry.text)
    ∧ ∀ k ∈ M.keys, k ∈ (elements cs).map HashEntry.text
  := by
  constructor
  · constructor
    case nodup => apply hl.placed.nodup
    case bound =>
      intro k hk
      obtain ⟨e, he, rfl⟩ := List.mem_map.mp hk
      exact mem_keys_iff.mpr ⟨_, hm.lookup_of_mem he⟩
    case text =>
      intro k v hv
      obtain ⟨e, -, rfl, rfl⟩ := (hm k v).mp hv
      rfl
  · intro k hk
    obtain ⟨v, hv⟩ := mem_keys_iff.mp hk
    obtain ⟨e, he, rfl, -⟩ := (hm k v).mp hv
    exact List.mem_map.mpr ⟨e, he, rfl⟩

/-- A traversal of any hash, with any operations in between, returns what it should. -/
theorem walkHash_faithful (base : Mem (HashTable D)) (size : Int) (process : Bool)
    (calls : List (HashCall D)) (dnext : Nat) (dcurr : Option Addr)
    (events : List (HashWalkEvent D)) :
  Ends (walkHash base size process calls dnext dcurr events) (fun answers =>
    answers.length = events.length
      ∧ FaithfulWalk (specRun HashCall.spec calls ∅).2 (events.zip answers))
  := by
  obtain ⟨h, hcreate, hh⟩ := velyCreateHash_holds base size process
  rw [walkHash, runHash, hcreate, ok_bind]
  apply (hash_simulates.run calls hh).bind
  rintro ⟨calls', h', m⟩ ⟨-, cs, hl, hm⟩
  obtain ⟨h'', hrewind, hl', hat⟩ := velyRewindHash_spec (hl.position dnext dcurr)
  simp only [hrewind, ok_bind]
  apply (walk_abstract events hl' hm hat).bind
  rintro ⟨answers, st⟩ ⟨hlen, hwalk⟩
  obtain ⟨hstate, hall⟩ := walkState_elements hl hm
  exact ⟨hlen, hwalk.faithful hstate hall⟩

end Walk

end Vely
