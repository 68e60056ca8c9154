import Vely.Hash.Calls

/-!
# Traversing a hash

A traversal is at an element of a chain, or at the end of a chain, or past the last bucket.  `Ahead
h cs rest` says that it has the elements `rest` before it: those of its chain from its position on,
and those of the later buckets.  The next step returns the first of them.  A deletion takes its
element out of `rest`, wherever it is; an addition either leaves `rest` alone or puts its element
among `rest`.
-/

namespace Vely

variable {D : Type}

/-- The elements a traversal has before it. -/
def Ahead (h : Hash) (cs : List (List (HashEntry D))) (rest : List (HashEntry D)) : Prop :=
  h.dnext = cs.length ∧ h.dcurr = none ∧ rest = []
    ∨ ∃ pre post, cs[h.dnext]? = some (pre ++ post) ∧ h.dcurr = post.head?.map Prod.fst
      ∧ rest = post ++ elements (cs.drop (h.dnext + 1))

section Traverse

variable {base m : Mem (HashTable D)} {h : Hash} {cs : List (List (HashEntry D))}
  {c xs ys rest : List (HashEntry D)} {e : HashEntry D} {i : Nat}

/-- The elements from a bucket on are those of the bucket and those of the later ones. -/
theorem elements_drop (hc : cs[i]? = some c) :
  elements (cs.drop i) = c ++ elements (cs.drop (i + 1))
  := by
  obtain ⟨hi, rfl⟩ := List.getElem?_eq_some_iff.mp hc
  rw [List.drop_eq_getElem_cons hi]
  rfl

/-- A traversal has some of the elements before it, in their order. -/
theorem Ahead.sublist (hat : Ahead h cs rest) :
  List.Sublist rest (elements cs)
  := by
  rcases hat with ⟨-, -, rfl⟩ | ⟨pre, post, hc, -, rfl⟩
  · apply List.nil_sublist
  · have hdrop : List.Sublist (elements (cs.drop h.dnext)) (elements cs) :=
      (List.drop_sublist _ _).flatten
    apply List.Sublist.trans _ hdrop
    rw [elements_drop hc, List.append_assoc]
    apply List.sublist_append_right

/-- Rewinding puts all elements before the traversal. -/
theorem velyRewindHash_spec (hl : HashLaid base h m cs) :
  ∃ h', velyRewindHash h = .ok h' ∧ HashLaid base h' m cs ∧ Ahead h' cs (elements cs)
  := by
  obtain ⟨c, hc⟩ : ∃ c, cs[0]? = some c := ⟨_, List.getElem?_eq_getElem hl.pos⟩
  have hbucket : Hash.bucket { h with dnext := 0 } 0 = .ok (c.head?.map Prod.fst) :=
    hl.bucket_eq hc
  refine ⟨{ h with dnext := 0, dcurr := c.head?.map Prod.fst }, ?_, hl.position _ _, ?_⟩
  · rw [velyRewindHash]
    simp only [hbucket, ok_bind]
    rfl
  · refine Or.inr ⟨[], c, hc, rfl, ?_⟩
    rw [← elements_drop hc, List.drop_zero]

/-- Going over empty buckets keeps the elements before the traversal, and ends at one of them
or past the last bucket. -/
theorem skipBuckets_spec (bound : Nat) (hl : HashLaid base h m cs) (hat : Ahead h cs rest)
    (hlt : h.dnext < cs.length) (hb : cs.length - h.dnext ≤ bound) :
  ∃ h', skipBuckets bound h = .ok h' ∧ HashLaid base h' m cs ∧ Ahead h' cs rest
    ∧ (h'.dcurr = none → h'.dnext = cs.length)
  := by
  induction bound generalizing h with
  | zero => omega
  | succ bound ih =>
    rw [skipBuckets]
    by_cases hcurr : h.dcurr = none
    case neg =>
      rw [if_neg hcurr]
      exact ⟨h, rfl, hl, hat, fun hnone => absurd hnone hcurr⟩
    case pos =>
      rw [if_pos hcurr]
      -- the chain is at its end, so the elements ahead are those of the later buckets
      obtain ⟨pre, hc, hrest⟩ : ∃ pre, cs[h.dnext]? = some pre
          ∧ rest = elements (cs.drop (h.dnext + 1)) := by
        rcases hat with ⟨hend, -, -⟩ | ⟨pre, post, hc, hhead, hrest⟩
        · omega
        · rw [hcurr] at hhead
          obtain rfl : post = [] := by
            cases post with
            | nil => rfl
            | cons f post => cases hhead
          exact ⟨pre ++ [], hc, hrest⟩
      by_cases hend : h.dnext + 1 = cs.length
      · rw [if_pos (by rw [hl.size, hend])]
        refine ⟨_, rfl, hl.position (h.dnext + 1) _, ?_, fun _ => hend⟩
        left
        rw [hrest, hend, List.drop_length]
        exact ⟨rfl, hcurr, rfl⟩
      · have hlt' : h.dnext + 1 < cs.length := by omega
        have hc' := List.getElem?_eq_getElem hlt'
        have hbucket : Hash.bucket { h with dnext := h.dnext + 1 } (h.dnext + 1)
            = .ok (cs[h.dnext + 1].head?.map Prod.fst) := hl.bucket_eq hc'
        rw [if_neg (by rw [hl.size]; exact hend), hbucket, ok_bind]
        apply ih (hl.position (h.dnext + 1) _)
        · right
          refine ⟨[], _, hc', rfl, ?_⟩
          rw [hrest, elements_drop hc']
          rfl
        · apply hlt'
        · simp only
          omega

/-- A step of a traversal returns the first element before it, or the end when there is none. -/
theorem velyNextHash_spec (hl : HashLaid base h m cs) (hat : Ahead h cs rest) :
  ∃ h', velyNextHash h m = .ok (rest.head?.map Prod.snd, h') ∧ HashLaid base h' m cs
    ∧ Ahead h' cs rest.tail
  := by
  rw [velyNextHash]
  by_cases hend : h.dnext = cs.length
  · obtain rfl : rest = [] := by
      rcases hat with ⟨-, -, hrest⟩ | ⟨pre, post, hc, -, -⟩
      · apply hrest
      · rw [hend, List.getElem?_eq_none le_rfl] at hc
        cases hc
    rw [if_pos (by rw [hl.size, hend])]
    exact ⟨h, rfl, hl, hat⟩
  · have hlt : h.dnext < cs.length := by
      rcases hat with ⟨hdnext, -, -⟩ | ⟨pre, post, hc, -, -⟩
      · omega
      · apply (List.getElem?_eq_some_iff.mp hc).1
    obtain ⟨h', hskip, hl', hat', hcurr⟩ :=
      skipBuckets_spec h.numBuckets hl hat hlt (by rw [hl.size]; omega)
    rw [if_neg (by rw [hl.size]; exact hend), hskip, ok_bind]
    rcases hat' with ⟨hdnext, hnone, rfl⟩ | ⟨pre, post, hc, hhead, rfl⟩
    · refine ⟨h', ?_, hl', Or.inl ⟨hdnext, hnone, rfl⟩⟩
      rw [hnone]
      rfl
    · cases post with
      | nil =>
        rw [hcurr hhead, List.getElem?_eq_none le_rfl] at hc
        cases hc
      | cons f post =>
        have hcell := cell_middle hl'.toHashChains hc
        refine ⟨{ h' with dcurr := post.head?.map Prod.fst }, ?_, hl'.position _ _, ?_⟩
        · rw [hhead, List.head?_cons, Option.map_some]
          simp only [Mem.read_of hcell, ok_bind]
          rfl
        · right
          refine ⟨pre ++ [f], post, ?_, rfl, rfl⟩
          rw [List.append_assoc]
          apply hc

/-! ### Changes during a traversal -/

/-- Taking an element out of its chain takes it out of all chains. -/
theorem set_eq_map_filter (hl : HashLaid base h m cs) (hc : cs[i]? = some (xs ++ e :: ys)) :
  cs.set i (xs ++ ys) = cs.map (List.filter (fun f => f.1 ≠ e.1))
  := by
  ext1 j
  rcases eq_or_ne i j with rfl | hij
  · rw [List.getElem?_set_self (List.getElem?_eq_some_iff.mp hc).1, List.getElem?_map, hc,
      Option.map_some, List.filter_append, List.filter_cons_of_neg (by simp)]
    have hxs : xs.filter (fun f => f.1 ≠ e.1) = xs := by
      rw [List.filter_eq_self]
      intro f hf
      simpa using hl.addr_ne hc (Or.inl hf)
    have hys : ys.filter (fun f => f.1 ≠ e.1) = ys := by
      rw [List.filter_eq_self]
      intro f hf
      simpa using hl.addr_ne hc (Or.inr hf)
    rw [hxs, hys]
  · rw [List.getElem?_set_ne hij, List.getElem?_map]
    cases hcj : cs[j]? with
    | none => rfl
    | some b =>
      rw [Option.map_some, List.filter_eq_self.mpr]
      intro f hf
      simpa using hl.addr_ne_of_ne hc (by simp) hcj hf hij

/-- A deletion takes its element out of those ahead. -/
theorem Ahead.erase {h' : Hash} (hat : Ahead h cs rest) (hl : HashLaid base h m cs)
    (hc : cs[i]? = some (xs ++ e :: ys)) (hdnext : h'.dnext = h.dnext)
    (hdcurr : h'.dcurr = if h.dcurr = some e.1 then ys.head?.map Prod.fst else h.dcurr) :
  Ahead h' (cs.set i (xs ++ ys)) (rest.filter (fun f => f.1 ≠ e.1))
  := by
  rw [set_eq_map_filter hl hc]
  rcases hat with ⟨hend, hnone, rfl⟩ | ⟨pre, post, hpost, hhead, rfl⟩
  · left
    rw [List.length_map, hdnext, hdcurr, hnone, if_neg (by simp)]
    exact ⟨hend, rfl, rfl⟩
  · right
    refine ⟨pre.filter (fun f => f.1 ≠ e.1), post.filter (fun f => f.1 ≠ e.1), ?_, ?_, ?_⟩
    · rw [hdnext, List.getElem?_map, hpost, Option.map_some, List.filter_append]
    · rw [hdcurr, hhead]
      cases post with
      | nil => rfl
      | cons f post =>
        by_cases ha : f.1 = e.1
        · -- the element deleted was the next one: the traversal has moved on behind it
          obtain rfl := hl.eq_of_addr (mem_elements_of hpost (by simp))
            (mem_elements_of hc (by simp)) ha
          have hkept : post.filter (fun g => g.1 ≠ f.1) = post := by
            rw [List.filter_eq_self]
            intro g hg
            simpa using hl.addr_ne hpost (Or.inr hg)
          have hcell := cell_middle hl.toHashChains hpost
          rw [cell_middle hl.toHashChains hc] at hcell
          rw [List.filter_cons_of_neg (by simp), hkept, List.head?_cons, Option.map_some,
            if_pos rfl]
          simpa using hcell
        · rw [List.filter_cons_of_pos (by simpa using ha), if_neg (by simpa using ha)]
          rfl
    · rw [List.filter_append, hdnext, ← List.map_drop, elements, elements, List.filter_flatten]

/-- Put `e'` in the place of the element at the address of `e`. -/
def swapIn (e e' f : HashEntry D) : HashEntry D := if f.1 = e.1 then e' else f

theorem map_swapIn_of_ne {e' : HashEntry D} (hc : ∀ f ∈ c, f.1 ≠ e.1) :
  c.map (swapIn e e') = c
  := by
  apply (List.map_congr_left _).trans (List.map_id c)
  intro f hf
  rw [swapIn, if_neg (hc f hf)]
  rfl

/-- The first element keeps its address. -/
theorem head_map_swapIn {e' : HashEntry D} (he : e'.1 = e.1) :
  (c.map (swapIn e e')).head?.map Prod.fst = c.head?.map Prod.fst
  := by
  cases c with
  | nil => rfl
  | cons f c =>
    simp only [List.map_cons, List.head?_cons, Option.map_some, Option.some.injEq, swapIn]
    split
    · next ha => rw [he, ha]
    · rfl

/-- Putting an element in the place of another changes all chains so. -/
theorem set_eq_map_swapIn (e' : HashEntry D) (hl : HashLaid base h m cs)
    (hc : cs[i]? = some (xs ++ e :: ys)) :
  cs.set i (xs ++ e' :: ys) = cs.map (List.map (swapIn e e'))
  := by
  ext1 j
  rcases eq_or_ne i j with rfl | hij
  · rw [List.getElem?_set_self (List.getElem?_eq_some_iff.mp hc).1, List.getElem?_map, hc,
      Option.map_some, List.map_append, List.map_cons,
      map_swapIn_of_ne (fun f hf => hl.addr_ne hc (Or.inl hf)),
      map_swapIn_of_ne (fun f hf => hl.addr_ne hc (Or.inr hf)), swapIn, if_pos rfl]
  · rw [List.getElem?_set_ne hij, List.getElem?_map]
    cases hcj : cs[j]? with
    | none => rfl
    | some b =>
      rw [Option.map_some,
        map_swapIn_of_ne (fun f hf => hl.addr_ne_of_ne hc (by simp) hcj hf hij)]

/-- A replacement changes its element among those ahead. -/
theorem Ahead.replace {e' : HashEntry D} (hat : Ahead h cs rest) (hl : HashLaid base h m cs)
    (hc : cs[i]? = some (xs ++ e :: ys)) (he : e'.1 = e.1) :
  Ahead h (cs.set i (xs ++ e' :: ys)) (rest.map (swapIn e e'))
  := by
  rw [set_eq_map_swapIn e' hl hc]
  rcases hat with ⟨hend, hnone, rfl⟩ | ⟨pre, post, hpost, hhead, rfl⟩
  · left
    rw [List.length_map]
    exact ⟨hend, hnone, rfl⟩
  · right
    refine ⟨pre.map (swapIn e e'), post.map (swapIn e e'), ?_, ?_, ?_⟩
    · rw [List.getElem?_map, hpost, Option.map_some, List.map_append]
    · rw [hhead, head_map_swapIn he]
    · rw [List.map_append, ← List.map_drop, elements, elements, List.map_flatten]

/-- The elements after one is put in front of a chain. -/
theorem elements_set_cons (hc : cs[i]? = some c) :
  (elements (cs.set i (e :: c))).Perm (e :: elements cs)
  := by
  induction cs generalizing i with
  | nil => simp at hc
  | cons b cs ih =>
    cases i with
    | zero =>
      obtain rfl : b = c := by simpa using hc
      apply List.Perm.refl
    | succ i =>
      have hperm := ih (by simpa using hc)
      have hswap : (b ++ e :: elements cs).Perm (e :: (b ++ elements cs)) := List.perm_middle
      apply List.Perm.trans (List.Perm.append_left b hperm) hswap

/-- An addition puts its element among those ahead, or leaves them alone. -/
theorem Ahead.push {h' : Hash} (hat : Ahead h cs rest) (hc : cs[i]? = some c)
    (hdnext : h'.dnext = h.dnext) (hdcurr : h'.dcurr = h.dcurr) :
  ∃ rest', Ahead h' (cs.set i (e :: c)) rest' ∧ (rest' = rest ∨ rest'.Perm (e :: rest))
  := by
  have hi := (List.getElem?_eq_some_iff.mp hc).1
  rcases hat with ⟨hend, hnone, rfl⟩ | ⟨pre, post, hpost, hhead, rfl⟩
  · refine ⟨[], Or.inl ⟨?_, ?_, rfl⟩, Or.inl rfl⟩
    · rw [List.length_set, hdnext, hend]
    · rw [hdcurr, hnone]
  · rcases Nat.lt_trichotomy i h.dnext with hlt | heq | hgt
    · refine ⟨_, Or.inr ⟨pre, post, ?_, ?_, rfl⟩, Or.inl ?_⟩
      · rw [hdnext, List.getElem?_set_ne (by omega), hpost]
      · rw [hdcurr, hhead]
      · rw [hdnext, List.drop_set_of_lt (by omega)]
    · -- the chain of the traversal itself: the element comes before the position
      subst heq
      rw [hpost] at hc
      obtain rfl := Option.some.inj hc
      refine ⟨_, Or.inr ⟨e :: pre, post, ?_, ?_, rfl⟩, Or.inl ?_⟩
      · rw [hdnext, List.getElem?_set_self hi]
        rfl
      · rw [hdcurr, hhead]
      · rw [hdnext, List.drop_set_of_lt (by omega)]
    · refine ⟨_, Or.inr ⟨pre, post, ?_, ?_, rfl⟩, Or.inr ?_⟩
      · rw [hdnext, List.getElem?_set_ne (by omega), hpost]
      · rw [hdcurr, hhead]
      · rw [hdnext, List.drop_set, if_neg (by omega)]
        have hdrop : (cs.drop (h.dnext + 1))[i - (h.dnext + 1)]? = some c := by
          rw [List.getElem?_drop, ← hc]
          congr 1
          omega
        have hperm := elements_set_cons (e := e) hdrop
        apply List.Perm.trans (List.Perm.append_left post hperm) List.perm_middle

end Traverse

end Vely
