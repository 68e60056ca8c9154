import Vely.BreakDown.Cut

/-!
# Trimming the pieces

A piece starts behind its leading whitespace, and behind a quote there.  Its end is looked for from
the right, where a quote is passed over too, and a terminator is written there.
-/

namespace Vely

namespace BreakDown

/-- What is left of a piece behind its leading whitespace. -/
def strippedFrom (c : List UInt8) : List UInt8 :=
  let d := if c.head? = some 34 then c.tail else c
  let t := d.rdropWhile isspace
  -- where only whitespace follows a quote, the terminator is written over the quote
  if t = [] then d
  else if t.getLast? = some 34 then t.dropLast
  else t

/-- What is left of a piece. -/
def stripped (w : List UInt8) : List UInt8 := strippedFrom (w.dropWhile isspace)

/-! ### The loops over whitespace -/

section

variable {b : Block} {l r : List (Option UInt8)} {s : List UInt8} {c : UInt8}

theorem skipSpaces_eq {n i : Nat} (hcells : b.cells = l ++ (s.map some ++ some c :: r))
    (hs : ∀ x ∈ s, isspace x = true) (hc : isspace c = false) (hn : s.length < n)
    (hi : i = l.length) :
  skipSpaces b n i = .ok (i + s.length)
  := by
  induction s generalizing l n i with
  | nil =>
    cases n with
    | zero => cases hn
    | succ n =>
      rw [skipSpaces, Block.get_of_cells hcells hi, ok_bind, if_neg (by simp [hc])]
      rfl
  | cons x s ih =>
    cases n with
    | zero => cases hn
    | succ n =>
      rw [skipSpaces, Block.get_of_cells hcells hi, ok_bind, if_pos (hs x List.mem_cons_self)]
      rw [@ih (l ++ [some x]) n (i + 1) (by rw [hcells]; simp)
        (fun y hy => hs y (List.mem_cons_of_mem x hy)) (by simpa using hn) (by simp [hi])]
      rw [List.length_cons]
      congr 1
      omega

theorem backSpaces_eq (hcells : b.cells = l ++ (some c :: (s.map some ++ r)))
    (hs : ∀ x ∈ s, isspace x = true) (hc : isspace c = false) :
  backSpaces b (l.length + s.length) = .ok l.length
  := by
  induction s using List.reverseRecOn generalizing r with
  | nil =>
    have hget := Block.get_of_cells hcells rfl
    rw [List.length_nil, Nat.add_zero]
    cases hlen : l.length with
    | zero =>
      rw [hlen] at hget
      rw [backSpaces, hget, ok_bind, if_neg (by simp [hc])]
      rfl
    | succ n =>
      rw [hlen] at hget
      rw [backSpaces, hget, ok_bind, if_neg (by simp [hc])]
      rfl
  | append_singleton s x ih =>
    have hget := @Block.get_of_cells b (l ++ some c :: s.map some) r x (l.length + s.length + 1)
      (by rw [hcells]; simp)
      (by simp only [List.length_append, List.length_cons, List.length_map]; omega)
    rw [List.length_append, List.length_singleton, ← Nat.add_assoc, backSpaces, hget, ok_bind,
      if_pos (hs x (by simp))]
    apply @ih (some x :: r)
    · rw [hcells]
      simp
    · intro y hy
      exact hs y (by simp [hy])

end

/-! ### One piece -/

section

variable {dlen : Nat} {b : Block} {l r : List (Option UInt8)} {w d : List UInt8} {p ep : Nat}

/-- The end of a text without its trailing whitespace. -/
theorem exists_trailing (d : List UInt8) :
  ∃ s, d = d.rdropWhile isspace ++ s ∧ (∀ x ∈ s, isspace x = true)
    ∧ ∀ y, (d.rdropWhile isspace).getLast? = some y → isspace y = false
  := by
  use d.rtakeWhile isspace
  constructor
  · rw [List.rdropWhile_append_rtakeWhile]
  constructor
  · intro x hx
    exact List.mem_rtakeWhile_imp hx
  · intro y hy
    have hne : d.rdropWhile isspace ≠ [] := by
      intro h
      rw [h] at hy
      cases hy
    have hlast := List.rdropWhile_last_not isspace d hne
    rw [List.getLast?_eq_some_getLast hne, Option.some.injEq] at hy
    rw [hy] at hlast
    simpa using hlast

/-- The end of a piece is found and a terminator is written there. -/
theorem close_eq (hcells : b.cells = l ++ (d.map some ++ some 0 :: r)) (hp : p = l.length)
    (hep : ep = p + d.length) (hd : d.rdropWhile isspace ≠ []) :
  ∃ t v, (do
      let ep ← backSpaces b (ep - 1)
      let c ← b.get ep
      let b ← b.put (if c = 34 then ep else ep + 1) 0
      return (b, p)) = .ok (⟨l ++ (t.map some ++ some 0 :: (v ++ r))⟩, p)
    ∧ t = (if (d.rdropWhile isspace).getLast? = some 34 then (d.rdropWhile isspace).dropLast
      else d.rdropWhile isspace)
    ∧ t.length + v.length = d.length
  := by
  obtain ⟨s, hs, hspaces, hlast⟩ := exists_trailing d
  generalize d.rdropWhile isspace = t at hd hs hlast ⊢
  obtain rfl | ⟨t, y, rfl⟩ := List.eq_nil_or_concat' t
  · exact absurd rfl hd
  have hy := hlast y List.getLast?_concat
  have hshape : b.cells = (l ++ t.map some) ++ some y :: (s.map some ++ some 0 :: r) := by
    rw [hcells, hs]
    simp
  have hlength : ep - 1 = (l ++ t.map some).length + s.length := by
    rw [hep, hp, hs]
    simp only [List.length_append, List.length_map, List.length_singleton]
    omega
  rw [hlength, backSpaces_eq hshape hspaces hy, ok_bind, Block.get_of_cells hshape rfl, ok_bind,
    List.getLast?_concat, List.dropLast_concat]
  by_cases hquote : y = 34
  · rw [if_pos hquote, if_pos (by rw [hquote]), Block.put_of_cells 0 hshape rfl, ok_bind]
    refine ⟨t, s.map some ++ [some 0], ?_, rfl, ?_⟩
    · simp [pure, Except.pure]
    · rw [hs]
      simp only [List.length_append, List.length_map, List.length_singleton]
      omega
  · rw [if_neg hquote, if_neg (by simpa using hquote)]
    cases s with
    | nil =>
      have hshape' : b.cells = (l ++ t.map some ++ [some y]) ++ some 0 :: r := by
        rw [hshape]
        simp
      rw [Block.put_of_cells 0 hshape' (by simp; omega), ok_bind]
      refine ⟨t ++ [y], [], ?_, rfl, ?_⟩
      · simp [pure, Except.pure]
      · rw [hs]
        simp
    | cons x s =>
      have hshape' : b.cells = (l ++ t.map some ++ [some y])
          ++ some x :: (s.map some ++ some 0 :: r) := by
        rw [hshape]
        simp
      rw [Block.put_of_cells 0 hshape' (by simp; omega), ok_bind]
      refine ⟨t ++ [y], s.map some ++ [some 0], ?_, rfl, ?_⟩
      · simp [pure, Except.pure]
      · rw [hs]
        simp only [List.length_append, List.length_map, List.length_cons, List.length_nil]

/-- The text `t` is left of a piece of `n` bytes, and the memory around the piece is as it was. -/
def Left (b : Block) (l : List (Option UInt8)) (n : Nat) (t : List UInt8)
    (r : List (Option UInt8)) (p : Nat) : Prop :=
  ∃ u v, b.cells = l ++ (u ++ (t.map some ++ some 0 :: (v ++ r)))
    ∧ u.length + t.length + v.length = n ∧ p = l.length + u.length

/-- The end of a piece is where its terminator is. -/
theorem trimPiece_eq {i : Nat} {c : UInt8} {next : Option Nat}
    (hskip : skipSpaces b b.cells.length i = .ok p) (hget : b.get p = .ok c)
    (hcells : b.cells = l ++ (d.map some ++ some 0 :: r)) (hzero : 0 ∉ d)
    (hp : (if c = 34 then p + 1 else p) = l.length)
    (hnext : ∀ n, next = some n → n = l.length + d.length + dlen) :
  trimPiece dlen b i next = if l.length + d.length ≠ l.length then do
      let ep ← backSpaces b (l.length + d.length - 1)
      let c ← b.get ep
      let b ← b.put (if c = 34 then ep else ep + 1) 0
      return (b, l.length)
    else return (b, l.length)
  := by
  rw [trimPiece, hskip, ok_bind, hget, ok_bind]
  simp only [hp]
  cases next with
  | none =>
    have hstring := Block.string_of_cells ⟨d, hzero⟩ hcells rfl
    simp only [hstring, ok_bind, CString.length]
    rfl
  | some n =>
    have hep : n - dlen = l.length + d.length := by
      rw [hnext n rfl]
      omega
    simp only [hep]
    rfl

section

variable {s c : List UInt8} {next : Option Nat}

/-- A piece of whitespace only is trimmed. -/
theorem trimPiece_blank (hcells : b.cells = l ++ (s.map some ++ some 0 :: r))
    (hs : ∀ x ∈ s, isspace x = true)
    (hnext : ∀ n, next = some n → n = l.length + s.length + dlen) :
  ∃ b' p, trimPiece dlen b l.length next = .ok (b', p) ∧ Left b' l s.length [] r p
  := by
  have hshape : b.cells = (l ++ s.map some) ++ (([] : List UInt8).map some ++ some 0 :: r) := by
    rw [hcells]
    simp
  have hsize : s.length < b.cells.length := by
    rw [hcells]
    simp only [List.length_append, List.length_map, List.length_cons]
    omega
  have hskip := skipSpaces_eq hcells hs isspace_zero hsize rfl
  have hget : b.get (l.length + s.length) = .ok 0 := Block.get_of_cells hshape (by simp)
  rw [trimPiece_eq hskip hget hshape (by simp) (by simp) (by simpa using hnext), if_neg (by simp)]
  refine ⟨b, _, rfl, s.map some, [], ?_, ?_, ?_⟩
  · rw [hshape]
    simp
  · simp
  · simp

/-- A piece that does not start with a quote is trimmed. -/
theorem trimPiece_plain {x : UInt8}
    (hcells : b.cells = l ++ ((s ++ x :: c).map some ++ some 0 :: r))
    (hzero : 0 ∉ x :: c) (hs : ∀ y ∈ s, isspace y = true) (hx : isspace x = false) (hquote : x ≠ 34)
    (hnext : ∀ n, next = some n → n = l.length + (s ++ x :: c).length + dlen) :
  ∃ b' p, trimPiece dlen b l.length next = .ok (b', p)
    ∧ Left b' l (s ++ x :: c).length (strippedFrom (x :: c)) r p
  := by
  have hshape : b.cells = (l ++ s.map some) ++ ((x :: c).map some ++ some 0 :: r) := by
    rw [hcells]
    simp
  have hsize : s.length < b.cells.length := by
    rw [hcells]
    simp only [List.length_append, List.length_map, List.length_cons]
    omega
  have hskip := skipSpaces_eq (b := b) (l := l) (c := x) (by simpa using hcells) hs hx hsize rfl
  have hget : b.get (l.length + s.length) = .ok x := Block.get_of_cells hshape (by simp)
  have hblank : (x :: c).rdropWhile isspace ≠ [] := by
    rw [ne_eq, List.rdropWhile_eq_nil_iff]
    intro h
    rw [h x List.mem_cons_self] at hx
    cases hx
  have hhead : (x :: c).head? ≠ some 34 := by simpa using hquote
  rw [trimPiece_eq (l := l ++ s.map some) hskip hget hshape hzero (by simp [hquote])
    (by
      intro n hn
      rw [hnext n hn]
      simp only [List.length_append, List.length_map]
      omega), if_pos (by simp), strippedFrom]
  simp only [if_neg hhead, if_neg hblank]
  obtain ⟨t, v, hclose, rfl, hlen⟩ := close_eq hshape rfl rfl hblank
  refine ⟨_, _, hclose, s.map some, v, ?_, ?_, ?_⟩
  · simp
  · simp only [List.length_append, List.length_map]
    omega
  · simp

/-- A piece that starts with a quote is trimmed. -/
theorem trimPiece_quote (hcells : b.cells = l ++ ((s ++ 34 :: c).map some ++ some 0 :: r))
    (hzero : 0 ∉ c) (hs : ∀ y ∈ s, isspace y = true)
    (hnext : ∀ n, next = some n → n = l.length + (s ++ 34 :: c).length + dlen) :
  ∃ b' p, trimPiece dlen b l.length next = .ok (b', p)
    ∧ Left b' l (s ++ 34 :: c).length (strippedFrom (34 :: c)) r p
  := by
  have hshape : b.cells = (l ++ s.map some) ++ some 34 :: (c.map some ++ some 0 :: r) := by
    rw [hcells]
    simp
  have hshape' : b.cells = (l ++ s.map some ++ [some 34]) ++ (c.map some ++ some 0 :: r) := by
    rw [hcells]
    simp
  have hsize : s.length < b.cells.length := by
    rw [hcells]
    simp only [List.length_append, List.length_map, List.length_cons]
    omega
  have hnospace : isspace 34 = false := by decide
  have hskip := skipSpaces_eq (b := b) (l := l) (c := 34) (by simpa using hcells) hs hnospace hsize
    rfl
  have hget : b.get (l.length + s.length) = .ok 34 := Block.get_of_cells hshape (by simp)
  have hbase : (l ++ s.map some ++ [some 34]).length = l.length + s.length + 1 := by
    simp only [List.length_append, List.length_map, List.length_singleton]
  rw [trimPiece_eq hskip hget hshape' hzero (by rw [if_pos rfl, hbase])
    (by
      intro n hn
      rw [hnext n hn, hbase]
      simp only [List.length_append, List.length_cons]
      omega), strippedFrom]
  simp only [List.head?_cons, if_true, List.tail_cons]
  by_cases hblank : c.rdropWhile isspace = []
  · rw [if_pos hblank]
    by_cases hne : c = []
    · subst hne
      rw [if_neg (by simp)]
      refine ⟨b, _, rfl, s.map some ++ [some 34], [], ?_, ?_, ?_⟩
      · rw [hshape]
        simp
      · simp
      · simp
    · -- the whitespace behind the quote is passed over, and then the quote
      rw [if_pos (by simpa using hne)]
      have hall : ∀ y ∈ c, isspace y = true := List.rdropWhile_eq_nil_iff.mp hblank
      have hback := backSpaces_eq hshape hall hnospace
      have hlast : (l ++ s.map some ++ [some 34]).length + c.length - 1
          = (l ++ s.map some).length + c.length := by
        simp only [List.length_append, List.length_singleton]
        omega
      rw [hlast, hback, ok_bind, Block.get_of_cells hshape rfl, ok_bind, if_pos rfl,
        Block.put_of_cells 0 hshape rfl, ok_bind]
      refine ⟨_, _, rfl, s.map some ++ [some 0], [], ?_, ?_, ?_⟩
      · simp
      · simp only [List.length_append, List.length_map, List.length_cons, List.length_nil]
        omega
      · simp
  · rw [if_neg hblank]
    have hne : c ≠ [] := by
      rintro rfl
      exact hblank rfl
    rw [if_pos (by simpa using hne)]
    obtain ⟨t, v, hclose, rfl, hlen⟩ := close_eq hshape' rfl rfl hblank
    refine ⟨_, _, hclose, s.map some ++ [some 34], v, ?_, ?_, ?_⟩
    · simp
    · simp only [List.length_append, List.length_map, List.length_cons, List.length_nil]
      omega
    · simp

end

/-- A piece is trimmed. -/
theorem trimPiece_left {next : Option Nat} (hcells : b.cells = l ++ (w.map some ++ some 0 :: r))
    (hzero : 0 ∉ w) (hnext : ∀ n, next = some n → n = l.length + w.length + dlen) :
  ∃ b' p, trimPiece dlen b l.length next = .ok (b', p) ∧ Left b' l w.length (stripped w) r p
  := by
  have hsplit := List.takeWhile_append_dropWhile (p := isspace) (l := w)
  have hspaces : ∀ x ∈ w.takeWhile isspace, isspace x = true := fun x hx =>
    List.mem_takeWhile_imp hx
  have hhead := List.head?_dropWhile_not isspace w
  rw [stripped]
  generalize w.takeWhile isspace = s at hsplit hspaces
  generalize w.dropWhile isspace = c at hsplit hhead ⊢
  subst hsplit
  have hzeroc : 0 ∉ c := fun h => hzero (List.mem_append_right s h)
  cases c with
  | nil =>
    rw [List.append_nil] at hcells hnext ⊢
    exact trimPiece_blank hcells hspaces hnext
  | cons x c =>
    by_cases hquote : x = 34
    · subst hquote
      exact trimPiece_quote hcells (fun h => hzeroc (List.mem_cons_of_mem 34 h)) hspaces hnext
    · exact trimPiece_plain hcells hzeroc hspaces (by simpa using hhead) hquote hnext

end

/-! ### All pieces -/

/-- What is left of a piece is in the piece. -/
theorem stripped_subset (w : List UInt8) :
  stripped w ⊆ w
  := by
  have hc : w.dropWhile isspace ⊆ w := List.dropWhile_subset isspace
  rw [stripped, strippedFrom]
  generalize w.dropWhile isspace = c at hc
  have hd : (if c.head? = some 34 then c.tail else c) ⊆ w := by
    split
    · exact List.Subset.trans (List.tail_subset c) hc
    · exact hc
  generalize (if c.head? = some 34 then c.tail else c) = d at hd
  have ht : d.rdropWhile isspace ⊆ w :=
    List.Subset.trans (List.rdropWhile_prefix isspace d).subset hd
  split
  · exact hd
  · split
    · exact List.Subset.trans (List.dropLast_subset _) ht
    · exact ht

section

variable {delim : List UInt8} {ws : List (List UInt8)} {b : Block} {l : List (Option UInt8)}

theorem length_startsOf (dlen i : Nat) :
  (startsOf dlen i ws).length = ws.length
  := by
  induction ws generalizing i with
  | nil => rfl
  | cons w ws ih => rw [startsOf, List.length_cons, List.length_cons, ih]

theorem head?_startsOf {dlen i n : Nat} (h : (startsOf dlen i ws).head? = some n) :
  n = i
  := by
  cases ws with
  | nil => cases h
  | cons w ws => exact (Option.some.inj h).symm

/-- The pieces are trimmed, each in its place. -/
theorem trimPieces_reads (hdelim : delim ≠ []) (hzero : ∀ w ∈ ws, 0 ∉ w)
    (hcells : b.cells = l ++ cellsOf delim ws) :
  ∃ b' ps, trimPieces delim.length (startsOf delim.length l.length ws) b = .ok (b', ps)
    ∧ List.Forall₂ (fun p w => ∃ s, b'.string p = .ok s ∧ s.bytes = w) ps (ws.map stripped)
    ∧ ∃ r, b'.cells = l ++ r
  := by
  induction ws generalizing b l with
  | nil => exact ⟨b, [], rfl, .nil, _, hcells⟩
  | cons w ws ih =>
    have hw : 0 ∉ w := hzero w List.mem_cons_self
    have hnext : ∀ n,
        (startsOf delim.length (l.length + w.length + delim.length) ws).head? = some n →
          n = l.length + w.length + delim.length := fun n hn => head?_startsOf hn
    have hpiece : ∃ r, b.cells = l ++ (w.map some ++ some 0 :: r)
        ∧ (ws ≠ [] → r = delim.tail.map some ++ cellsOf delim ws) := by
      cases ws with
      | nil => exact ⟨[], hcells, fun h => absurd rfl h⟩
      | cons w' ws => exact ⟨_, hcells, fun _ => rfl⟩
    obtain ⟨r, hr, htail⟩ := hpiece
    obtain ⟨b₁, p, htrim, u, v, hleft, hlen, rfl⟩ :=
      @trimPiece_left delim.length b l r w _ hr hw hnext
    -- the memory up to the next piece
    have hrest : ∃ b' ps, trimPieces delim.length
          (startsOf delim.length (l.length + w.length + delim.length) ws) b₁ = .ok (b', ps)
        ∧ List.Forall₂ (fun p w => ∃ s, b'.string p = .ok s ∧ s.bytes = w) ps (ws.map stripped)
        ∧ ∃ r', b'.cells = l ++ (u ++ ((stripped w).map some ++ some 0 :: r')) := by
      by_cases hws : ws = []
      · subst hws
        exact ⟨b₁, [], rfl, .nil, _, hleft⟩
      · have hbase : (l ++ (u ++ ((stripped w).map some
            ++ some 0 :: (v ++ delim.tail.map some)))).length
              = l.length + w.length + delim.length := by
          obtain ⟨c, cs, rfl⟩ := List.exists_cons_of_ne_nil hdelim
          simp only [List.length_append, List.length_map, List.length_cons, List.tail_cons]
          omega
        obtain ⟨b', ps, hps, hreads, r', hr'⟩ := @ih b₁
          (l ++ (u ++ ((stripped w).map some ++ some 0 :: (v ++ delim.tail.map some))))
          (fun w hw => hzero w (List.mem_cons_of_mem _ hw))
          (by
            rw [hleft, htail hws]
            simp)
        rw [hbase] at hps
        refine ⟨b', ps, hps, hreads, v ++ delim.tail.map some ++ r', ?_⟩
        rw [hr']
        simp
    obtain ⟨b', ps, hps, hreads, r', hr'⟩ := hrest
    have hstring : b'.string (l.length + u.length)
        = .ok ⟨stripped w, fun h => hw (stripped_subset w h)⟩ := by
      apply @Block.string_of_cells b' (l ++ u) r' ⟨stripped w, _⟩
      · rw [hr']
        simp
      · rw [List.length_append]
    refine ⟨b', (l.length + u.length) :: ps, ?_, .cons ⟨_, hstring, rfl⟩ hreads, _, hr'⟩
    rw [startsOf, trimPieces, htrim, ok_bind]
    dsimp only
    rw [hps]
    rfl

theorem Pieces.subset {s w : List UInt8} (h : Pieces delim s ws) (hw : w ∈ ws) :
  w ⊆ s
  := by
  induction h with
  | last h =>
    rw [List.mem_singleton.mp hw]
    exact List.Subset.refl _
  | cut h hws ih =>
    cases hw with
    | head => exact List.take_subset _ _
    | tail _ hw => exact List.Subset.trans (ih hw) (List.drop_subset _ _)

/-- A string is broken down to what is left of the pieces that are cut. -/
theorem velyBreakDown_reads {value delim : CString} (hdelim : delim.bytes ≠ []) :
  ∃ ws broken, Pieces delim.bytes value.bytes ws
    ∧ velyBreakDown value delim = .ok (.ok broken) ∧ broken.numPieces = ws.length
    ∧ broken.Reads (ws.map stripped)
  := by
  obtain ⟨ws, b, hws, hcut, hcells⟩ := @cutFrom_pieces delim.bytes value.bytes hdelim
    (value.length + 1) ⟨value.block.map some⟩ [] value.nonzero (by simp [CString.block])
    (Nat.lt_succ_self _)
  obtain ⟨b', ps, htrim, hreads, -⟩ := @trimPieces_reads delim.bytes ws b [] hdelim
    (fun w hw hzero => value.nonzero (hws.subset hw hzero)) hcells
  rw [List.length_nil] at hcut htrim
  refine ⟨ws, ⟨b', (startsOf delim.length 0 ws).length, ps⟩, hws, ?_, length_startsOf _ _, hreads⟩
  rw [velyBreakDown, hcut, ok_bind]
  dsimp only [CString.length]
  rw [htrim]
  rfl

end

end BreakDown

end Vely
