import Vely.Lib.CString

/-!
# Blocks of bytes

A block is a row of cells.  A cell that was not written since the block was allocated holds
nothing, and reading it is a fault, as is reaching outside of the block.
-/

namespace Vely

/-- The cells of a block. -/
structure Block where
  cells : List (Option UInt8)

namespace Block

/-- A block of `n` cells. -/
def alloc (n : Nat) : Block := ⟨List.replicate n none⟩

/-- The byte in cell `i`. -/
def get (b : Block) (i : Nat) : Except Stop UInt8 :=
  match b.cells[i]? with
  | some (some c) => .ok c
  | _ => .error .fault

/-- A byte is written to cell `i`. -/
def put (b : Block) (i : Nat) (c : UInt8) : Except Stop Block :=
  if i < b.cells.length then .ok ⟨b.cells.set i (some c)⟩ else .error .fault

/-- Bytes are written to the cells from `i` on. -/
def putAll (b : Block) : Nat → List UInt8 → Except Stop Block
  | _, [] => .ok b
  | i, c :: cs => do
    let b ← b.put i c
    b.putAll (i + 1) cs

/-- The `n` cells from `source` on are copied to those from `i` on (`memmove`). -/
def move (b : Block) (i source n : Nat) : Except Stop Block :=
  if source + n ≤ b.cells.length ∧ i + n ≤ b.cells.length then
    .ok ⟨b.cells.take i ++ (b.cells.drop source).take n ++ b.cells.drop (i + n)⟩
  else .error .fault

/-- The block is moved to one of `n` cells. -/
def realloc (b : Block) (n : Nat) : Block :=
  ⟨b.cells.take n ++ List.replicate (n - b.cells.length) none⟩

/-- The first `n` cells of a block. -/
def cut (b : Block) (n : Nat) : Block := ⟨b.cells.take n⟩

/-- The string whose bytes are in the first cells. -/
def stringOf : List (Option UInt8) → Except Stop CString
  | some c :: r =>
    if h : c = 0 then .ok CString.empty
    else do
      let s ← stringOf r
      return ⟨c :: s.bytes, by simp [s.nonzero, Ne.symm h]⟩
  | _ => .error .fault

/-- The string at cell `i`. -/
def string (b : Block) (i : Nat) : Except Stop CString := stringOf (b.cells.drop i)

/-! ### Reading and writing -/

theorem get_of_cells {b : Block} {l r : List (Option UInt8)} {c : UInt8} {i : Nat}
    (h : b.cells = l ++ some c :: r) (hi : i = l.length) :
  b.get i = .ok c
  := by
  subst hi
  simp [get, h]

theorem get_of_length_le {b : Block} {i : Nat} (h : b.cells.length ≤ i) :
  b.get i = .error .fault
  := by
  simp [get, h]

theorem put_of_cells {b : Block} {l r : List (Option UInt8)} {x : Option UInt8} {i : Nat}
    (c : UInt8) (h : b.cells = l ++ x :: r) (hi : i = l.length) :
  b.put i c = .ok ⟨l ++ some c :: r⟩
  := by
  subst hi
  simp [put, h]

/-- A write inside the block does not fault. -/
theorem put_of_lt {b : Block} {i : Nat} (c : UInt8) (h : i < b.cells.length) :
  b.put i c = .ok ⟨b.cells.set i (some c)⟩
  := if_pos h

/-- A string is found up to its terminator. -/
theorem stringOf_append (s : CString) (r : List (Option UInt8)) :
  stringOf (s.bytes.map some ++ some 0 :: r) = .ok s
  := by
  obtain ⟨bytes, nonzero⟩ := s
  induction bytes with
  | nil => rfl
  | cons c cs ih =>
    have hc : c ≠ 0 := by
      rintro rfl
      apply nonzero
      simp
    have hcs : 0 ∉ cs := by
      intro h
      apply nonzero
      simp [h]
    simp only [List.map_cons, List.cons_append, stringOf, dif_neg hc, ih hcs]
    rfl

theorem string_of_cells {b : Block} {l r : List (Option UInt8)} (s : CString) {i : Nat}
    (h : b.cells = l ++ (s.bytes.map some ++ some 0 :: r)) (hi : i = l.length) :
  b.string i = .ok s
  := by
  subst hi
  rw [string, h, List.drop_left]
  apply stringOf_append

/-- No string starts outside of the block. -/
theorem string_of_length_le {b : Block} {i : Nat} (h : b.cells.length ≤ i) :
  b.string i = .error .fault
  := by
  rw [string, List.drop_of_length_le h]
  rfl

/-- Bytes are written over cells. -/
theorem putAll_of_cells {b : Block} {l xs r : List (Option UInt8)} {bs : List UInt8} {i : Nat}
    (h : b.cells = l ++ xs ++ r) (hi : i = l.length) (hlen : xs.length = bs.length) :
  b.putAll i bs = .ok ⟨l ++ bs.map some ++ r⟩
  := by
  induction bs generalizing b l xs i with
  | nil =>
    obtain rfl : xs = [] := List.length_eq_zero_iff.mp hlen
    rw [putAll, List.map_nil, ← h]
  | cons c bs ih =>
    cases xs with
    | nil => cases hlen
    | cons x xs =>
      rw [putAll, put_of_cells (l := l) (x := x) (r := xs ++ r) c (by simp [h]) hi, ok_bind]
      rw [@ih _ (l ++ [some c]) xs _ (by simp) (by simp [hi]) (by simpa using hlen)]
      simp

/-- Bytes are written inside the block. -/
theorem putAll_of_le {b : Block} {i : Nat} {bs : List UInt8} (h : i + bs.length ≤ b.cells.length) :
  ∃ b', b.putAll i bs = .ok b' ∧ b'.cells.length = b.cells.length
  := by
  have hcells : b.cells = b.cells.take i ++ (b.cells.drop i).take bs.length
      ++ b.cells.drop (i + bs.length) := by
    rw [List.append_assoc, ← List.drop_drop, List.take_append_drop, List.take_append_drop]
  refine ⟨_, putAll_of_cells hcells ?_ ?_, ?_⟩
  · rw [List.length_take]
    omega
  · rw [List.length_take, List.length_drop]
    omega
  · simp only [List.length_append, List.length_take, List.length_map, List.length_drop]
    omega

/-- The end of a text is moved, as far as there are cells for it: what is between the places where
it was and where it is now is left as it is, or is the end of what was moved. -/
theorem move_of_cells {b : Block} {l m xs r : List (Option UInt8)} {i source n : Nat}
    (h : b.cells = l ++ m ++ xs ++ r) (hi : l.length ≤ i) (hs : source = (l ++ m).length)
    (hn : n = xs.length) (hle : i + n ≤ b.cells.length) :
  ∃ m' r', b.move i source n = .ok ⟨l ++ m' ++ xs ++ r'⟩ ∧ (l ++ m').length = i
    ∧ (l ++ m' ++ xs ++ r').length = b.cells.length
  := by
  subst hs hn
  have hsource : (l ++ m).length + xs.length ≤ b.cells.length := by
    rw [h]
    simp only [List.length_append]
    omega
  have htake : b.cells.take i = l ++ (b.cells.take i).drop l.length := by
    have hl : l <+: b.cells.take i := by
      rw [List.prefix_take_iff, h, List.append_assoc, List.append_assoc]
      exact ⟨List.prefix_append _ _, hi⟩
    obtain ⟨m', hm'⟩ := hl
    rw [← hm', List.drop_left]
  have hxs : (b.cells.drop (l ++ m).length).take xs.length = xs := by
    rw [h, List.append_assoc (l ++ m), List.drop_left, List.take_left]
  refine ⟨(b.cells.take i).drop l.length, b.cells.drop (i + xs.length), ?_, ?_, ?_⟩
  · rw [move, if_pos ⟨hsource, hle⟩, hxs, ← htake]
  · rw [← htake, List.length_take]
    omega
  · rw [← htake]
    simp only [List.length_append, List.length_take, List.length_drop]
    omega

/-- A part of a string is replaced by other bytes, when there are cells for them: the end of the
string is moved, and the bytes are written over the part. -/
theorem splice {b : Block} {l r : List (Option UInt8)} {x m y subst : List UInt8}
    (hcells : b.cells = l ++ ((x ++ m ++ y).map some ++ some 0 :: r))
    (hfit : l.length + x.length + subst.length + y.length + 1 ≤ b.cells.length) :
  ∃ b₁ b₂ r',
    b.move (l.length + x.length + subst.length) (l.length + x.length + m.length) (y.length + 1)
        = .ok b₁
      ∧ b₁.putAll (l.length + x.length) subst = .ok b₂
      ∧ b₂.cells = l ++ ((x ++ subst ++ y).map some ++ some 0 :: r')
      ∧ b₂.cells.length = b.cells.length
  := by
  have hparts : b.cells = (l ++ x.map some) ++ m.map some ++ (y.map some ++ [some 0]) ++ r := by
    rw [hcells]
    simp
  obtain ⟨m', r', hmove, hm', hlen⟩ := @move_of_cells b _ _ _ _
    (l.length + x.length + subst.length) (l.length + x.length + m.length) (y.length + 1) hparts
    (by simp only [List.length_append, List.length_map]; omega)
    (by simp only [List.length_append, List.length_map])
    (by simp only [List.length_append, List.length_map, List.length_singleton])
    (by omega)
  simp only [List.length_append, List.length_map] at hm'
  have hput := @putAll_of_cells ⟨l ++ x.map some ++ m' ++ (y.map some ++ [some 0]) ++ r'⟩
    (l ++ x.map some) m' (y.map some ++ [some 0] ++ r') subst (l.length + x.length)
    (by simp)
    (by simp)
    (by omega)
  refine ⟨_, _, r', hmove, hput, ?_, ?_⟩
  · simp
  · rw [← hlen]
    simp only [List.length_append, List.length_map]
    omega

/-- Bytes are not written outside of the block. -/
theorem putAll_of_lt {b : Block} {i : Nat} {bs : List UInt8} (h : b.cells.length < i + bs.length)
    (hi : i ≤ b.cells.length) :
  b.putAll i bs = .error .fault
  := by
  induction bs generalizing b i with
  | nil =>
    rw [List.length_nil] at h
    omega
  | cons c bs ih =>
    rw [List.length_cons] at h
    rw [putAll, put]
    split
    · apply ih
      · simp only [List.length_set]
        omega
      · simp only [List.length_set]
        omega
    · rfl

end Block

/-! ### The first bytes -/

/-- The first bytes of some memory. -/
def firstBytes (b : Block) : Nat → Except Stop (List UInt8)
  | 0 => .ok []
  | n + 1 => do
    let bytes ← firstBytes b n
    let c ← b.get n
    return bytes ++ [c]

theorem firstBytes_of_cells {b : Block} {bytes : List UInt8} {r : List (Option UInt8)}
    (h : b.cells = bytes.map some ++ r) :
  firstBytes b bytes.length = .ok bytes
  := by
  have hall : ∀ n ≤ bytes.length, firstBytes b n = .ok (bytes.take n) := by
    intro n hn
    induction n with
    | zero => rfl
    | succ n ih =>
      have hget : b.get n = .ok bytes[n] := by
        apply Block.get_of_cells (l := (bytes.take n).map some)
          (r := (bytes.drop (n + 1)).map some ++ r)
        · rw [h]
          conv_lhs => rw [← List.take_append_drop n bytes, List.drop_eq_getElem_cons hn]
          rw [List.map_append, List.map_cons, List.append_assoc, List.cons_append]
        · simp [Nat.le_of_succ_le hn]
      rw [firstBytes, ih (Nat.le_of_succ_le hn), ok_bind, hget, ok_bind, pure_eq_ok,
        List.take_append_getElem]
  rw [hall _ (Nat.le_refl _), List.take_length]

end Vely
