import Vely.Lib.Avl
import Vely.Lib.Memory

/-!
# Doubly linked lists in memory

Every cell of a doubly linked list holds two links, one for each side.
`Linked d p xs n` says that in the memory `d` the cells at the addresses `xs` are linked
in this order, the first of them back to `p` and the last of them on to `n`.  A
`LinkedList` also records the two ends; it `Lists xs` when its cells are linked in the
order `xs` and its ends are those of `xs`.  The operations put a cell beside another,
take a cell out, and put a cell in the place of another.
-/

namespace Vely

/-- The links of a cell of a doubly linked list. -/
structure Links where
  lesser : Option Addr
  greater : Option Addr
  deriving DecidableEq

namespace Links

/-- The links of a new cell. -/
def null : Links := ⟨none, none⟩

/-- The link on the side `s`. -/
def get (s : Side) (l : Links) : Option Addr :=
  match s with
  | .lesser => l.lesser
  | .greater => l.greater

/-- Set the link on the side `s`. -/
def put (s : Side) (p : Option Addr) (l : Links) : Links :=
  match s with
  | .lesser => { l with lesser := p }
  | .greater => { l with greater := p }

end Links

/-- The cells at `xs` are linked in this order, after `p` and before `n`. -/
def Linked (d : Mem Links) : Option Addr → List Addr → Option Addr → Prop
  | _, [], _ => True
  | p, a :: xs, n => d a = some ⟨p, xs.head?.or n⟩ ∧ Linked d (some a) xs n

section Linked

variable {d d' : Mem Links} {p n : Option Addr} {xs ys : List Addr}

@[simp]
theorem linked_nil :
  Linked d p [] n
  := trivial

@[simp]
theorem linked_cons {a : Addr} :
  Linked d p (a :: xs) n ↔ d a = some ⟨p, xs.head?.or n⟩ ∧ Linked d (some a) xs n
  := Iff.rfl

/-- A linked list splits into two, each ending at the other. -/
@[simp]
theorem linked_append :
  Linked d p (xs ++ ys) n
    ↔ Linked d p xs (ys.head?.or n) ∧ Linked d (xs.getLast?.or p) ys n
  := by
  induction xs generalizing p with
  | nil => simp
  | cons a xs ih =>
    simp only [List.cons_append, linked_cons, ih, List.head?_append, Option.or_assoc,
      and_assoc]
    cases xs <;> simp [List.getLast?_cons]

/-- Linkedness reads only the cells of the list. -/
theorem Linked.frame (h : Linked d p xs n) (hd : ∀ a ∈ xs, d' a = d a) :
  Linked d' p xs n
  := by
  induction xs generalizing p with
  | nil => trivial
  | cons a xs ih =>
    rw [linked_cons] at h ⊢
    constructor
    · rw [hd a (by simp)]
      apply h.1
    · apply ih h.2
      intro b hb
      apply hd b (by simp [hb])

/-- Every cell of a linked list is live. -/
theorem Linked.live (h : Linked d p xs n) {a : Addr} (ha : a ∈ xs) :
  ∃ l, d a = some l
  := by
  induction xs generalizing p with
  | nil => cases ha
  | cons b xs ih =>
    rw [linked_cons] at h
    rcases List.mem_cons.mp ha with rfl | ha
    · exact ⟨_, h.1⟩
    · apply ih h.2 ha

/-- The links of a cell of a linked list. -/
theorem Linked.at {a : Addr} (h : Linked d p (xs ++ a :: ys) n) :
  d a = some ⟨xs.getLast?.or p, ys.head?.or n⟩
  := by
  rw [linked_append, linked_cons] at h
  apply h.2.1

/-- A link on to `b` from a cell of a linked list is answered by a link of `b` back. -/
theorem Linked.next {a b : Addr} {l : Links} (h : Linked d none xs none) (ha : a ∈ xs)
    (hl : d a = some l) (hb : l.greater = some b) :
  b ∈ xs ∧ ∃ l', d b = some l' ∧ l'.lesser = some a
  := by
  obtain ⟨us, vs, rfl⟩ := List.append_of_mem ha
  have hat := h.at
  rw [hl] at hat
  obtain rfl := Option.some.inj hat
  cases vs with
  | nil => cases hb
  | cons c ws =>
    obtain rfl := Option.some.inj hb
    rw [linked_append, linked_cons, linked_cons] at h
    exact ⟨by simp, _, h.2.2.1, rfl⟩

/-- A link back to `b` from a cell of a linked list is answered by a link of `b` on. -/
theorem Linked.prev {a b : Addr} {l : Links} (h : Linked d none xs none) (ha : a ∈ xs)
    (hl : d a = some l) (hb : l.lesser = some b) :
  b ∈ xs ∧ ∃ l', d b = some l' ∧ l'.greater = some a
  := by
  obtain ⟨us, vs, rfl⟩ := List.append_of_mem ha
  have hat := h.at
  rw [hl] at hat
  obtain rfl := Option.some.inj hat
  rcases List.eq_nil_or_concat us with rfl | ⟨ws, c, rfl⟩
  · cases hb
  · simp only [List.concat_eq_append, List.getLast?_concat, Option.some_or,
      Option.some.injEq] at hb
    subst hb
    rw [List.concat_eq_append, List.append_assoc] at h
    exact ⟨by simp, _, h.at, rfl⟩

/-- The addresses met when following the links on the side `s`, until NULL. -/
def walk (s : Side) (d : Mem Links) : Nat → Option Addr → Except Stop (List Addr)
  | _, none => .ok []
  | 0, some _ => .error .fault
  | bound + 1, some a => do
    let l ← d.read a
    return a :: (← walk s d bound (l.get s))

/-- Following the links on from the first cell visits the list. -/
theorem Linked.walk_greater {bound : Nat} (h : Linked d p xs none) (hb : xs.length ≤ bound) :
  walk .greater d bound xs.head? = .ok xs
  := by
  induction xs generalizing p bound with
  | nil => cases bound <;> rfl
  | cons a xs ih =>
    obtain ⟨bound, rfl⟩ : ∃ b, bound = b + 1 :=
      Nat.exists_eq_add_one_of_ne_zero (by rw [List.length_cons] at hb; omega)
    rw [linked_cons, Option.or_none] at h
    rw [List.head?_cons, walk, Mem.read_of h.1, ok_bind]
    simp only [Links.get, ih h.2 (by simpa using hb), ok_bind, pure_eq_ok]

/-- Following the links back from the last cell visits the list backwards. -/
theorem Linked.walk_lesser {bound : Nat} (h : Linked d none xs n) (hb : xs.length ≤ bound) :
  walk .lesser d bound xs.getLast? = .ok xs.reverse
  := by
  induction xs using List.reverseRecOn generalizing n bound with
  | nil => cases bound <;> rfl
  | append_singleton xs a ih =>
    rw [List.length_append, List.length_singleton] at hb
    obtain ⟨bound, rfl⟩ : ∃ b, bound = b + 1 :=
      Nat.exists_eq_add_one_of_ne_zero (by omega)
    have hat := h.at
    rw [linked_append] at h
    have hrest : walk .lesser d bound xs.getLast? = .ok xs.reverse := ih h.1 (by omega)
    rw [List.getLast?_concat, walk, Mem.read_of hat, ok_bind]
    simp only [Links.get, Option.or_none, hrest, ok_bind, pure_eq_ok, List.reverse_append,
      List.reverse_singleton, List.singleton_append]

end Linked

/-- The memories have the same live cells. -/
def SameLive {α β : Type} (m : Mem α) (m' : Mem β) : Prop := ∀ a, m' a = none ↔ m a = none

theorem SameLive.refl {α : Type} (m : Mem α) :
  SameLive m m
  := fun _ => Iff.rfl

theorem SameLive.trans {α β γ : Type} {m : Mem α} {m' : Mem β} {m'' : Mem γ}
    (h : SameLive m m') (h' : SameLive m' m'') :
  SameLive m m''
  := fun a => (h' a).trans (h a)

/-- Setting a live cell keeps the live cells. -/
theorem SameLive.set {α : Type} {m : Mem α} {a : Addr} {v w : α} (h : m a = some v) :
  SameLive m (m.set a w)
  := by
  intro b
  by_cases hb : b = a
  · subst hb
    simp [h]
  · rw [Mem.set_of_ne m w hb]

/-- Erasing the same address keeps two memories alike in their live cells. -/
theorem SameLive.erase {α β : Type} {m : Mem α} {m' : Mem β} (h : SameLive m m') (a : Addr) :
  SameLive (m.erase a) (m'.erase a)
  := by
  intro b
  by_cases hb : b = a
  · subst hb
    simp
  · rw [Mem.erase_of_ne _ hb, Mem.erase_of_ne _ hb, h b]

/-! ### Putting a cell beside another -/

/-- Point the cell at `p`, if any, to `v` on the side `s`. -/
def point (d : Mem Links) (p : Option Addr) (s : Side) (v : Option Addr) :
    Except Stop (Mem Links) :=
  match p with
  | some q => d.modify q (Links.put s v)
  | none => .ok d

/-- Put the cell at `a` beside the cell at `t`, on the side `s` of it. -/
def insertBeside (d : Mem Links) (s : Side) (t a : Addr) : Except Stop (Mem Links) := do
  let d ← point d ((← d.read t).get s) s.flip (some a)
  let d ← d.modify a (Links.put s ((← d.read t).get s))
  let d ← d.modify t (Links.put s (some a))
  d.modify a (Links.put s.flip (some t))

section InsertBeside

variable {d : Mem Links} {xs ys : List Addr} {t a : Addr} {la : Links}

/-- Pointing the last cell of `xs`, if any, elsewhere. -/
theorem point_last {n : Option Addr} (n' : Option Addr) (h : Linked d none xs n)
    (hnd : xs.Nodup) :
  ∃ d', point d xs.getLast? .greater n' = .ok d' ∧ Linked d' none xs n'
    ∧ (∀ b, b ∉ xs → d' b = d b) ∧ SameLive d d'
  := by
  rcases List.eq_nil_or_concat xs with rfl | ⟨zs, q, rfl⟩
  · exact ⟨d, rfl, trivial, fun _ _ => rfl, SameLive.refl d⟩
  · rw [List.concat_eq_append] at h hnd ⊢
    have hq := h.at
    have hzs : q ∉ zs := by
      intro hmem
      simp only [List.nodup_append, List.mem_singleton] at hnd
      apply hnd.2.2 q hmem q rfl rfl
    use d.set q ⟨zs.getLast?, n'⟩
    refine ⟨?_, ?_, ?_, SameLive.set hq⟩
    · rw [List.getLast?_concat, point, Mem.modify_of hq]
      simp [Links.put]
    · rw [linked_append] at h ⊢
      constructor
      · apply h.1.frame
        intro b hb
        apply Mem.set_of_ne
        rintro rfl
        apply hzs hb
      · simp
    · intro b hb
      apply Mem.set_of_ne
      rintro rfl
      simp at hb

/-- Pointing the first cell of `ys`, if any, elsewhere. -/
theorem point_head {p : Option Addr} (p' : Option Addr) (h : Linked d p ys none)
    (hnd : ys.Nodup) :
  ∃ d', point d ys.head? .lesser p' = .ok d' ∧ Linked d' p' ys none
    ∧ (∀ b, b ∉ ys → d' b = d b) ∧ SameLive d d'
  := by
  cases ys with
  | nil => exact ⟨d, rfl, trivial, fun _ _ => rfl, SameLive.refl d⟩
  | cons q zs =>
    rw [linked_cons] at h
    obtain ⟨hq, hzs⟩ := h
    use d.set q ⟨p', zs.head?⟩
    refine ⟨?_, ?_, ?_, SameLive.set hq⟩
    · rw [List.head?_cons, point, Mem.modify_of hq]
      simp [Links.put]
    · rw [linked_cons]
      constructor
      · simp
      · apply hzs.frame
        intro b hb
        apply Mem.set_of_ne
        rintro rfl
        simp [hb] at hnd
    · intro b hb
      apply Mem.set_of_ne
      rintro rfl
      simp at hb

/-- Two adjacent cells, neither on either list, link the lists on their sides. -/
theorem linked_pair {u v : Addr} (hxs : Linked d none xs (some u))
    (hys : Linked d (some v) ys none) (huv : u ≠ v) (hu : u ∉ xs ++ ys) (hv : v ∉ xs ++ ys) :
  Linked ((d.set u ⟨xs.getLast?, some v⟩).set v ⟨some u, ys.head?⟩) none
    (xs ++ u :: v :: ys) none
  := by
  have hframe : ∀ b ∈ xs ++ ys,
      ((d.set u ⟨xs.getLast?, some v⟩).set v ⟨some u, ys.head?⟩) b = d b := by
    intro b hb
    rw [Mem.set_of_ne _ _ (by rintro rfl; exact hv hb),
      Mem.set_of_ne _ _ (by rintro rfl; exact hu hb)]
  rw [linked_append, linked_cons, linked_cons]
  refine ⟨?_, ?_, ?_, ?_⟩
  · apply hxs.frame
    intro b hb
    apply hframe b (by simp [hb])
  · rw [Mem.set_of_ne _ _ huv]
    simp
  · simp
  · apply hys.frame
    intro b hb
    apply hframe b (by simp [hb])

/-- The list after `a` is put on the side `s` of `t`. -/
def beside (s : Side) (a : Addr) (xs : List Addr) (t : Addr) (ys : List Addr) :
    List Addr :=
  match s with
  | .lesser => xs ++ a :: t :: ys
  | .greater => xs ++ t :: a :: ys

theorem mem_beside {s : Side} {a b : Addr} (h : b ∈ xs ++ t :: ys) :
  b ∈ beside s a xs t ys
  := by
  cases s <;> simp only [beside, List.mem_append, List.mem_cons] at h ⊢ <;> tauto

/-- Where a list is split by the cell put beside another, the ends of its parts are those of the
old list. -/
theorem exists_beside (s : Side) (a : Addr) (xs : List Addr) (t : Addr) (ys : List Addr) :
  ∃ us vs, beside s a xs t ys = us ++ a :: vs
    ∧ (us ≠ [] → (xs ++ t :: ys).head? = us.head?)
    ∧ (vs ≠ [] → (xs ++ t :: ys).getLast? = vs.getLast?)
  := by
  cases s with
  | lesser =>
    refine ⟨xs, t :: ys, rfl, ?_, ?_⟩
    · cases xs <;> simp
    · simp [List.getLast?_append, List.getLast?_cons]
  | greater =>
    refine ⟨xs ++ [t], ys, by simp [beside], ?_, ?_⟩
    · cases xs <;> simp
    · cases ys <;> simp [List.getLast?_append, List.getLast?_cons]

/-- Putting a new cell beside a cell of a linked list links it there. -/
theorem insertBeside_spec (s : Side) (h : Linked d none (xs ++ t :: ys) none)
    (hnd : (xs ++ t :: ys).Nodup) (ha : d a = some la) (hfresh : a ∉ xs ++ t :: ys) :
  ∃ d', insertBeside d s t a = .ok d' ∧ Linked d' none (beside s a xs t ys) none
    ∧ (∀ b, b ≠ a → b ∉ xs ++ t :: ys → d' b = d b) ∧ SameLive d d'
  := by
  have ht := h.at
  rw [linked_append, linked_cons] at h
  obtain ⟨hxs, -, hys⟩ := h
  simp only [List.nodup_append, List.nodup_cons, List.mem_cons] at hnd
  obtain ⟨hndx, ⟨hty, hndy⟩, hdisj⟩ := hnd
  have htx : t ∉ xs := fun hmem => hdisj t hmem t (by simp) rfl
  have hxy : ∀ b ∈ xs, b ∉ ys := fun b hb hby => hdisj b hb b (by simp [hby]) rfl
  simp only [List.mem_append, List.mem_cons, not_or] at hfresh
  obtain ⟨hax, hat, hay⟩ := hfresh
  -- the neighbour of `t` on the side `s` is pointed to `a`; what is left is to set `a` and `t`
  obtain ⟨d1, hd1, hl1, hr1, hf1, hs1⟩ : ∃ d1,
      point d (Links.get s ⟨xs.getLast?, ys.head?⟩) s.flip (some a) = .ok d1
        ∧ Linked d1 none xs (some (if s = .lesser then a else t))
        ∧ Linked d1 (some (if s = .lesser then t else a)) ys none
        ∧ (∀ b, b ∉ xs ++ ys → d1 b = d b) ∧ SameLive d d1 := by
    cases s with
    | lesser =>
      obtain ⟨d1, hd1, hl1, hf1, hs1⟩ := point_last (some a) hxs hndx
      refine ⟨d1, hd1, hl1, hys.frame ?_, ?_, hs1⟩
      · intro b hb
        apply hf1
        intro hbx
        apply hxy b hbx hb
      · intro b hb
        apply hf1
        intro hbx
        apply hb (by simp [hbx])
    | greater =>
      obtain ⟨d1, hd1, hr1, hf1, hs1⟩ := point_head (some a) hys hndy
      refine ⟨d1, hd1, hxs.frame ?_, hr1, ?_, hs1⟩
      · intro b hb
        apply hf1 b (hxy b hb)
      · intro b hb
        apply hf1
        intro hby
        apply hb (by simp [hby])
  have ht1 : d1 t = some ⟨xs.getLast?, ys.head?⟩ := by
    rw [hf1 t (by simp [htx, hty]), ht]
    simp
  have ha1 : d1 a = some la := by rw [hf1 a (by simp [hax, hay]), ha]
  have hta : t ≠ a := Ne.symm hat
  refine ⟨(d1.set a (Links.put s.flip (some t)
      (Links.put s (Links.get s ⟨xs.getLast?, ys.head?⟩) la))).set t
      (Links.put s (some a) ⟨xs.getLast?, ys.head?⟩), ?_, ?_, ?_, ?_⟩
  · simp only [Option.or_none] at ht
    rw [insertBeside, Mem.read_of ht, ok_bind, hd1, ok_bind, Mem.read_of ht1, ok_bind,
      Mem.modify_of ha1, ok_bind, Mem.modify_of (by rw [Mem.set_of_ne _ _ hta, ht1]), ok_bind,
      Mem.modify_of (by rw [Mem.set_of_ne _ _ hat, Mem.set_self]),
      Mem.set_comm _ _ _ hta, Mem.set_set]
  · cases s with
    | lesser =>
      apply linked_pair hl1 hr1 hat (by simp [hax, hay]) (by simp [htx, hty])
    | greater =>
      rw [Mem.set_comm _ _ _ hat]
      apply linked_pair hl1 hr1 hta (by simp [htx, hty]) (by simp [hax, hay])
  · intro b hba hb
    simp only [List.mem_append, List.mem_cons, not_or] at hb
    rw [Mem.set_of_ne _ _ hb.2.1, Mem.set_of_ne _ _ hba, hf1 b (by simp [hb.1, hb.2.2])]
  · apply (hs1.trans (SameLive.set ha1)).trans
    apply SameLive.set (v := ⟨xs.getLast?, ys.head?⟩)
    rw [Mem.set_of_ne _ _ hta, ht1]

end InsertBeside

/-! ### Lists with recorded ends -/

/-- A doubly linked list in memory with its first and its last cell. -/
structure LinkedList where
  links : Mem Links
  min : Option Addr
  max : Option Addr

namespace LinkedList

/-- The cells are linked in the order `xs`, and the ends are those of `xs`. -/
structure Lists (l : LinkedList) (xs : List Addr) : Prop where
  linked : Linked l.links none xs none
  min : l.min = xs.head?
  max : l.max = xs.getLast?

/-- The list `l` made from the cells of `d` lists `xs`: it has the live cells of `d`, and those
neither in `xs` nor at `a` are as they were. -/
structure Relinked (d : Mem Links) (l : LinkedList) (a : Addr) (xs : List Addr) : Prop where
  lists : l.Lists xs
  live : SameLive d l.links
  frame : ∀ b, b ∉ xs → b ≠ a → l.links b = d b

/-- Record `v` as the end on the side `s`. -/
def setEnd (s : Side) (v : Option Addr) (l : LinkedList) : LinkedList :=
  match s with
  | .lesser => { l with min := v }
  | .greater => { l with max := v }

/-- Make `v` what comes after `p` when coming from the side `s`: the link of `p` away from
`s`, or the end on the side `s` when `p` is NULL. -/
def redirect (l : LinkedList) (s : Side) (p v : Option Addr) : Except Stop LinkedList :=
  match p with
  | some q => do
    let links ← l.links.modify q (Links.put s.flip v)
    return { l with links }
  | none => .ok (l.setEnd s v)

/-- Take the cell at `t` out of the list. -/
def unlink (l : LinkedList) (t : Addr) : Except Stop LinkedList := do
  let c ← l.links.read t
  let l ← l.redirect .lesser c.lesser c.greater
  let c ← l.links.read t
  l.redirect .greater c.greater c.lesser

/-- Put the cell at `t` in the place of the cell at `r`. -/
def replace (l : LinkedList) (t r : Addr) : Except Stop LinkedList := do
  let links ← l.links.modify t (Links.put .lesser (← l.links.read r).lesser)
  let links ← links.modify t (Links.put .greater (← links.read r).greater)
  let l := { l with links }
  let l ← l.redirect .lesser (← l.links.read r).lesser (some t)
  l.redirect .greater (← l.links.read r).greater (some t)

variable {l : LinkedList} {xs ys : List Addr} {t r : Addr}

/-- Redirecting at the last cell of `xs`, or at the beginning when there is none. -/
theorem redirect_lesser {n : Option Addr} (v : Option Addr) (h : Linked l.links none xs n)
    (hnd : xs.Nodup) :
  ∃ links, l.redirect .lesser xs.getLast? v
      = .ok { links, min := if xs = [] then v else l.min, max := l.max }
    ∧ Linked links none xs v ∧ (∀ b, b ∉ xs → links b = l.links b) ∧ SameLive l.links links
  := by
  obtain ⟨links, hlinks, hl, hf, hs⟩ := point_last v h hnd
  refine ⟨links, ?_, hl, hf, hs⟩
  rcases List.eq_nil_or_concat xs with rfl | ⟨zs, q, rfl⟩
  · cases hlinks
    rfl
  · simp only [List.concat_eq_append, List.getLast?_concat, point] at hlinks
    simp [redirect, Side.flip, hlinks]

/-- Redirecting at the first cell of `ys`, or at the end when there is none. -/
theorem redirect_greater {p : Option Addr} (v : Option Addr) (h : Linked l.links p ys none)
    (hnd : ys.Nodup) :
  ∃ links, l.redirect .greater ys.head? v
      = .ok { links, min := l.min, max := if ys = [] then v else l.max }
    ∧ Linked links v ys none ∧ (∀ b, b ∉ ys → links b = l.links b) ∧ SameLive l.links links
  := by
  obtain ⟨links, hlinks, hl, hf, hs⟩ := point_head v h hnd
  refine ⟨links, ?_, hl, hf, hs⟩
  cases ys with
  | nil =>
    cases hlinks
    rfl
  | cons q zs =>
    simp only [List.head?_cons, point] at hlinks
    simp [redirect, Side.flip, hlinks]

/-- Taking a cell out of a list leaves the list without it. -/
theorem unlink_spec (h : l.Lists (xs ++ t :: ys)) (hnd : (xs ++ t :: ys).Nodup) :
  ∃ l', l.unlink t = .ok l' ∧ l'.Lists (xs ++ ys)
    ∧ (∀ b, b ∉ xs ++ ys → l'.links b = l.links b) ∧ SameLive l.links l'.links
  := by
  obtain ⟨hlinked, hmin, hmax⟩ := h
  have ht := hlinked.at
  rw [linked_append, linked_cons] at hlinked
  obtain ⟨hxs, -, hys⟩ := hlinked
  simp only [List.nodup_append, List.nodup_cons, List.mem_cons] at hnd
  obtain ⟨hndx, ⟨hty, hndy⟩, hdisj⟩ := hnd
  have htx : t ∉ xs := fun hmem => hdisj t hmem t (by simp) rfl
  have hxy : ∀ b ∈ xs, b ∉ ys := fun b hb hby => hdisj b hb b (by simp [hby]) rfl
  simp only [Option.or_none] at ht
  obtain ⟨d1, hd1, hl1, hf1, hs1⟩ := redirect_lesser ys.head? hxs hndx
  have ht1 : d1 t = some ⟨xs.getLast?, ys.head?⟩ := by rw [hf1 t htx, ht]
  have hys1 : Linked d1 (some t) ys none := by
    apply hys.frame
    intro b hb
    apply hf1
    intro hbx
    apply hxy b hbx hb
  obtain ⟨d2, hd2, hl2, hf2, hs2⟩ := redirect_greater
    (l := { links := d1, min := if xs = [] then ys.head? else l.min, max := l.max })
    xs.getLast? hys1 hndy
  refine ⟨{
    links := d2
    min := if xs = [] then ys.head? else l.min
    max := if ys = [] then xs.getLast? else l.max }, ?_, ⟨?_, ?_, ?_⟩, ?_, hs1.trans hs2⟩
  · rw [unlink, Mem.read_of ht, ok_bind, hd1, ok_bind, Mem.read_of ht1, ok_bind, hd2]
  · rw [linked_append]
    constructor
    · rw [Option.or_none]
      apply hl1.frame
      intro b hb
      apply hf2 b (hxy b hb)
    · rw [Option.or_none]
      apply hl2
  · cases xs with
    | nil => simp
    | cons => simp [hmin]
  · cases ys with
    | nil => simp
    | cons => simp [hmax, List.getLast?_append, List.getLast?_cons]
  · intro b hb
    simp only [List.mem_append, not_or] at hb
    show d2 b = l.links b
    rw [hf2 b hb.2]
    apply hf1 b hb.1

/-- Putting a cell in the place of another leaves the list with the one for the other. -/
theorem replace_spec {lt : Links} (h : l.Lists (xs ++ r :: ys)) (hnd : (xs ++ r :: ys).Nodup)
    (ht : l.links t = some lt) (hfresh : t ∉ xs ++ r :: ys) :
  ∃ l', l.replace t r = .ok l' ∧ l'.Lists (xs ++ t :: ys)
    ∧ (∀ b, b ≠ t → b ∉ xs ++ ys → l'.links b = l.links b) ∧ SameLive l.links l'.links
  := by
  obtain ⟨hlinked, hmin, hmax⟩ := h
  have hr := hlinked.at
  rw [linked_append, linked_cons] at hlinked
  obtain ⟨hxs, -, hys⟩ := hlinked
  simp only [List.nodup_append, List.nodup_cons, List.mem_cons] at hnd
  obtain ⟨hndx, ⟨hry, hndy⟩, hdisj⟩ := hnd
  have hrx : r ∉ xs := fun hmem => hdisj r hmem r (by simp) rfl
  have hxy : ∀ b ∈ xs, b ∉ ys := fun b hb hby => hdisj b hb b (by simp [hby]) rfl
  simp only [List.mem_append, List.mem_cons, not_or] at hfresh
  obtain ⟨htx, htr, hty⟩ := hfresh
  have hrt : r ≠ t := Ne.symm htr
  simp only [Option.or_none] at hr
  -- the links of `r` are copied to `t` first, then its two neighbours are pointed to `t`
  have hset : ∀ b, b ≠ t → (l.links.set t ⟨xs.getLast?, ys.head?⟩) b = l.links b :=
    fun b hb => Mem.set_of_ne _ _ hb
  have hxs0 : Linked (l.links.set t ⟨xs.getLast?, ys.head?⟩) none xs
      ((r :: ys).head?.or none) := by
    apply hxs.frame
    intro b hb
    apply hset
    rintro rfl
    apply htx hb
  obtain ⟨d1, hd1, hl1, hf1, hs1⟩ := redirect_lesser
    (l := { links := l.links.set t ⟨xs.getLast?, ys.head?⟩, min := l.min, max := l.max })
    (some t) hxs0 hndx
  have hys1 : Linked d1 (some r) ys none := by
    apply hys.frame
    intro b hb
    rw [hf1 b (fun hbx => hxy b hbx hb)]
    apply hset
    rintro rfl
    apply hty hb
  obtain ⟨d2, hd2, hl2, hf2, hs2⟩ := redirect_greater
    (l := { links := d1, min := if xs = [] then some t else l.min, max := l.max })
    (some t) hys1 hndy
  refine ⟨{
    links := d2
    min := if xs = [] then some t else l.min
    max := if ys = [] then some t else l.max }, ?_, ⟨?_, ?_, ?_⟩, ?_,
    ((SameLive.set ht).trans hs1).trans hs2⟩
  · rw [replace, Mem.read_of hr, ok_bind, Mem.modify_of ht, ok_bind,
      Mem.read_of (by rw [Mem.set_of_ne _ _ hrt, hr]), ok_bind,
      Mem.modify_of (Mem.set_self ..), ok_bind, Mem.set_set]
    simp only [Links.put]
    have hr1 : d1 r = some ⟨xs.getLast?, ys.head?⟩ := by
      rw [hf1 r hrx]
      exact (hset r hrt).trans hr
    rw [Mem.read_of (by rw [hset r hrt, hr]), ok_bind, hd1, ok_bind, Mem.read_of hr1, ok_bind,
      hd2]
  · rw [linked_append, linked_cons]
    refine ⟨?_, ?_, hl2⟩
    · apply hl1.frame
      intro b hb
      apply hf2 b (hxy b hb)
    · show d2 t = _
      rw [hf2 t hty]
      apply (hf1 t htx).trans
      simp
  · cases xs with
    | nil => simp
    | cons => simp [hmin]
  · cases ys with
    | nil => simp
    | cons => simp [hmax, List.getLast?_append, List.getLast?_cons]
  · intro b hbt hb
    simp only [List.mem_append, not_or] at hb
    show d2 b = l.links b
    rw [hf2 b hb.2]
    apply (hf1 b hb.1).trans (hset b hbt)

/-- Taking a cell out and putting it in the place of the next leaves the list without the
next. -/
theorem takeOver_spec (h : l.Lists (xs ++ t :: r :: ys)) (hnd : (xs ++ t :: r :: ys).Nodup) :
  ∃ l1 l2, l.unlink t = .ok l1 ∧ l1.replace t r = .ok l2
    ∧ Relinked l.links l2 r (xs ++ t :: ys)
  := by
  obtain ⟨l1, hl1, hlists1, hframe1, hlive1⟩ := unlink_spec h hnd
  obtain ⟨c, hc⟩ : ∃ c, l1.links t = some c := by
    apply Option.ne_none_iff_exists'.mp
    obtain ⟨c, hc⟩ := h.linked.live (a := t) (by simp)
    simp [hlive1 t, hc]
  obtain ⟨hndr, htr⟩ := List.nodup_middle.mp hnd |> List.nodup_cons.mp |>.symm
  obtain ⟨l2, hl2, hlists2, hframe2, hlive2⟩ := replace_spec hlists1 hndr hc htr
  refine ⟨l1, l2, hl1, hl2, hlists2, hlive1.trans hlive2, ?_⟩
  intro b hb hbr
  simp only [List.mem_append, List.mem_cons, not_or] at hb
  rw [hframe2 b hb.2.1 (by simp [hb.1, hb.2.2]), hframe1 b (by simp [hb.1, hb.2.2, hbr])]

end LinkedList

end Vely
