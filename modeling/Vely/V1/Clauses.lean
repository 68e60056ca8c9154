import Mathlib.Data.List.Forall2
import Mathlib.Data.List.Nodup
import Vely.V1.Scan

/-!
# The clauses of a statement, in any order

A statement is written as its name, a blank, its object and its clauses, each after a blank.
`Extracted` says that its clauses are found and carved as they are written.
-/

namespace Vely

namespace V1

/-- A keyword of a statement: a word that quotes and parentheses are not in.  A keyword with blanks
around it is not found twice in a row, and one that data follows ends with a blank if it is a human
word. -/
structure Key extends Keyword where
  starts : ∀ c ∈ bytes.head?, isspace c = false
  nonempty : bytes ≠ []
  noBlank : 32 ∉ bytes.dropLast
  isPlain : ∀ c ∈ bytes, plain c = true ∧ c ≠ 0 ∧ c ≠ 59 ∧ c ≠ 62
  apart : hasSpaces = true → Apart bytes
  trailing : hasData = .always → bytes.head?.any isalpha = true → bytes.getLast? = some 32

theorem Key.word (k : Key) :
  Word k.bytes
  := by
  use ?_, k.noBlank, k.nonempty
  rintro c hc rfl
  exact absurd (k.starts 32 hc) (by decide)

/-- The last byte of a text is neither `;` nor `>`. -/
def Ended (s : List UInt8) : Prop := ∀ c ∈ s.getLast?, c ≠ 59 ∧ c ≠ 62

instance (s : List UInt8) : Decidable (Ended s) :=
  inferInstanceAs (Decidable (∀ c ∈ s.getLast?, c ≠ 59 ∧ c ≠ 62))

/-- A clause: a keyword and its value. -/
structure Clause where
  key : Key
  value : List UInt8
  noZero : 0 ∉ value
  ended : Ended value
  noData : key.hasData = .no → value = []
  spaced : key.hasSpaces = true → key.bytes.getLast? = some 32 ∨ Blank value

namespace Clause

/-- A clause as it is written, after a blank. -/
def chunk (c : Clause) : List UInt8 := 32 :: c.key.bytes ++ c.value

/-- The text of a clause.  Blanks before a value that is optional are not of it. -/
def own (c : Clause) : List UInt8 :=
  if c.key.hasData = .sometimes then c.value.dropWhile isspace else c.value

end Clause

/-- A statement as it is written: its name, the keywords that are looked for, its object and its
clauses. When it is within `<<` and `>>`, `rest` is what is after that. -/
structure Written where
  name : List UInt8
  keys : List Key
  obj : List UInt8
  clauses : List Clause
  rest : Option (List UInt8)
  withinInline : Bool
  objNoZero : 0 ∉ obj
  objEnded : Ended obj
  distinct : (keys.map fun k => k.bytes).Nodup
  known : ∀ c ∈ clauses, c.key ∈ keys
  once : (clauses.map fun c => c.key.bytes).Nodup
  mandatory : ∀ k ∈ keys, k.isMandatory = true → ∃ c ∈ clauses, c.key = k
  inline : rest.isSome = true → withinInline = true

/-- The clauses as they are written. -/
def chunks (cs : List Clause) : List UInt8 := cs.flatMap Clause.chunk

/-- The place of the keyword `k` in the clauses. -/
def place (k : Key) : List Clause → Option Nat
  | [] => none
  | c :: cs => if c.key.bytes = k.bytes then some 1 else (place k cs).map (c.chunk.length + ·)

/-- The clause of the keyword `k`. -/
def clauseOf (k : Key) (cs : List Clause) : Option Clause := cs.find? fun c => c.key.bytes = k.bytes

/-- A string is the text `own`, apart from the blank before the next clause. -/
def Own (own s : List UInt8) : Prop := s = own ∨ s = own ++ [32]

/-- The string of the keyword `k` is the text of its clause, and there is none when it has no
clause. -/
def Carved (cs : List Clause) (mem : List UInt8) (k : Key) (q : Option Nat) : Prop :=
  match clauseOf k cs with
  | some c => ∃ i, q = some i ∧ Own c.own (stringAt mem i)
  | none => q = none

namespace Written

variable (s : Written)

/-- The object as it is written, after a blank. -/
def head : List UInt8 := 32 :: s.obj

/-- The text of the statement, with the clauses in the order `cs`. -/
def text (cs : List Clause) : List UInt8 := s.head ++ chunks cs

/-- What comes after the text. -/
def tail : List UInt8 :=
  match s.rest with
  | some more => inlineEnd ++ more
  | none => []

/-- The statement, with the clauses in the order `cs`. -/
def line (cs : List Clause) : List UInt8 := s.name ++ (s.text cs ++ s.tail)

/-- The keywords that are looked for. -/
def keywords : List Keyword := s.keys.map Key.toKeyword

/-- The places of the clauses in the text. -/
def places (cs : List Clause) : List (Option Nat) :=
  s.keys.map fun k => (place k cs).map (s.head.length + ·)

/-- The statement is recognized, each clause is found where it is written, and what is carved is the
object and the text of each clause. -/
structure Extracted (cs : List Clause) : Prop where
  recognized : recogStatement s.withinInline (s.line cs) s.name false =
    .ok (s.withinInline && s.rest.isNone,
      some ⟨s.text cs, s.rest.isSome, s.name.length + (s.text cs).length + 1⟩)
  found : findAll (s.text cs) s.keywords = .ok (s.places cs)
  carved : ∃ mem qs, carveAll (s.text cs ++ [0]) (s.keywords.zip (s.places cs)) = .ok (mem, qs)
    ∧ Own s.head (stringAt mem 0) ∧ List.Forall₂ (Carved cs mem) s.keys qs

/-- A blank, if something follows. -/
def gap (follows : Bool) : List UInt8 := if follows then [32] else []

/-- The object and each value is closed by itself, as quotes and parentheses are counted, and in
none of them is `>>` seen, or the keyword of another clause. -/
structure Separate : Prop where
  closedObj : Closed s.obj
  closed : ∀ c ∈ s.clauses, Closed c.value
  noEndObj : ∀ q, ¬ Seen s.head inlineEnd false q
  noEnd : ∀ c ∈ s.clauses, ∀ q, ¬ Seen c.chunk inlineEnd false q
  noKeyObj : ∀ k ∈ s.keys, ∀ q, ¬ Seen (s.head ++ gap (0 < s.clauses.length)) k.bytes k.hasSpaces q
  noKey : ∀ k ∈ s.keys, ∀ c ∈ s.clauses, c.key.bytes ≠ k.bytes →
    ∀ q, ¬ Seen (c.chunk ++ gap (1 < s.clauses.length)) k.bytes k.hasSpaces q

end Written

section Places

variable {k : Key} {c : Clause} {cs : List Clause} {s : Written}

/-- A key is known by its keyword. -/
theorem Written.key_eq (s : Written) (hc : c ∈ s.clauses) (hk : k ∈ s.keys) (h : c.key.bytes = k.bytes) :
  c.key = k
  := List.inj_on_of_nodup_map s.distinct (s.known c hc) hk h

theorem chunks_cons :
  chunks (c :: cs) = c.chunk ++ chunks cs
  := rfl

theorem blank_chunks (cs : List Clause) :
  Blank (chunks cs)
  := by
  cases cs with
  | nil => exact blank_nil
  | cons c cs => exact blank_cons

/-- A clause is closed when its value is. -/
theorem closed_chunk :
  Closed c.chunk ↔ Closed c.value
  := by
  apply closed_plain_append (s := 32 :: c.key.bytes)
  intro d hd
  obtain rfl | hd := List.mem_cons.mp hd
  · decide
  · exact (c.key.isPlain d hd).1

theorem closed_head :
  Closed s.head ↔ Closed s.obj
  := by
  apply closed_plain_append (s := [32])
  intro d hd
  rw [List.mem_singleton.mp hd]
  decide

/-- The keyword of a clause is seen after the blank. -/
theorem seen_own (hblank : Blank (chunks cs)) :
  Seen (c.chunk ++ chunks cs) c.key.bytes c.key.hasSpaces 1
  := by
  have hdrop : (c.chunk ++ chunks cs).drop 1 = c.key.bytes ++ (c.value ++ chunks cs) := by
    simp [Clause.chunk]
  have hpos := List.length_pos_of_ne_nil c.key.nonempty
  use ⟨_, hdrop.symm⟩
  · intro _ _
    right
    rfl
  · intro hsp
    have hnext : charAt (c.chunk ++ chunks cs) (1 + c.key.bytes.length) = charAt (c.value ++ chunks cs) 0 := by
      have hshape : c.chunk ++ chunks cs = (32 :: c.key.bytes) ++ (c.value ++ chunks cs) := by
        simp [Clause.chunk]
      rw [hshape, Nat.add_comm, ← List.length_cons (a := (32 : UInt8)), charAt_length]
    obtain hlast | hvalue := c.spaced hsp
    · left
      have hshape : c.chunk ++ chunks cs = [32] ++ (c.key.bytes ++ (c.value ++ chunks cs)) := by
        simp [Clause.chunk]
      have hlt : c.key.bytes.length - 1 < c.key.bytes.length := by omega
      rw [hshape, Nat.add_sub_assoc hpos, ← List.length_singleton (a := (32 : UInt8)), charAt_append_add,
        charAt_append_lt hlt, charAt, ← List.getLast?_eq_getElem?, hlast]
      rfl
    · right
      rw [hnext]
      cases hv : c.value with
      | nil =>
        rw [List.nil_append]
        cases hc : chunks cs with
        | nil => exact Or.inl rfl
        | cons d t =>
          rw [hc] at hblank
          obtain rfl := hblank d rfl
          exact Or.inr rfl
      | cons d v =>
        rw [hv] at hvalue
        obtain rfl := hvalue d rfl
        exact Or.inr rfl
  · show Closed [32]
    decide

/-- The keyword is first seen at its place in the clauses. -/
theorem first_place (hclosed : ∀ c ∈ cs, Closed c.value)
    (hkey : ∀ c ∈ cs, c.key.bytes = k.bytes → c.key = k)
    (hno : ∀ c ∈ cs, c.key.bytes ≠ k.bytes →
      ∀ q, ¬ Seen (c.chunk ++ Written.gap (1 < cs.length)) k.bytes k.hasSpaces q) :
  FirstFrom (Seen (chunks cs) k.bytes k.hasSpaces) 0 (place k cs)
  := by
  induction cs with
  | nil =>
    intro q _ hseen
    have hstarts := hseen.starts
    rw [chunks, List.flatMap_nil, List.drop_nil] at hstarts
    exact k.nonempty (List.prefix_nil.mp hstarts)
  | cons c cs ih =>
    rw [place]
    split
    · next heq =>
      rw [← hkey c List.mem_cons_self heq]
      use Nat.zero_le _, seen_own (blank_chunks cs)
      intro q _ hq hseen
      obtain rfl := Nat.lt_one_iff.mp hq
      exact c.key.word.not_seen_blank (s := []) hseen
    · next hne =>
      cases cs with
      | nil =>
        intro q _
        have h := hno c List.mem_cons_self hne q
        rwa [show chunks [c] = c.chunk ++ [] from rfl]
      | cons d ds =>
        rw [chunks_cons]
        have hgap : ∀ e ∈ c :: d :: ds, e.key.bytes ≠ k.bytes →
            ∀ q, ¬ Seen (e.chunk ++ [32]) k.bytes k.hasSpaces q := by
          intro e he hne
          have h := hno e he hne
          rwa [Written.gap, if_pos (by simp)] at h
        apply k.word.first_pass (closed_chunk.mpr (hclosed c List.mem_cons_self))
        · exact hgap c List.mem_cons_self hne
        · apply ih
          · intro c hc
            exact hclosed c (List.mem_cons_of_mem _ hc)
          · intro c hc
            exact hkey c (List.mem_cons_of_mem _ hc)
          · intro c hc hne q
            have h := hgap c (List.mem_cons_of_mem _ hc) hne q
            unfold Written.gap
            split
            · exact h
            · intro hseen
              rw [List.append_nil] at hseen
              exact h (hseen.append_blank k.nonempty)

end Places

end V1

end Vely
