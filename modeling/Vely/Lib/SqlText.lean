import Vely.Lib.Ctype

/-!
# The text of SQL statements

A statement is read byte by byte.  What the bytes before a position leave open is the mode at it: a
literal in single quotes, a name in quotes, a comment, or nothing.  A quote in a literal is written
twice, so that a quote after a quote in a literal opens it again.  The tokens tell the bytes of
literals from the others, and the parameters from the rest of the text.
-/

namespace SqlText

/-- The byte `'`. -/
def apostrophe : UInt8 := 39

/-- The byte `?`. -/
def mark : UInt8 := 63

/-- What the bytes before a position leave open.  In the mode `hex` the word so far is `x`, in the
mode `sigil` the last byte may start the name of a parameter, and in the mode `quote` it is a quote
in a literal. -/
inductive Mode where
  | outside
  | word
  | hex
  | blob
  | sigil
  | dash
  | line
  | slash
  | block
  | star
  | name (close : UInt8)
  | literal
  | quote
  deriving DecidableEq

/-- A byte outside literals, a literal that opens, a byte of its contents, or a parameter. -/
inductive Token where
  | text (b : UInt8)
  | opened
  | char (b : UInt8)
  | param
  deriving DecidableEq

/-- What dialects of SQL differ in: the byte that closes the name in quotes which a byte opens, and
the bytes before the name of a parameter.  No such byte is a quote or a question mark. -/
structure Dialect where
  close : UInt8 → Option UInt8
  sigil : UInt8 → Bool

/-- Names are in double quotes, and parameters have no name. -/
def standard : Dialect where
  close b := if b = 34 then some 34 else none
  sigil _ := false

/-- Names are in double quotes, in backquotes or in brackets, and the name of a parameter comes
after `:`, `@` or `$`. -/
def sqlite : Dialect where
  close b := if b = 34 then some 34 else if b = 96 then some 96 else if b = 91 then some 93 else none
  sigil b := b = 58 || b = 64 || b = 36

/-- A byte of a word. -/
def wordChar (b : UInt8) : Bool := Vely.isalnum b || b = 95 || b = 36 || 128 ≤ b

/-- A byte where nothing is open. -/
def openStep (d : Dialect) (b : UInt8) : Mode × List Token :=
  if b = apostrophe then (.literal, [.opened])
  else if b = mark then (.outside, [.param])
  else
    match d.close b with
    | some c => (.name c, [.text b])
    | none =>
      if b = 45 then (.dash, [.text b])
      else if b = 47 then (.slash, [.text b])
      else if d.sigil b then (.sigil, [.text b])
      else if b = 120 ∨ b = 88 then (.hex, [.text b])
      else if wordChar b then (.word, [.text b])
      else (.outside, [.text b])

/-- A byte, with the mode after it and its tokens. -/
def step (d : Dialect) : Mode → UInt8 → Mode × List Token
  | .outside, b => openStep d b
  | .word, b => if wordChar b then (.word, [.text b]) else openStep d b
  | .hex, b =>
    if b = apostrophe then (.blob, [.text b])
    else if wordChar b then (.word, [.text b])
    else openStep d b
  | .blob, b => if b = apostrophe then (.outside, [.text b]) else (.blob, [.text b])
  | .sigil, b => if wordChar b then (.word, [.param, .text b]) else openStep d b
  | .dash, b => if b = 45 then (.line, [.text b]) else openStep d b
  | .line, b => if b = 10 then (.outside, [.text b]) else (.line, [.text b])
  | .slash, b => if b = 42 then (.block, [.text b]) else openStep d b
  | .block, b => if b = 42 then (.star, [.text b]) else (.block, [.text b])
  | .star, b =>
    if b = 47 then (.outside, [.text b])
    else if b = 42 then (.star, [.text b])
    else (.block, [.text b])
  | .name c, b => if b = c then (.outside, [.text b]) else (.name c, [.text b])
  | .literal, b => if b = apostrophe then (.quote, []) else (.literal, [.char b])
  | .quote, b => if b = apostrophe then (.literal, [.char b]) else openStep d b

/-- The mode after a text. -/
def after (d : Dialect) (m : Mode) (s : List UInt8) : Mode := s.foldl (fun m b => (step d m b).1) m

/-- The tokens of a text. -/
def tokens (d : Dialect) : Mode → List UInt8 → List Token
  | _, [] => []
  | m, b :: s => (step d m b).2 ++ tokens d (step d m b).1 s

variable {d : Dialect} {m : Mode}

@[simp]
theorem after_nil :
  after d m [] = m
  := rfl

@[simp]
theorem after_cons (b : UInt8) (s : List UInt8) :
  after d m (b :: s) = after d (step d m b).1 s
  := rfl

theorem after_append (s t : List UInt8) :
  after d m (s ++ t) = after d (after d m s) t
  := List.foldl_append

/-- The tokens of a text are those of its parts, one after the other. -/
theorem tokens_append (s t : List UInt8) :
  tokens d m (s ++ t) = tokens d m s ++ tokens d (after d m s) t
  := by
  induction s generalizing m with
  | nil => rfl
  | cons b s ih =>
    rw [List.cons_append, tokens, tokens, ih, List.append_assoc, after_cons]

/-- The text in a literal that stands for the contents. -/
inductive Inner : List UInt8 → List UInt8 → Prop where
  | nil : Inner [] []
  | quote {s c : List UInt8} : Inner s c → Inner (apostrophe :: apostrophe :: s) (apostrophe :: c)
  | byte {b : UInt8} {s c : List UInt8} : b ≠ apostrophe → Inner s c → Inner (b :: s) (b :: c)

namespace Inner

variable {s t c c' : List UInt8}

/-- The text in a literal is read as its contents and leaves the literal open. -/
theorem read (h : Inner s c) :
  after d .literal s = .literal ∧ tokens d .literal s = c.map .char
  := by
  induction h with
  | nil => exact ⟨rfl, rfl⟩
  | quote _ ih =>
    constructor
    · apply ih.1
    · simp only [tokens, step, if_true, ih.2]
      rfl
  | byte hb _ ih =>
    constructor
    · rw [after_cons, step, if_neg hb]
      apply ih.1
    · rw [tokens, step, if_neg hb]
      simp only [ih.2]
      rfl

theorem append (h : Inner s c) (h' : Inner t c') :
  Inner (s ++ t) (c ++ c')
  := by
  induction h with
  | nil => exact h'
  | quote _ ih => apply quote ih
  | byte hb _ ih => apply byte hb ih

/-- Bytes other than quotes stand for themselves. -/
theorem of_bytes (h : ∀ b ∈ s, b ≠ apostrophe) :
  Inner s s
  := by
  induction s with
  | nil => exact nil
  | cons b s ih =>
    apply byte (h b List.mem_cons_self)
    apply ih
    intro e he
    apply h e (List.mem_cons_of_mem b he)

/-- A text without its first bytes other than quotes. -/
theorem dropWhile {p : UInt8 → Bool} (hp : p apostrophe = false) (h : Inner s c) :
  Inner (s.dropWhile p) (c.dropWhile p)
  := by
  induction h with
  | nil => exact nil
  | quote h _ =>
    rw [List.dropWhile_cons_of_neg (by simp [hp]), List.dropWhile_cons_of_neg (by simp [hp])]
    apply quote h
  | @byte b s c hb h ih =>
    cases hpb : p b with
    | true =>
      rw [List.dropWhile_cons_of_pos hpb, List.dropWhile_cons_of_pos hpb]
      exact ih
    | false =>
      rw [List.dropWhile_cons_of_neg (by simp [hpb]), List.dropWhile_cons_of_neg (by simp [hpb])]
      apply byte hb h

/-- A text without a last byte other than a quote. -/
theorem init {b : UInt8} (hb : b ≠ apostrophe) (h : Inner (s ++ [b]) c) :
  ∃ c', Inner s c'
  := by
  generalize ht : s ++ [b] = t at h
  induction h generalizing s with
  | nil => simp at ht
  | @quote t c h ih =>
    cases s with
    | nil =>
      rw [List.nil_append, List.cons.injEq] at ht
      exact absurd ht.1 hb
    | cons e s =>
      cases s with
      | nil =>
        simp only [List.cons_append, List.nil_append, List.cons.injEq] at ht
        exact absurd ht.2.1 hb
      | cons f s =>
        simp only [List.cons_append, List.cons.injEq] at ht
        obtain ⟨c', hc'⟩ := ih ht.2.2
        use apostrophe :: c'
        rw [ht.1, ht.2.1]
        apply quote hc'
  | @byte e t c he h ih =>
    cases s with
    | nil => exact ⟨[], nil⟩
    | cons f s =>
      simp only [List.cons_append, List.cons.injEq] at ht
      obtain ⟨c', hc'⟩ := ih ht.2
      use e :: c'
      rw [ht.1]
      apply byte he hc'

/-- A text without its last bytes other than quotes. -/
theorem rdropWhile {p : UInt8 → Bool} (hp : p apostrophe = false) (h : Inner s c) :
  ∃ c', Inner (s.rdropWhile p) c'
  := by
  induction s using List.reverseRecOn generalizing c with
  | nil => exact ⟨c, h⟩
  | append_singleton s b ih =>
    cases hpb : p b with
    | true =>
      rw [List.rdropWhile_concat_pos _ _ _ hpb]
      obtain ⟨c', hc'⟩ := h.init (by rintro rfl; simp [hp] at hpb)
      apply ih hc'
    | false =>
      rw [List.rdropWhile_concat_neg _ _ _ (by simp [hpb])]
      exact ⟨c, h⟩

/-- A quote before another byte is the second of two. -/
theorem quote_of_append {b : UInt8} (hb : b ≠ apostrophe) (h : Inner (s ++ apostrophe :: b :: t) c) :
  after d .literal s = .quote
  := by
  generalize hu : s ++ apostrophe :: b :: t = u at h
  induction h generalizing s with
  | nil => simp at hu
  | @quote u c h ih =>
    cases s with
    | nil =>
      simp only [List.nil_append, List.cons.injEq] at hu
      exact absurd hu.2.1 hb
    | cons e s =>
      cases s with
      | nil =>
        simp only [List.cons_append, List.nil_append, List.cons.injEq] at hu
        rw [hu.1]
        rfl
      | cons f s =>
        simp only [List.cons_append, List.cons.injEq] at hu
        rw [hu.1, hu.2.1]
        apply ih hu.2.2
  | @byte e u c he h ih =>
    cases s with
    | nil =>
      simp only [List.nil_append, List.cons.injEq] at hu
      exact absurd hu.1.symm he
    | cons f s =>
      simp only [List.cons_append, List.cons.injEq] at hu
      rw [after_cons, step, if_neg (by rw [hu.1]; exact he)]
      apply ih hu.2

end Inner

/-- A token outside literals, or the opening of one. -/
def Token.isOuter : Token → Bool
  | .char _ => false
  | _ => true

/-- The tokens of a text without the contents of its literals. -/
def skeleton (ts : List Token) : List Token := ts.filter Token.isOuter

theorem skeleton_append (ts us : List Token) :
  skeleton (ts ++ us) = skeleton ts ++ skeleton us
  := List.filter_append ts us

theorem skeleton_chars (c : List UInt8) :
  skeleton (c.map .char) = []
  := by
  simp [skeleton, List.filter_eq_nil_iff, Token.isOuter]

end SqlText
