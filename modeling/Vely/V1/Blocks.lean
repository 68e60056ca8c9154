import Mathlib.Data.List.Basic
import Mathlib.Logic.Function.Basic

/-!
# Blocks of a source file

The preprocessor goes through the statements of a source file and keeps a counter for each kind of
block: queries, tasks, strings that are written, lines that are read, and parts that are done once.
Some of the counters are looked at with each statement, and all at the end of the file.
-/

namespace Vely

namespace V1

/-- A kind of block. -/
inductive Block where
  | query
  | task
  | writeString
  | readLine
  | doOnce
  deriving DecidableEq

/-- A statement: a query with a `no-loop` clause or without, an `if-task` and an `else-task` with an
`other` clause or without, or one that is of no block. -/
inductive Statement where
  | runQuery (noLoop : Bool)
  | endQuery
  | ifTask (other : Bool)
  | elseTask (other : Bool)
  | endTask
  | writeString
  | endWriteString
  | readLine
  | endReadLine
  | doOnce
  | endDoOnce
  | other
  deriving DecidableEq

/-- A statement as it is recognized: whether it is within `<<` and `>>`, and whether its clauses
pass the checks that are not about blocks. -/
structure Recognized where
  statement : Statement
  inline : Bool
  fine : Bool

/-- A source file: its statements, and whether a comment is open at its end. -/
structure Source where
  statements : List Recognized
  ccommOpen : Bool

/-- An error that is reported. -/
inductive Error where
  | clause
  | nestedQuery
  | tooManyQueries
  | queryEnding
  | otherWithIf
  | elseWithoutIf
  | otherNotLast
  | otherTwice
  | tooManyTasks
  | endWithoutIf
  | onceInOnce
  | inline
  | onceOpen
  | commentOpen
  | writeStringImbalance
  | queryBlockImbalance
  | readLineImbalance
  | ifTaskImbalance
  | queryImbalance
  deriving DecidableEq

/-- `VV_MAX_QUERY_NESTED` -/
def maxQueryNested : Nat := 10

/-- `VV_MAX_QUERY` -/
def maxQuery : Nat := 300

/-- `VV_MAX_OTHER_TASK` -/
def maxOtherTask : Nat := 31

/-- The counters of the preprocessor. -/
structure Gen where
  currQryPtr : Nat
  openQueries : Int
  totalQueries : Nat
  openIfs : Nat
  otherTaskDone : Nat → Bool
  doOnceOpen : Bool
  totalWriteString : Int
  openReadline : Int

/-- The counters at the beginning of a file. -/
def Gen.init : Gen := ⟨0, 0, 0, 0, fun _ => false, false, 0, 0⟩

/-- `end_query` -/
def endQuery (g : Gen) : Except Error Gen :=
  if g.currQryPtr = 0 then .error .queryEnding
  else .ok { g with currQryPtr := g.currQryPtr - 1, openQueries := g.openQueries - 1 }

/-- `new_query`, and `end_query` for one without a loop. -/
def runQuery (noLoop : Bool) (g : Gen) : Except Error Gen :=
  let g := { g with openQueries := g.openQueries + 1, currQryPtr := g.currQryPtr + 1 }
  if maxQueryNested ≤ g.currQryPtr then .error .nestedQuery
  else
    let g := { g with totalQueries := g.totalQueries + 1 }
    if maxQuery ≤ g.totalQueries then .error .tooManyQueries
    else if noLoop then endQuery g
    else .ok g

/-- `if-task` -/
def ifTask (other : Bool) (g : Gen) : Except Error Gen :=
  let g := { g with otherTaskDone := Function.update g.otherTaskDone g.openIfs false }
  if other then .error .otherWithIf
  else
    let g := { g with openIfs := g.openIfs + 1 }
    if maxOtherTask ≤ g.openIfs then .error .tooManyTasks
    else .ok g

/-- `else-task` -/
def elseTask (other : Bool) (g : Gen) : Except Error Gen :=
  if g.openIfs = 0 then .error .elseWithoutIf
  else if g.otherTaskDone (g.openIfs - 1) && !other then .error .otherNotLast
  else if other then
    if g.otherTaskDone (g.openIfs - 1) then .error .otherTwice
    else .ok { g with otherTaskDone := Function.update g.otherTaskDone (g.openIfs - 1) true }
  else .ok g

/-- `end-task` -/
def endTask (g : Gen) : Except Error Gen :=
  if g.openIfs = 0 then .error .endWithoutIf
  else
    .ok { g with
      openIfs := g.openIfs - 1
      otherTaskDone := Function.update g.otherTaskDone (g.openIfs - 1) false }

/-- A statement is processed. -/
def process (g : Gen) (r : Recognized) : Except Error Gen :=
  if !r.fine then .error .clause
  else
    match r.statement with
    | .runQuery noLoop => runQuery noLoop g
    | .endQuery => endQuery g
    | .ifTask other => ifTask other g
    | .elseTask other => elseTask other g
    | .endTask => endTask g
    | .writeString =>
      if r.inline then .error .inline else .ok { g with totalWriteString := g.totalWriteString + 1 }
    | .endWriteString =>
      if r.inline then .error .inline else .ok { g with totalWriteString := g.totalWriteString - 1 }
    | .readLine => .ok { g with openReadline := g.openReadline + 1 }
    | .endReadLine => .ok { g with openReadline := g.openReadline - 1 }
    | .doOnce => if g.doOnceOpen then .error .onceInOnce else .ok { g with doOnceOpen := true }
    | .endDoOnce => .ok { g with doOnceOpen := false }
    | .other => .ok g

/-- The checks at the end of the file. -/
def finish (ccommOpen : Bool) (g : Gen) : Except Error Unit :=
  if g.doOnceOpen then .error .onceOpen
  else if ccommOpen then .error .commentOpen
  else if g.totalWriteString ≠ 0 then .error .writeStringImbalance
  else if g.openQueries ≠ 0 then .error .queryBlockImbalance
  else if g.openReadline ≠ 0 then .error .readLineImbalance
  else if g.openIfs ≠ 0 then .error .ifTaskImbalance
  else if g.currQryPtr ≠ 0 then .error .queryImbalance
  else .ok ()

/-- `vely_gen_c_code`, as far as blocks are concerned. -/
def velyGenCCode (src : Source) : Except Error Unit := do
  let g ← src.statements.foldlM process Gen.init
  finish src.ccommOpen g

/-- The kind of block a statement begins, ends or belongs to. -/
def Statement.block : Statement → Option Block
  | .runQuery _ => some .query
  | .endQuery => some .query
  | .ifTask _ => some .task
  | .elseTask _ => some .task
  | .endTask => some .task
  | .writeString => some .writeString
  | .endWriteString => some .writeString
  | .readLine => some .readLine
  | .endReadLine => some .readLine
  | .doOnce => some .doOnce
  | .endDoOnce => some .doOnce
  | .other => none

/-- The block opened last is closed, if it is of the kind. -/
def close (b : Block) : List Block → Option (List Block)
  | [] => none
  | top :: below => if top = b then some below else none

/-- The blocks that are open after a statement, the last one first; nothing if the statement does
not fit the last one. -/
def nest (opened : List Block) : Statement → Option (List Block)
  | .runQuery noLoop => some (if noLoop then opened else .query :: opened)
  | .endQuery => close .query opened
  | .ifTask _ => some (.task :: opened)
  | .elseTask _ => if opened.head? = some .task then some opened else none
  | .endTask => close .task opened
  | .writeString => some (.writeString :: opened)
  | .endWriteString => close .writeString opened
  | .readLine => some (.readLine :: opened)
  | .endReadLine => close .readLine opened
  | .doOnce => some (.doOnce :: opened)
  | .endDoOnce => close .doOnce opened
  | .other => some opened

/-- The blocks of the statements are properly nested. -/
def Nested (ss : List Statement) : Prop := ss.foldlM nest [] = some []

/-- The statements of a kind of block. -/
def only (b : Block) (ss : List Statement) : List Statement := ss.filter fun s => s.block = some b

/-- What is checked of the blocks, one kind at a time: queries are properly nested, and so are
tasks; strings and lines have as many ends as beginnings; and a part that is done once ends before
another one begins. -/
structure EachKind (ss : List Statement) : Prop where
  queries : Nested (only .query ss)
  tasks : Nested (only .task ss)
  strings : ss.count .writeString = ss.count .endWriteString
  lines : ss.count .readLine = ss.count .endReadLine
  once : ∀ before after, ss = before ++ .doOnce :: after →
    ∃ inside rest, after = inside ++ .endDoOnce :: rest ∧ .doOnce ∉ inside

section Counters

variable {g g' : Gen} {r : Recognized} {ss : List Statement}

/-- What the counters tell of the statements that were processed. -/
structure Counts (g : Gen) (ss : List Statement) : Prop where
  queries : (only .query ss).foldlM nest [] = some (List.replicate g.currQryPtr .query)
  tasks : (only .task ss).foldlM nest [] = some (List.replicate g.openIfs .task)
  strings : g.totalWriteString = ss.count .writeString - ss.count .endWriteString
  lines : g.openReadline = ss.count .readLine - ss.count .endReadLine
  once : ∀ before after, ss = before ++ .doOnce :: after →
    (∃ inside rest, after = inside ++ .endDoOnce :: rest ∧ .doOnce ∉ inside) ∨
      g.doOnceOpen = true ∧ .doOnce ∉ after

/-- No statement was processed. -/
theorem counts_init :
  Counts Gen.init []
  := by
  constructor
  · rfl
  · rfl
  · rfl
  · rfl
  · intro before after h
    cases before with
    | nil => cases h
    | cons s before => cases h

/-- What a part that is done once is like after one more statement. -/
theorem once_append {x : Statement} (h : ∀ before after, ss = before ++ .doOnce :: after →
      (∃ inside rest, after = inside ++ .endDoOnce :: rest ∧ .doOnce ∉ inside) ∨
        g.doOnceOpen = true ∧ .doOnce ∉ after)
    (hopen : x = .doOnce → g.doOnceOpen = false ∧ g'.doOnceOpen = true)
    (hkeep : x ≠ .doOnce → x ≠ .endDoOnce → g'.doOnceOpen = g.doOnceOpen) :
  ∀ before after, ss ++ [x] = before ++ .doOnce :: after →
    (∃ inside rest, after = inside ++ .endDoOnce :: rest ∧ .doOnce ∉ inside) ∨
      g'.doOnceOpen = true ∧ .doOnce ∉ after
  := by
  intro before after hsplit
  obtain rfl | ⟨after, y, rfl⟩ := List.eq_nil_or_concat' after
  · have hx : x = .doOnce := by
      have hlast := congrArg List.getLast? hsplit
      simpa using hlast
    exact Or.inr ⟨(hopen hx).2, List.not_mem_nil⟩
  · rw [← List.cons_append, ← List.append_assoc] at hsplit
    obtain ⟨hss, hxy⟩ := List.append_inj' hsplit rfl
    obtain rfl := List.singleton_injective hxy
    obtain ⟨inside, rest, rfl, hinside⟩ | ⟨hon, hafter⟩ := h before after hss
    · left
      exact ⟨inside, rest ++ [x], by simp, hinside⟩
    · by_cases hend : x = .endDoOnce
      · left
        exact ⟨after, [], by rw [hend], hafter⟩
      · right
        have hne : x ≠ .doOnce := by
          intro hx
          rw [(hopen hx).1] at hon
          cases hon
        constructor
        · rw [hkeep hne hend, hon]
        · intro hmem
          obtain hold | hnew := List.mem_append.mp hmem
          · exact hafter hold
          · exact hne (List.mem_singleton.mp hnew).symm

/-- The blocks of a kind that are open after one more statement. -/
theorem foldlM_only_append {b : Block} {opened : List Block} (x : Statement)
    (h : (only b ss).foldlM nest [] = some opened) :
  (only b (ss ++ [x])).foldlM nest [] = if x.block = some b then nest opened x else some opened
  := by
  rw [only, List.filter_append, List.foldlM_append]
  rw [only] at h
  rw [h, Option.bind_eq_bind, Option.bind_some]
  by_cases hb : x.block = some b
  · simp [hb]
  · simp [hb]

/-- A statement that is of no counter but those given. -/
theorem Counts.append (h : Counts g ss) {x : Statement}
    (hqueries : (if x.block = some .query then nest (List.replicate g.currQryPtr .query) x
      else some (List.replicate g.currQryPtr .query)) = some (List.replicate g'.currQryPtr .query))
    (htasks : (if x.block = some .task then nest (List.replicate g.openIfs .task) x
      else some (List.replicate g.openIfs .task)) = some (List.replicate g'.openIfs .task))
    (hstrings : g'.totalWriteString
      = g.totalWriteString + [x].count .writeString - [x].count .endWriteString)
    (hlines : g'.openReadline = g.openReadline + [x].count .readLine - [x].count .endReadLine)
    (hopen : x = .doOnce → g.doOnceOpen = false ∧ g'.doOnceOpen = true)
    (hkeep : x ≠ .doOnce → x ≠ .endDoOnce → g'.doOnceOpen = g.doOnceOpen) :
  Counts g' (ss ++ [x])
  := by
  constructor
  · rw [foldlM_only_append x h.queries, hqueries]
  · rw [foldlM_only_append x h.tasks, htasks]
  · rw [hstrings, h.strings, List.count_append, List.count_append]
    omega
  · rw [hlines, h.lines, List.count_append, List.count_append]
    omega
  · exact once_append h.once hopen hkeep

/-- A block of which only one kind is open is closed. -/
theorem close_replicate (b : Block) {n : Nat} (hn : n ≠ 0) :
  close b (List.replicate n b) = some (List.replicate (n - 1) b)
  := by
  obtain ⟨m, rfl⟩ := Nat.exists_eq_succ_of_ne_zero hn
  rw [List.replicate_succ, close, if_pos rfl]
  rfl

/-- A query is begun. -/
theorem Counts.runQuery (h : Counts g ss) {noLoop : Bool} (hrun : V1.runQuery noLoop g = .ok g') :
  Counts g' (ss ++ [.runQuery noLoop])
  := by
  rw [V1.runQuery] at hrun
  simp only at hrun
  split at hrun
  · cases hrun
  split at hrun
  · cases hrun
  cases noLoop with
  | true =>
    simp only [if_true, endQuery, Nat.add_eq_zero_iff, Nat.one_ne_zero, and_false, if_false] at hrun
    cases hrun
    apply h.append
    · rfl
    · rfl
    · simp
    · simp
    · simp
    · simp
  | false =>
    cases hrun
    apply h.append
    · rfl
    · rfl
    · simp
    · simp
    · simp
    · simp

/-- A query is ended. -/
theorem Counts.endQuery (h : Counts g ss) (hend : V1.endQuery g = .ok g') :
  Counts g' (ss ++ [.endQuery])
  := by
  rw [V1.endQuery] at hend
  split at hend
  · cases hend
  · rename_i hopen
    cases hend
    apply h.append
    · exact close_replicate .query hopen
    · rfl
    · simp
    · simp
    · simp
    · simp

/-- A task is begun. -/
theorem Counts.ifTask (h : Counts g ss) {other : Bool} (hif : V1.ifTask other g = .ok g') :
  Counts g' (ss ++ [.ifTask other])
  := by
  rw [V1.ifTask] at hif
  simp only at hif
  split at hif
  · cases hif
  split at hif
  · cases hif
  cases hif
  apply h.append
  · rfl
  · rfl
  · simp
  · simp
  · simp
  · simp

/-- Another task of the same block. -/
theorem Counts.elseTask (h : Counts g ss) {other : Bool} (helse : V1.elseTask other g = .ok g') :
  Counts g' (ss ++ [.elseTask other])
  := by
  have hfields : g.openIfs ≠ 0 ∧ g'.currQryPtr = g.currQryPtr ∧ g'.openIfs = g.openIfs ∧
      g'.totalWriteString = g.totalWriteString ∧ g'.openReadline = g.openReadline ∧
      g'.doOnceOpen = g.doOnceOpen := by
    rw [V1.elseTask] at helse
    split at helse
    · cases helse
    rename_i hopen
    split at helse
    · cases helse
    split at helse
    · split at helse
      · cases helse
      · cases helse
        exact ⟨hopen, rfl, rfl, rfl, rfl, rfl⟩
    · cases helse
      exact ⟨hopen, rfl, rfl, rfl, rfl, rfl⟩
  obtain ⟨hopen, hqueries, hifs, hstrings, hlines, honce⟩ := hfields
  apply h.append
  · rw [hqueries]
    rfl
  · rw [hifs]
    obtain ⟨n, hn⟩ := Nat.exists_eq_succ_of_ne_zero hopen
    rw [hn]
    rfl
  · rw [hstrings]
    simp
  · rw [hlines]
    simp
  · simp
  · intro _ _
    exact honce

/-- A task is ended. -/
theorem Counts.endTask (h : Counts g ss) (hend : V1.endTask g = .ok g') :
  Counts g' (ss ++ [.endTask])
  := by
  rw [V1.endTask] at hend
  split at hend
  · cases hend
  · rename_i hopen
    cases hend
    apply h.append
    · rfl
    · exact close_replicate .task hopen
    · simp
    · simp
    · simp
    · simp

/-- The counters tell of the statements after one more is processed. -/
theorem Counts.process (h : Counts g ss) (hprocess : V1.process g r = .ok g') :
  Counts g' (ss ++ [r.statement])
  := by
  rw [V1.process] at hprocess
  split at hprocess
  · cases hprocess
  cases hs : r.statement with
  | runQuery noLoop =>
    rw [hs] at hprocess
    exact h.runQuery hprocess
  | endQuery =>
    rw [hs] at hprocess
    exact h.endQuery hprocess
  | ifTask other =>
    rw [hs] at hprocess
    exact h.ifTask hprocess
  | elseTask other =>
    rw [hs] at hprocess
    exact h.elseTask hprocess
  | endTask =>
    rw [hs] at hprocess
    exact h.endTask hprocess
  | writeString =>
    simp only [hs] at hprocess
    split at hprocess
    · cases hprocess
    · cases hprocess
      apply h.append <;> simp [Statement.block]
  | endWriteString =>
    simp only [hs] at hprocess
    split at hprocess
    · cases hprocess
    · cases hprocess
      apply h.append <;> simp [Statement.block]
  | readLine =>
    simp only [hs] at hprocess
    cases hprocess
    apply h.append <;> simp [Statement.block]
  | endReadLine =>
    simp only [hs] at hprocess
    cases hprocess
    apply h.append <;> simp [Statement.block]
  | doOnce =>
    simp only [hs] at hprocess
    split at hprocess
    · cases hprocess
    · rename_i hclosed
      cases hprocess
      apply h.append <;> simp [Statement.block, hclosed]
  | endDoOnce =>
    simp only [hs] at hprocess
    cases hprocess
    apply h.append <;> simp [Statement.block]
  | other =>
    simp only [hs] at hprocess
    cases hprocess
    apply h.append <;> simp [Statement.block]

/-- The counters tell of all statements that were processed. -/
theorem Counts.run {rs : List Recognized} (h : Counts g ss)
    (hrun : rs.foldlM V1.process g = .ok g') :
  Counts g' (ss ++ rs.map Recognized.statement)
  := by
  induction rs generalizing g ss with
  | nil =>
    cases hrun
    rw [List.map_nil, List.append_nil]
    exact h
  | cons r rs ih =>
    rw [List.foldlM_cons] at hrun
    cases hprocess : V1.process g r with
    | error e =>
      rw [hprocess] at hrun
      cases hrun
    | ok g₁ =>
      rw [hprocess] at hrun
      have hrest := ih (h.process hprocess) hrun
      rw [List.append_assoc] at hrest
      exact hrest

/-- What the checks at the end of a file ask for. -/
theorem finish_eq_ok {ccommOpen : Bool} (h : finish ccommOpen g = .ok ()) :
  g.doOnceOpen = false ∧ g.totalWriteString = 0 ∧ g.openReadline = 0 ∧ g.openIfs = 0 ∧
    g.currQryPtr = 0
  := by
  unfold finish at h
  repeat'
    split at h
    · cases h
  rename_i honce _ hstrings _ hlines hifs hqueries
  simp only [Bool.not_eq_true, ne_eq, Decidable.not_not] at honce hstrings hlines hifs hqueries
  exact ⟨honce, hstrings, hlines, hifs, hqueries⟩

end Counters

/-- The statements of a source file that is accepted are balanced, one kind of block at a time. -/
theorem eachKind_of_accepted {src : Source} (h : velyGenCCode src = .ok ()) :
  EachKind (src.statements.map Recognized.statement)
  := by
  rw [velyGenCCode] at h
  cases hrun : src.statements.foldlM process Gen.init with
  | error e =>
    rw [hrun] at h
    cases h
  | ok g =>
    rw [hrun] at h
    obtain ⟨honce, hstrings, hlines, hifs, hqueries⟩ := finish_eq_ok h
    have hcounts := counts_init.run hrun
    rw [List.nil_append] at hcounts
    constructor
    · rw [Nested, hcounts.queries, hqueries]
      rfl
    · rw [Nested, hcounts.tasks, hifs]
      rfl
    · have hstrings' := hcounts.strings
      omega
    · have hlines' := hcounts.lines
      omega
    · intro before after hsplit
      obtain hclosed | ⟨hopen, -⟩ := hcounts.once before after hsplit
      · exact hclosed
      · rw [honce] at hopen
        cases hopen

/-- A query with a task in it. -/
theorem eachKind_of_accepted_task :
  EachKind [.runQuery false, .ifTask false, .elseTask true, .endTask, .endQuery]
  := @eachKind_of_accepted
    ⟨[⟨.runQuery false, false, true⟩, ⟨.ifTask false, false, true⟩, ⟨.elseTask true, false, true⟩,
      ⟨.endTask, false, true⟩, ⟨.endQuery, false, true⟩], false⟩ (by decide)

/-- A query that ends within a task that is begun in it is accepted. -/
theorem not_nested_query_task :
  ¬ ∀ src, velyGenCCode src = .ok () → Nested (src.statements.map Recognized.statement)
  := by
  intro h
  have hnested := h
    ⟨[⟨.runQuery false, false, true⟩, ⟨.ifTask false, false, true⟩, ⟨.endQuery, false, true⟩,
      ⟨.endTask, false, true⟩], false⟩ (by decide)
  cases hnested

end V1

end Vely
