import Vely.Lib.CString

/-!
# Results of SQLite queries

The driver keeps the number of columns of a result, its rows and where the reading of them is, in
variables of the process that all queries share.  The number of columns is taken when a statement
gives its first row, and a statement that gives none leaves it as the query before left it.
-/

namespace Vely

/-- A column of a row: its text, nothing, or the memory for its text is not there. -/
inductive Cell where
  | text (bytes : List UInt8)
  | null
  | noMemory
  deriving DecidableEq

/-- `sqlite3_column_text`, an empty string for a column that is null. -/
def Cell.fetch : Cell → Option (List UInt8)
  | .text bytes => some bytes
  | .null => some []
  | .noMemory => none

/-- A statement that is prepared: the names of its columns, the rows it gives, and whether the step
after the last of them is an error. -/
structure LiteStmt where
  columns : List CString
  rows : List (List Cell)
  fails : Bool
  rows_length : ∀ row ∈ rows, row.length = columns.length

/-- What the driver keeps between calls. -/
structure Lite where
  qnumrows : Nat
  qnumfields : Nat
  qrownow : Nat
  qrows : Option (List (List UInt8))
  qcolid : Nat

namespace Lite

/-- The variables of a process that starts. -/
def start : Lite := ⟨0, 0, 0, none, 0⟩

/-- `sqlite3_column_count` is read with the first row, which allocates the rows. -/
def firstRow (stmt : LiteStmt) (s : Lite) : Lite :=
  match s.qrows with
  | none => { s with qnumfields := stmt.columns.length, qrows := some [] }
  | some _ => s

/-- The loop of `vely_lite_get_data`; the answer is whether it ends well. -/
def getRows (stmt : LiteStmt) : List (List Cell) → Lite → Bool × Lite
  | [], s => if stmt.fails then (false, s) else (true, { s with qcolid := 0 })
  | row :: rows, s =>
    match row.mapM Cell.fetch with
    | none => (false, firstRow stmt s)
    | some texts =>
      getRows stmt rows
        { firstRow stmt s with
          qrows := (firstRow stmt s).qrows.map (· ++ texts), qnumrows := s.qnumrows + 1 }

/-- `vely_lite_get_data` -/
def velyLiteGetData (stmt : LiteStmt) (s : Lite) : Bool × Lite :=
  getRows stmt stmt.rows { s with qrows := none, qnumrows := 0 }

/-- `vely_lite_exec`, for a statement that is prepared and has its parameters, or cannot have them.
-/
def velyLiteExec (stmt : Option LiteStmt) (s : Lite) : Bool × Lite :=
  match stmt with
  | none => (false, s)
  | some stmt =>
    match velyLiteGetData stmt s with
    | (true, s) => (true, { s with qrownow := 0 })
    | (false, s) => (false, s)

/-- `vely_lite_nfield` -/
def velyLiteNfield (s : Lite) : Nat := s.qnumfields

/-- `vely_lite_nrows` -/
def velyLiteNrows (s : Lite) : Nat := s.qnumrows

/-- `vely_lite_fieldname`: the name of the next column, if the statement has that many. -/
def velyLiteFieldname (stmt : LiteStmt) (s : Lite) : Option CString × Lite :=
  (stmt.columns[s.qcolid]?, { s with qcolid := s.qcolid + 1 })

/-- `vely_lite_rows`: the columns of the next row. -/
def velyLiteRows (s : Lite) : Option (List (List UInt8)) × Lite :=
  match s.qrows with
  | none => (none, s)
  | some qrows =>
    (some ((qrows.drop (s.qnumfields * s.qrownow)).take s.qnumfields),
      { s with qrownow := s.qrownow + 1 })

/-- The names of `n` columns. -/
def fieldnames (stmt : LiteStmt) : Nat → Lite → List (Option CString) × Lite
  | 0, s => ([], s)
  | n + 1, s =>
    let (name, s) := velyLiteFieldname stmt s
    let (names, s) := fieldnames stmt n s
    (name :: names, s)

/-- The names of all columns, if they are asked for. -/
def colNames (names : Bool) (stmt : LiteStmt) (s : Lite) : List (Option CString) × Lite :=
  if names then fieldnames stmt (velyLiteNfield s) s else ([], s)

/-- The columns of `n` rows, or what of them was read before an error. -/
def fetchRows : Nat → Lite → Bool × List (List (List UInt8)) × Lite
  | 0, s => (true, [], s)
  | n + 1, s =>
    match velyLiteRows s with
    | (none, s) => (false, [], s)
    | (some row, s) =>
      let (ok, rows, s) := fetchRows n s
      (ok, row :: rows, s)

/-- What is reported for a query. -/
structure Report where
  error : Bool
  ncol : Nat := 0
  colNames : List (Option CString) := []
  nrow : Nat := 0
  data : List (List (List UInt8)) := []
  deriving DecidableEq

/-- `vely_select_table` for SQLite, with the names of columns if they are asked for. -/
def velySelectTable (names : Bool) (stmt : Option LiteStmt) (s : Lite) : Report × Lite :=
  match stmt, velyLiteExec stmt s with
  | none, (_, s) => ({ error := true }, s)
  | some _, (false, s) => ({ error := true }, s)
  | some stmt, (true, s) =>
    let ncol := velyLiteNfield s
    let (names, s) := colNames names stmt s
    let nrow := velyLiteNrows s
    let (ok, data, s) := fetchRows nrow s
    (⟨!ok, ncol, names, nrow, data⟩, s)

/-- A query of a program, or a statement without a result; a statement may be one that cannot be
prepared. -/
inductive Call where
  | select (names : Bool) (stmt : Option LiteStmt)
  | execute (stmt : Option LiteStmt)

/-- The statement of a call. -/
def Call.stmt : Call → Option LiteStmt
  | .select _ stmt => stmt
  | .execute stmt => stmt

/-- What a call leaves in the driver. -/
def Call.exec : Call → Lite → Lite
  | .select names stmt, s => (velySelectTable names stmt s).2
  | .execute stmt, s => (velyLiteExec stmt s).2

/-- A run of calls. -/
def run (calls : List Call) (s : Lite) : Lite := calls.foldl (fun s c => c.exec s) s

/-- The count and the names that are reported are those of the statement. -/
def Own (names : Bool) (stmt : LiteStmt) (r : Report) : Prop :=
  r.error = false →
    r.ncol = stmt.columns.length ∧ (names = true → r.colNames = stmt.columns.map some)

/-- Every query of the calls reports the columns of its own statement. -/
def OwnColumns (calls : List Call) : Prop :=
  ∀ before names stmt, before ++ [.select names (some stmt)] <+: calls →
    Own names stmt (velySelectTable names (some stmt) (run before start)).1

/-- The number of columns of the last statement that gave a row, `n` if there is none. -/
def lastCount (n : Nat) (calls : List Call) : Nat :=
  calls.foldl
    (fun n c =>
      match c.stmt with
      | some stmt => if stmt.rows = [] then n else stmt.columns.length
      | none => n)
    n

/-- A query without rows that does not fail has as many columns as the last statement before it that
gave a row, and none if there is no such statement. -/
def CountsFit (calls : List Call) : Prop :=
  ∀ before names stmt, before ++ [.select names (some stmt)] <+: calls →
    stmt.rows = [] → stmt.fails = false → stmt.columns.length = lastCount 0 before

section Step

variable {stmt : LiteStmt} {s : Lite}

/-- A row that can be read is read column by column. -/
theorem forall₂_of_mapM_fetch {row : List Cell} {texts : List (List UInt8)}
    (h : row.mapM Cell.fetch = some texts) :
  List.Forall₂ (fun c text => c.fetch = some text) row texts
  := by
  induction row generalizing texts with
  | nil =>
    cases h
    constructor
  | cons c row ih =>
    simp only [List.mapM_cons, Option.bind_eq_bind, Option.bind_eq_some_iff, Option.pure_def,
      Option.some.injEq] at h
    obtain ⟨text, hc, texts, hrow, rfl⟩ := h
    constructor
    · exact hc
    · apply ih hrow

/-- A row that is there leaves the count of its statement. -/
theorem getRows_qnumfields {rows : List (List Cell)} (hs : s.qrows = none) :
  (getRows stmt rows s).2.qnumfields = if rows = [] then s.qnumfields else stmt.columns.length
  := by
  have later : ∀ (rows : List (List Cell)) (s : Lite), s.qrows.isSome = true →
      (getRows stmt rows s).2.qnumfields = s.qnumfields := by
    intro rows
    induction rows with
    | nil =>
      intro s _
      simp only [getRows]
      split
      · rfl
      · rfl
    | cons row rows ih =>
      intro s hsome
      obtain ⟨qrows, hq⟩ := Option.isSome_iff_exists.mp hsome
      simp only [getRows, firstRow, hq]
      split
      · rfl
      · rw [ih _ (by simp)]
  cases rows with
  | nil =>
    simp only [getRows, if_true]
    split
    · rfl
    · rfl
  | cons row rows =>
    simp only [getRows, firstRow, hs]
    split
    · rfl
    · rw [later _ _ (by simp)]
      rfl

/-- Rows that can all be read are there one after the other, and the names start at the first. -/
theorem getRows_ok {rows : List (List Cell)} (h : (getRows stmt rows s).1 = true) :
  stmt.fails = false ∧ (getRows stmt rows s).2.qcolid = 0 ∧
    (getRows stmt rows s).2.qnumrows = s.qnumrows + rows.length ∧
    ∃ data, List.Forall₂ (List.Forall₂ (fun c text => c.fetch = some text)) rows data ∧
      (rows ≠ [] → (getRows stmt rows s).2.qrows = some (s.qrows.getD [] ++ data.flatten))
  := by
  induction rows generalizing s with
  | nil =>
    cases hf : stmt.fails with
    | true => simp [getRows, hf] at h
    | false => simp [getRows, hf]
  | cons row rows ih =>
    simp only [getRows] at h ⊢
    cases hrow : row.mapM Cell.fetch with
    | none => simp [hrow] at h
    | some texts =>
      simp only [hrow] at h ⊢
      obtain ⟨hfails, hcol, hnum, more, hmore, hrows⟩ := ih h
      have hcells : (firstRow stmt s).qrows.map (· ++ texts) = some (s.qrows.getD [] ++ texts) := by
        cases hq : s.qrows with
        | none => simp [firstRow, hq]
        | some qrows => simp [firstRow, hq]
      refine ⟨hfails, hcol, ?_, texts :: more, ?_, ?_⟩
      · rw [hnum, List.length_cons]
        simp only
        omega
      · constructor
        · apply forall₂_of_mapM_fetch hrow
        · exact hmore
      · intro _
        by_cases hnil : rows = []
        · subst hnil
          cases hmore
          simp only [getRows, hfails, Bool.false_eq_true, if_false]
          rw [hcells]
          simp
        · rw [hrows hnil]
          simp [hcells]

/-- The names of the columns, from the one that is next. -/
theorem fieldnames_eq (stmt : LiteStmt) (n : Nat) (s : Lite) :
  fieldnames stmt n s
    = ((List.range' s.qcolid n).map (stmt.columns[·]?), { s with qcolid := s.qcolid + n })
  := by
  induction n generalizing s with
  | zero => rfl
  | succ n ih =>
    simp only [fieldnames, velyLiteFieldname, ih, List.range'_succ, List.map_cons]
    rw [Nat.add_assoc, Nat.add_comm 1 n]

/-- Reading names changes which name is next. -/
theorem colNames_snd (names : Bool) (stmt : LiteStmt) (s : Lite) :
  ∃ k, (colNames names stmt s).2 = { s with qcolid := k }
  := by
  cases names with
  | true =>
    use s.qcolid + s.qnumfields
    simp only [colNames, if_true, fieldnames_eq, velyLiteNfield]
  | false =>
    use s.qcolid
    rfl

/-- Reading rows changes which row is next. -/
theorem fetchRows_qnumfields (n : Nat) (s : Lite) :
  (fetchRows n s).2.2.qnumfields = s.qnumfields
  := by
  induction n generalizing s with
  | zero => rfl
  | succ n ih =>
    simp only [fetchRows, velyLiteRows]
    cases s.qrows with
    | none => rfl
    | some qrows => rw [ih]

/-- Rows of equal size that are there one after the other are read one by one. -/
theorem fetchRows_eq {before : List (List UInt8)} {rows : List (List (List UInt8))}
    (hq : s.qrows = some (before ++ rows.flatten))
    (hbefore : before.length = s.qnumfields * s.qrownow)
    (hrows : ∀ row ∈ rows, row.length = s.qnumfields) :
  (fetchRows rows.length s).1 = true ∧ (fetchRows rows.length s).2.1 = rows
  := by
  induction rows generalizing s before with
  | nil => exact ⟨rfl, rfl⟩
  | cons row rows ih =>
    have hrow := hrows row List.mem_cons_self
    have hnext : velyLiteRows s = (some row, { s with qrownow := s.qrownow + 1 }) := by
      simp only [velyLiteRows, hq]
      rw [← hbefore, List.drop_left, List.flatten_cons, ← hrow, List.take_left]
    obtain ⟨hok, hdata⟩ := @ih { s with qrownow := s.qrownow + 1 } (before ++ row)
      (by simp [hq])
      (by simp only [List.length_append, hbefore, hrow, Nat.mul_add, Nat.mul_one])
      (fun r hr => hrows r (List.mem_cons_of_mem _ hr))
    simp only [List.length_cons, fetchRows, hnext]
    constructor
    · exact hok
    · rw [hdata]

/-- What the driver counts after a statement was executed. -/
theorem velyLiteExec_qnumfields (stmt : Option LiteStmt) (s : Lite) :
  (velyLiteExec stmt s).2.qnumfields
    = match stmt with
      | some stmt => if stmt.rows = [] then s.qnumfields else stmt.columns.length
      | none => s.qnumfields
  := by
  cases stmt with
  | none => rfl
  | some stmt =>
    have h := @getRows_qnumfields stmt { s with qrows := none, qnumrows := 0 } stmt.rows rfl
    simp only [velyLiteExec, velyLiteGetData]
    generalize getRows stmt stmt.rows { s with qrows := none, qnumrows := 0 } = x at h ⊢
    obtain ⟨ok, s'⟩ := x
    cases ok with
    | true => exact h
    | false => exact h

/-- What the driver counts after a query. -/
theorem velySelectTable_qnumfields (names : Bool) (stmt : Option LiteStmt) (s : Lite) :
  (velySelectTable names stmt s).2.qnumfields = (velyLiteExec stmt s).2.qnumfields
  := by
  simp only [velySelectTable]
  cases stmt with
  | none => rfl
  | some stmt =>
    generalize velyLiteExec (some stmt) s = x
    obtain ⟨ok, s'⟩ := x
    cases ok with
    | false => rfl
    | true =>
      obtain ⟨k, hk⟩ := colNames_snd names stmt s'
      simp only [fetchRows_qnumfields, hk]

/-- A query that reports no error reports what the driver counts, and as many names of its
statement. -/
theorem velySelectTable_report {names : Bool}
    (h : (velySelectTable names (some stmt) s).1.error = false) :
  stmt.fails = false ∧
    (velySelectTable names (some stmt) s).1.ncol = (velyLiteExec (some stmt) s).2.qnumfields ∧
    (names = true → (velySelectTable names (some stmt) s).1.colNames
      = (List.range (velyLiteExec (some stmt) s).2.qnumfields).map (stmt.columns[·]?))
  := by
  have hok := @getRows_ok stmt { s with qrows := none, qnumrows := 0 } stmt.rows
  simp only [velySelectTable, velyLiteExec, velyLiteGetData] at h ⊢
  generalize getRows stmt stmt.rows { s with qrows := none, qnumrows := 0 } = x at h hok ⊢
  obtain ⟨ok, s'⟩ := x
  cases ok with
  | false => cases h
  | true =>
    obtain ⟨hfails, hcol, -⟩ := hok rfl
    simp only at hcol
    refine ⟨hfails, ?_, ?_⟩
    · rfl
    · intro hnames
      simp only [hnames, colNames, if_true, velyLiteNfield, fieldnames_eq, hcol]
      rw [← List.range_eq_range']

/-- A statement without rows that does not fail is reported without an error. -/
theorem velySelectTable_of_empty (names : Bool) (hrows : stmt.rows = [])
    (hfails : stmt.fails = false) :
  (velySelectTable names (some stmt) s).1.error = false
  := by
  simp only [velySelectTable, velyLiteExec, velyLiteGetData, hrows, getRows, hfails,
    Bool.false_eq_true, if_false, velyLiteNrows]
  generalize hs : ({ s with qnumrows := 0, qrownow := 0, qrows := none, qcolid := 0 } : Lite) = s'
  obtain ⟨k, hk⟩ := colNames_snd names stmt s'
  rw [hk, ← hs]
  rfl

/-- The rows that are reported are those of the statement. -/
theorem velySelectTable_data {names : Bool}
    (h : (velyLiteExec (some stmt) s).1 = true) :
  (velySelectTable names (some stmt) s).1.error = false ∧
    List.Forall₂ (List.Forall₂ (fun c text => c.fetch = some text)) stmt.rows
      (velySelectTable names (some stmt) s).1.data
  := by
  have hok := @getRows_ok stmt { s with qrows := none, qnumrows := 0 } stmt.rows
  have hcount := @getRows_qnumfields stmt { s with qrows := none, qnumrows := 0 } stmt.rows rfl
  simp only [velySelectTable, velyLiteExec, velyLiteGetData] at h ⊢
  generalize getRows stmt stmt.rows { s with qrows := none, qnumrows := 0 } = x at h hok hcount ⊢
  obtain ⟨ok, s'⟩ := x
  cases ok with
  | false => cases h
  | true =>
    obtain ⟨-, -, hnum, data, hdata, hq⟩ := hok rfl
    simp only at hnum hcount hq
    have hlength : data.length = stmt.rows.length := hdata.length_eq.symm
    obtain ⟨k, hk⟩ := colNames_snd names stmt { s' with qrownow := 0 }
    have hread : (fetchRows s'.qnumrows { s' with qrownow := 0, qcolid := k }).1 = true ∧
        (fetchRows s'.qnumrows { s' with qrownow := 0, qcolid := k }).2.1 = data := by
      rw [hnum, Nat.zero_add, ← hlength]
      by_cases hnil : stmt.rows = []
      · rw [hnil] at hdata
        cases hdata
        exact ⟨rfl, rfl⟩
      · rw [if_neg hnil] at hcount
        apply @fetchRows_eq _ []
        · exact hq hnil
        · rfl
        · intro row hrow
          obtain ⟨i, hi, rfl⟩ := List.getElem_of_mem hrow
          have hcells := hdata.get (hlength ▸ hi) hi
          simp only [List.get_eq_getElem] at hcells
          rw [← hcells.length_eq, hcount]
          apply stmt.rows_length
          apply List.getElem_mem
    simp only [hk, velyLiteNrows, hread]
    exact ⟨rfl, hdata⟩

end Step

/-- What the driver counts after a run. -/
theorem run_qnumfields (calls : List Call) (s : Lite) :
  (run calls s).qnumfields = lastCount s.qnumfields calls
  := by
  induction calls generalizing s with
  | nil => rfl
  | cons c calls ih =>
    have hstep : (c.exec s).qnumfields
        = match c.stmt with
          | some stmt => if stmt.rows = [] then s.qnumfields else stmt.columns.length
          | none => s.qnumfields := by
      cases c with
      | select names stmt =>
        rw [Call.exec, velySelectTable_qnumfields, velyLiteExec_qnumfields]
        rfl
      | execute stmt =>
        rw [Call.exec, velyLiteExec_qnumfields]
        rfl
    have hrun : run (c :: calls) s = run calls (c.exec s) := rfl
    rw [hrun, ih, hstep]
    rfl

/-- A list of names read up to a count is the list of the names when the count is that of the names.
-/
theorem map_getElem_range {α : Type} (l : List α) :
  (List.range l.length).map (l[·]?) = l.map some
  := by
  apply List.ext_getElem
  · simp
  · intro i hi hi'
    simp only [List.length_map, List.length_range] at hi
    simp [hi]

/-- The columns that are reported for every query are those of its own statement exactly when a
query without rows has as many columns as the last statement that gave a row. -/
theorem ownColumns_iff (calls : List Call) :
  OwnColumns calls ↔ CountsFit calls
  := by
  have hcount : ∀ before (stmt : LiteStmt),
      (velyLiteExec (some stmt) (run before start)).2.qnumfields
        = if stmt.rows = [] then lastCount 0 before else stmt.columns.length := by
    intro before stmt
    rw [velyLiteExec_qnumfields, run_qnumfields]
    rfl
  constructor
  · intro h before names stmt hcalls hrows hfails
    have herror := @velySelectTable_of_empty stmt (run before start) names hrows hfails
    have hncol := (velySelectTable_report herror).2.1
    rw [hcount, if_pos hrows] at hncol
    rw [← (h before names stmt hcalls herror).1, hncol]
  · intro h before names stmt hcalls herror
    obtain ⟨hfails, hncol, hnames⟩ := velySelectTable_report herror
    have hlength : (velyLiteExec (some stmt) (run before start)).2.qnumfields
        = stmt.columns.length := by
      rw [hcount]
      split
      · rename_i hrows
        exact (h before names stmt hcalls hrows hfails).symm
      · rfl
    rw [hlength] at hncol hnames
    constructor
    · exact hncol
    · intro hn
      rw [hnames hn, map_getElem_range]

/-- A statement with the columns `a` and `b` and a row, then one with the column `c` and no row: the
second is reported with two columns, and the second name is not there. -/
theorem not_ownColumns_empty :
  ¬ OwnColumns
    [.select true (some ⟨[⟨[97], by decide⟩, ⟨[98], by decide⟩], [[.text [49], .text [50]]], false,
      by decide⟩),
    .select true (some ⟨[⟨[99], by decide⟩], [], false, by decide⟩)]
  := by
  intro h
  have hown := h [_] _ _ (List.prefix_refl _) rfl
  exact absurd hown.1 (by decide)

end Lite

end Vely
