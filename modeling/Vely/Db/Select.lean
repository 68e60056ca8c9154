import Vely.Db.Lite
import Vely.Db.Model
import Vely.Lib.Ctype

/-!
# The rows of a query

A query is executed, its result is stored or used, and its rows are read one by one into an array
that grows.  The number of rows is told by the driver before the first row is read, and the caller's
variables keep what they had where nothing is assigned to them.

What the libraries of the databases answer is given with a call: whether a statement is refused,
what they say of an error at each point, and the rows with the outcome of each step of their
reading.
-/

namespace Vely

open Db (OnError)

/-- What a pointer of the data leads to: nothing, a string of some bytes that ends with a zero, or
memory that holds none. -/
inductive Field where
  | null
  | text (bytes : List UInt8)
  | stray
  deriving DecidableEq

namespace Select

/-- Where a query can fail. -/
inductive Point where
  | execute
  | again
  | store
  | fetch (r : Nat)
  deriving DecidableEq

/-- What is known of an error: whether the connection is lost, its code, and its text for the code.
-/
structure Fault where
  lost : Bool
  error : CString
  errm : CString → CString

/-- A row in the library of MariaDB, with `none` for a column that is null.  For a prepared
statement: whether the binding of the result succeeds, the fetch, and that of each column. -/
structure MariaRow where
  fields : List (Option (List UInt8))
  bound : Bool
  fetched : Bool
  column : Nat → Bool

/-- The bytes of a column, none if it is null. -/
def bytesOf (field : Option (List UInt8)) : List UInt8 := field.getD []

/-- A result in the library of MariaDB: whether its description is there for a prepared statement,
and whether it can be stored, or used. -/
structure MariaResult where
  columns : List CString
  rows : List MariaRow
  described : Bool
  kept : Bool
  rows_length : ∀ row ∈ rows, row.fields.length = columns.length

/-- A result in the library of PostgreSQL. -/
structure PgResult where
  columns : List CString
  rows : List (List (Option (List UInt8)))
  rows_length : ∀ row ∈ rows, row.length = columns.length

/-- What a database has for a query.  SQLite runs the statement when it is executed. -/
inductive Source where
  | mariadb (refused : Bool) (result : MariaResult)
  | postgres (refused : Bool) (result : PgResult)
  | sqlite (stmt : Option LiteStmt) (s : Lite)

/-- A call of `vely_select_table`: whether the names of columns and the data are asked for, whether
the statement is prepared, how errors are handled, and what the database answers. -/
structure Call where
  source : Source
  names : Bool
  data : Bool
  isPrep : Bool
  exitOnError : Bool
  erract : OnError
  inTransaction : Bool
  reconnects : Bool
  refusedAgain : Bool
  affected : Int
  fault : Point → Fault

/-- The variables of the caller. -/
structure Outputs where
  arow : Int
  nrow : Nat
  ncol : Nat
  colNames : List CString
  data : List Field
  dlen : List (Option Nat)
  er : CString
  errm : CString

/-- A call returns, it ends the request with an error report, or it reads a null pointer. -/
inductive Outcome where
  | returned (o : Outputs)
  | reported
  | crashed

/-- `"0"` -/
def oker : CString := ⟨ascii "0", by decide⟩

/-- The code for a lost connection. -/
def lostError : CString := ⟨ascii "-1", by decide⟩

/-- `lostm` -/
def lostm : CString := ⟨ascii "Database connection lost or cannot be (re)established", by decide⟩

/-- Whether the connection is lost; that of SQLite never is. -/
def Call.lost (c : Call) (p : Point) : Bool :=
  match c.source with
  | .sqlite _ _ => false
  | _ => (c.fault p).lost

/-- The code and the text of an error. -/
def Call.told (c : Call) (p : Point) : CString × CString :=
  if c.lost p then (lostError, lostm) else ((c.fault p).error, (c.fault p).errm (c.fault p).error)

/-- Whether an error is reported: the setting of the statement goes before that of the database. -/
def Call.reperr (c : Call) : Bool :=
  if c.exitOnError then c.erract ≠ .onErrorContinue else c.erract = .onErrorExit

/-- How an error is handled: the connection is made again, or it is told, or reported. -/
inductive Handled where
  | again
  | told (told : CString × CString)
  | reported

/-- `vely_handle_error` -/
def velyHandleError (c : Call) (p : Point) (retry : Bool) : Handled :=
  if c.lost p && retry then
    -- a connection that cannot be made is reported
    if c.reconnects then .again else .reported
  else if c.reperr then .reported
  else .told (c.told p)

/-- How an execution ends. -/
inductive Executed where
  | done
  | told (told : CString × CString)
  | reported

/-- Whether the statement is refused. -/
def Call.execres (c : Call) : Bool :=
  match c.source with
  | .mariadb refused _ => refused
  | .postgres refused _ => refused
  | .sqlite stmt s => !(Lite.velyLiteExec stmt s).1

/-- `vely_execute_SQL`, for a text that is not empty and does not begin or end a transaction. -/
def velyExecuteSQL (c : Call) : Executed :=
  if c.execres then
    match velyHandleError c .execute (!c.inTransaction) with
    | .told told => .told told
    | .reported => .reported
    | .again =>
      if c.refusedAgain then
        match velyHandleError c .again false with
        | .told told => .told told
        | _ => .reported
      else .done
  else .done

/-- A row as it is given by a driver: whether it is to be copied, its columns and their lengths. -/
structure Row where
  needCopy : Bool
  fields : List Field
  lens : List Nat

/-- `vely_maria_stmt_rows`.  The first fetch is truncated unless no column has bytes; then the
columns are left in a variable of the function. -/
def velyMariaStmtRows (row : MariaRow) : Option Row :=
  if !row.bound then none
  else if !row.fetched then none
  else if row.fields.any (fun f => bytesOf f ≠ []) then
    if (List.range row.fields.length).all row.column then
      some ⟨false, row.fields.map (fun f => .text (bytesOf f)),
        row.fields.map (fun f => (bytesOf f).length)⟩
    else none
  else
    some ⟨false, row.fields.map (fun _ => .stray), row.fields.map (fun f => (bytesOf f).length)⟩

/-- `vely_maria_rows` -/
def velyMariaRows (isPrep : Bool) (row : MariaRow) : Option Row :=
  if isPrep then velyMariaStmtRows row
  else
    some ⟨true, row.fields.map (fun f => match f with | some bytes => .text bytes | none => .null),
      row.fields.map (fun f => (bytesOf f).length)⟩

/-- `vely_pg_rows` -/
def velyPgRows (row : List (Option (List UInt8))) : Row :=
  ⟨true, row.map (fun f => .text (bytesOf f)), row.map (fun f => (bytesOf f).length)⟩

/-- `vely_lite_rows` -/
def velyLiteRows (s : Lite) : Option Row × Lite :=
  ((Lite.velyLiteRows s).1.map fun row => ⟨false, row.map .text, row.map List.length⟩,
    (Lite.velyLiteRows s).2)

/-- A result whose rows are read: those that are left, all of them, or what SQLite keeps. -/
inductive Open where
  | mariadb (isPrep : Bool) (rows : List MariaRow)
  | postgres (rows : List (List (Option (List UInt8))))
  | sqlite (s : Lite)

/-- The row `r` is read. -/
def Open.fetch (r : Nat) : Open → Option Row × Open
  | .mariadb isPrep [] => (none, .mariadb isPrep [])
  | .mariadb isPrep (row :: rows) => (velyMariaRows isPrep row, .mariadb isPrep rows)
  | .postgres rows => (rows[r]?.map velyPgRows, .postgres rows)
  | .sqlite s => ((velyLiteRows s).1, .sqlite (velyLiteRows s).2)

/-- What is put in the data for a column of a row, and its length. -/
def Row.entry (row : Row) (i : Nat) : Field × Nat :=
  let len := row.lens.getD i 0
  match row.fields.getD i .null with
  | .text bytes => (.text (bytes.take len), len)
  | .null => (if row.needCopy then .text [] else .null, len)
  | .stray => (.stray, len)

/-- `VV_INITIAL_QUERY_BATCH` -/
def initialQueryBatch : Nat := 200

/-- The arrays that are filled, and for how many rows there is room in them. -/
structure Table where
  queryBatch : Nat
  data : List Field
  dlen : List (Option Nat)

/-- The arrays as they are allocated. -/
def Table.calloc (numFields : Nat) : Table where
  queryBatch := initialQueryBatch
  data := List.replicate (initialQueryBatch * numFields) .null
  dlen := List.replicate (initialQueryBatch * numFields) (some 0)

/-- There is room for the row `r`; what is added has no contents. -/
def Table.room (numFields r : Nat) (t : Table) : Table :=
  if t.queryBatch ≤ r then
    ⟨t.queryBatch + initialQueryBatch,
      t.data ++ List.replicate (initialQueryBatch * numFields) .stray,
      t.dlen ++ List.replicate (initialQueryBatch * numFields) none⟩
  else t

/-- A column of the row `r` is put in its place. -/
def Table.put (numFields r : Nat) (row : Row) (t : Table) (i : Nat) : Table :=
  { t with
    data := t.data.set (r * numFields + i) (row.entry i).1
    dlen := t.dlen.set (r * numFields + i) (some (row.entry i).2) }

/-- The columns of the row `r` are put in their places. -/
def Table.fill (numFields r : Nat) (row : Row) (t : Table) : Table :=
  (List.range numFields).foldl (Table.put numFields r row) t

/-- The loop over the rows from `r` on, `n` of them; the answer is the row that cannot be read. -/
def readRows (numFields : Nat) : Nat → Nat → Open → Table → Option Nat × Table
  | 0, _, _, t => (none, t)
  | n + 1, r, rows, t =>
    match rows.fetch r with
    | (none, _) => (some r, t)
    | (some row, rows) => readRows numFields n (r + 1) rows ((t.room numFields r).fill numFields r row)

/-- `vely_maria_use` -/
def velyMariaUse (isPrep : Bool) (result : MariaResult) : Bool :=
  if isPrep then result.described else result.kept

/-- `vely_maria_store`; whether the description of the result is there is not looked at. -/
def velyMariaStore (result : MariaResult) : Bool := result.kept

/-- Whether the result can be stored, or used if no data are asked for. -/
def Call.keeps (c : Call) : Bool :=
  match c.source with
  | .mariadb _ result => if c.data then velyMariaStore result else velyMariaUse c.isPrep result
  | _ => true

/-- Whether the columns can be counted: the description of a result is there. -/
def Call.counts (c : Call) : Bool :=
  match c.source with
  | .mariadb _ result => !c.isPrep || result.described
  | _ => true

/-- What SQLite keeps after the statement is executed. -/
def lite (stmt : Option LiteStmt) (s : Lite) : Lite := (Lite.velyLiteExec stmt s).2

/-- The number of columns. -/
def Call.numFields (c : Call) : Nat :=
  match c.source with
  | .mariadb _ result => result.columns.length
  | .postgres _ result => result.columns.length
  | .sqlite stmt s => Lite.velyLiteNfield (lite stmt s)

/-- The names of the columns as they are asked for; one that is not there is a null pointer. -/
def Call.fieldnames (c : Call) : List (Option CString) :=
  match c.source with
  | .mariadb _ result => result.columns.map some
  | .postgres _ result => result.columns.map some
  | .sqlite stmt s =>
    match stmt with
    | some stmt => (Lite.fieldnames stmt c.numFields (lite stmt s)).1
    | none => []

/-- The number of rows. -/
def Call.nrows (c : Call) : Nat :=
  match c.source with
  | .mariadb _ result => result.rows.length
  | .postgres _ result => result.rows.length
  | .sqlite stmt s => Lite.velyLiteNrows (lite stmt s)

/-- The result as its rows are read. -/
def Call.opened (c : Call) : Open :=
  match c.source with
  | .mariadb _ result => .mariadb c.isPrep result.rows
  | .postgres _ result => .postgres result.rows
  | .sqlite stmt s => .sqlite (lite stmt s)

/-- An error is handled and the call returns. -/
def Call.fail (c : Call) (p : Point) (o : Outputs) : Outcome :=
  match velyHandleError c p false with
  | .told told => .returned { o with er := told.1, errm := told.2 }
  | _ => .reported

/-- The data are allocated and filled. -/
def Call.getData (c : Call) (o : Outputs) : Outcome :=
  let o := { o with nrow := c.nrows }
  match readRows c.numFields c.nrows 0 c.opened (Table.calloc c.numFields) with
  | (none, t) => .returned { o with data := t.data, dlen := t.dlen }
  | (some r, t) => c.fail (.fetch r) { o with data := t.data, dlen := t.dlen }

/-- `vely_select_table` -/
def velySelectTable (c : Call) (o : Outputs) : Outcome :=
  match velyExecuteSQL c with
  | .reported => .reported
  | .told told => .returned { o with er := told.1, errm := told.2, nrow := 0 }
  | .done =>
    let o := { o with er := oker, errm := CString.empty }
    if !c.keeps then c.fail .store o
    else if !c.counts then .crashed
    else
      let o := { o with arow := c.affected, ncol := c.numFields }
      match if c.names then c.fieldnames.mapM id else some o.colNames with
      | none => .crashed
      | some names =>
        let o := { o with colNames := names }
        if c.data then c.getData o else .returned { o with nrow := 0 }

/-- The variables describe the array: an entry within the counts is a string, with its length. -/
def Describes (o : Outputs) : Prop :=
  ∀ r < o.nrow, ∀ c < o.ncol, ∃ bytes,
    o.data[r * o.ncol + c]? = some (.text bytes) ∧
      o.dlen[r * o.ncol + c]? = some (some bytes.length)

/-- The statement is executed, at once or after the connection is made again. -/
def Call.executes (c : Call) : Bool :=
  !c.execres || (c.lost .execute && !c.inTransaction && c.reconnects && !c.refusedAgain)

/-- Every step of the reading of a row succeeds. -/
def MariaRow.Readable (row : MariaRow) : Prop :=
  row.bound = true ∧ row.fetched = true ∧
    ((∃ f ∈ row.fields, bytesOf f ≠ []) → ∀ i < row.fields.length, row.column i = true)

/-- A column of the row is neither null nor empty. -/
def MariaRow.HasBytes (row : MariaRow) : Prop := ∃ f ∈ row.fields, bytesOf f ≠ []

/-- The row `r` of a prepared statement of MariaDB is the first that cannot be read. -/
def Call.Unreadable (c : Call) (r : Nat) : Prop :=
  match c.source with
  | .mariadb _ result => c.isPrep = true ∧
      (∃ row, result.rows[r]? = some row ∧ ¬ row.Readable) ∧
      ∀ row ∈ result.rows.take r, row.Readable
  | _ => False

/-- The names of the columns are there, if they are asked for: SQLite has not kept the number of
columns of a query before for a statement that gives no row and has fewer of them. -/
def Call.NamesThere (c : Call) : Prop :=
  match c.source with
  | .sqlite (some stmt) s => c.names = true → stmt.rows = [] → s.qnumfields ≤ stmt.columns.length
  | _ => True

/-- What goes wrong at a point: the statement is refused, or again after the connection was made
again, the result cannot be kept, or a row cannot be read. -/
def Call.Fails (c : Call) : Point → Prop
  | .execute => c.execres = true ∧ (c.lost .execute && !c.inTransaction) = false
  | .again => c.execres = true ∧ (c.lost .execute && !c.inTransaction) = true ∧ c.refusedAgain = true
  | .store => c.executes = true ∧ c.keeps = false
  | .fetch r => c.executes = true ∧ c.keeps = true ∧ c.counts = true ∧ c.data = true ∧ c.Unreadable r

/-- On return the counts describe the array, and the error of what went wrong is told. -/
def Consistent (c : Call) : Outcome → Prop
  | .returned o => Describes o ∧ ∀ p, c.Fails p → (o.er, o.errm) = c.told p
  | .reported => True
  | .crashed => False

/-- The rows of a prepared statement of MariaDB can be read and have a column that is neither null
nor empty, or one cannot be read and errors end the request. -/
def Call.RowsSound (c : Call) : Prop :=
  match c.source with
  | .mariadb _ result => c.isPrep = true → result.columns ≠ [] →
      (∀ row ∈ result.rows, row.Readable ∧ row.HasBytes) ∨
        c.reperr = true ∧ ∃ row ∈ result.rows, ¬ row.Readable
  | _ => True

/-- A result that cannot be kept meets variables that describe their array, or errors end the
request; the description and the names of one that can be kept are there, and its rows can be read.
-/
def Call.Sound (c : Call) (o : Outputs) : Prop :=
  c.executes = true →
    if c.keeps then c.counts = true ∧ c.NamesThere ∧ (c.data = true → c.RowsSound)
    else c.reperr = true ∨ Describes o

end Select

end Vely
