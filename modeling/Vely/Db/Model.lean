import Vely.Lib.Triple
import Mathlib.Logic.Function.Basic

/-!
# Database connections

A program uses databases by number.  Each has at most one connection, which is made when it is first
needed, is kept across requests and is made again when it is found lost, unless the flag of the
database says that a transaction is open.  Prepared statements are kept in variables of the program,
one for each query, with one list of these variables for all databases.

Connections are numbered in the order they are made.  What the database servers answer, and whether
a connection can be made, is given with each call.
-/

namespace Vely

namespace Db

/-- `VV_DB_MARIADB`, `VV_DB_POSTGRES` and `VV_DB_SQLITE` -/
inductive Vendor where
  | mariadb
  | postgres
  | sqlite
  deriving DecidableEq

/-- What is executed: a statement is one that is prepared in a variable, or is not prepared. -/
inductive Sql where
  | begin
  | commit
  | rollback
  | statement (prep : Option Nat)
  deriving DecidableEq

/-- What comes back from a database: success, an error, or the connection is lost. -/
inductive Answer where
  | ok
  | refused
  | lost
  deriving DecidableEq

/-- How the making of a connection ends: it is made; it fails and what was allocated for it stays;
or it fails and is closed. -/
inductive Connect where
  | made
  | bad
  | gone
  deriving DecidableEq

/-- What is answered when a statement is sent, after a connection is made for it if need be. -/
structure Try where
  connect : Connect
  prepare : Answer
  run : Answer

/-- What is answered to a statement, and to it again if the connection is lost. -/
structure Attempt where
  first : Try
  again : Try

/-- `VV_OKAY`, `VV_ON_ERROR_CONTINUE` and `VV_ON_ERROR_EXIT` -/
inductive OnError where
  | okay
  | onErrorContinue
  | onErrorExit
  deriving DecidableEq

/-- `one_db`: the type of a database, the number of its connection, and its flags. -/
structure OneDb where
  dbType : Vendor
  dbc : Option Nat
  isBeginTransaction : Bool
  hasConnected : Bool
  exitOnError : Bool

/-- A statement that was sent: its connection, what came back, whether a transaction was open on the
connection, the connection that its handle was prepared on, and whether it was prepared under a name
that the connection has. -/
structure Sent where
  conn : Nat
  answer : Answer
  inTransaction : Bool
  handle : Option Nat
  clash : Bool

/-- An execution by `vely_execute_SQL`: its database, what is executed, whether an error ends the
request, and what was sent. -/
structure Entry where
  db : Nat
  sql : Sql
  exits : Bool
  sent : List Sent

/-- A connection that is made: its database, and whether a variable that is reset for it has a
handle of a live connection. -/
structure Made where
  db : Nat
  others : Bool

/-- The databases of a process, its variables for prepared statements with the list of them, and the
connections: how many were made, which are alive, which have an open transaction, and the names that
are prepared on each.  The executions and the connections made are recorded, the last one first. -/
structure Dbs where
  conn : Nat → OneDb
  prep : Nat → Option Nat
  allpreps : List (Nat × Vendor)
  next : Nat
  alive : Nat → Bool
  opened : Nat → Bool
  prepared : Nat → List Nat
  log : List Entry
  made : List Made
  inRequest : Bool
  exited : Bool

/-- A process that starts, with databases of the given types. -/
def start (types : Nat → Vendor) : Dbs where
  conn d := ⟨types d, none, false, false, true⟩
  prep _ := none
  allpreps := []
  next := 0
  alive _ := false
  opened _ := false
  prepared _ := []
  log := []
  made := []
  inRequest := false
  exited := false

/-- A computation of the program; it gives up where `vely_report_error` is called. -/
abbrev M := EStateM Unit Dbs

/-- `vely_report_error`, which does not return. -/
def velyReportError {α : Type} : M α := throw ()

/-- The database `d` is changed. -/
def Dbs.setConn (s : Dbs) (d : Nat) (db : OneDb) : Dbs :=
  { s with conn := Function.update s.conn d db }

/-- `vely_end_connection (1)` -/
def velyEndConnection (d : Nat) (s : Dbs) : Dbs :=
  match (s.conn d).dbc with
  | none => s
  | some c =>
    { s with
      conn := Function.update s.conn d { s.conn d with dbc := none, isBeginTransaction := false }
      alive := Function.update s.alive c false
      opened := Function.update s.opened c false }

/-- `vely_pg_close_stmt`, `vely_maria_close_stmt` and `vely_lite_close_stmt`: the statement of a
variable is closed on the connection of the database, if there is one. -/
def closeStmt (d p : Nat) (s : Dbs) : Dbs :=
  match s.prep p, (s.conn d).dbc with
  | some _, some c =>
    { s with prepared := Function.update s.prepared c ((s.prepared c).filter (· ≠ p)) }
  | _, _ => s

/-- The loop of `vely_db_prep (NULL)`: the variables of the type of database are reset. -/
def resetPreps (d : Nat) : List (Nat × Vendor) → Dbs → Dbs
  | [], s => s
  | (p, v) :: preps, s =>
    if v = (s.conn d).dbType then
      let s := closeStmt d p s
      resetPreps d preps { s with prep := Function.update s.prep p none }
    else resetPreps d preps s

/-- `vely_db_prep` with a variable, which is added to the list. -/
def velyDbPrep (p d : Nat) (s : Dbs) : Dbs :=
  { s with allpreps := s.allpreps ++ [(p, (s.conn d).dbType)] }

/-- Whether a variable that is reset for the database has a handle of a live connection. -/
def Dbs.othersHeld (s : Dbs) (d : Nat) : Bool :=
  s.allpreps.any fun x =>
    x.2 = (s.conn d).dbType &&
      match s.prep x.1 with
      | some c => s.alive c
      | none => false

/-- A connection that is made is the next one; it is alive if the database can be reached. -/
def newConnection (d : Nat) (up : Bool) (s : Dbs) : Dbs :=
  let s := { s with made := ⟨d, s.othersHeld d⟩ :: s.made }
  let s := resetPreps d s.allpreps s
  { s with
    conn := Function.update s.conn d { s.conn d with dbc := some s.next }
    next := s.next + 1
    alive := Function.update s.alive s.next up }

/-- `vely_pg_connect`, `vely_maria_connect` and `vely_lite_connect`, which report an error when the
connection cannot be made. -/
def velyConnect (k : Connect) (d : Nat) : M Unit :=
  match k with
  | .made => modify (newConnection d true)
  | .bad => do
    modify (newConnection d false)
    velyReportError
  | .gone => do
    modify (newConnection d true)
    modify (velyEndConnection d)
    velyReportError

/-- `vely_get_db_connection (1)` -/
def velyGetDbConnection (k : Connect) (d : Nat) : M Unit := do
  let s ← get
  match (s.conn d).dbc with
  | some _ => pure ()
  | none =>
    if (s.conn d).hasConnected = true ∧ (s.conn d).isBeginTransaction = true then velyReportError
    else do
      velyConnect k d
      modify fun s =>
        s.setConn d { s.conn d with hasConnected := true, isBeginTransaction := false }

/-- `vely_retry_db` -/
def velyRetryDb (k : Connect) (d : Nat) : M Unit := do
  modify (velyEndConnection d)
  velyGetDbConnection k d

/-- What comes back on a connection. -/
def Dbs.reply (s : Dbs) (c : Nat) (a : Answer) : Answer := if s.alive c then a else .lost

/-- What an answer leaves of a transaction. -/
def Sql.leaves (sql : Sql) (a : Answer) (open' : Bool) : Bool :=
  match a, sql with
  | .ok, .begin => true
  | .ok, .commit => false
  | .ok, .rollback => false
  | .ok, .statement _ => open'
  | .refused, _ => open'
  | .lost, _ => false

/-- A statement that was sent is recorded with the execution that is last. -/
def Dbs.record (s : Dbs) (x : Sent) : Dbs :=
  match s.log with
  | e :: log => { s with log := { e with sent := e.sent ++ [x] } :: log }
  | [] => s

/-- A statement is sent on the connection `c` and answered. -/
def Dbs.send (s : Dbs) (sql : Sql) (c : Nat) (a : Answer) (handle : Option Nat) (clash : Bool) : Dbs :=
  { s.record ⟨c, a, s.opened c, handle, clash⟩ with
    alive := if a = .lost then Function.update s.alive c false else s.alive
    opened := Function.update s.opened c (sql.leaves a (s.opened c)) }

/-- The name of a statement is one that a live connection has; only PostgreSQL names statements. -/
def Dbs.clashes (s : Dbs) (d c p : Nat) : Bool :=
  s.alive c && (s.conn d).dbType = .postgres && p ∈ s.prepared c

/-- `vely_pg_prep_stmt`, `vely_maria_prep_stmt` and `vely_lite_prep_stmt`, with the execution that
follows: a handle that is there is used, else the statement is prepared. -/
def execPrepared (d p c : Nat) (t : Try) (s : Dbs) : Answer × Dbs :=
  match s.prep p with
  | some h =>
    (s.reply c t.run, s.send (.statement (some p)) c (s.reply c t.run) (some h) false)
  | none =>
    if s.clashes d c p then (.refused, s.send (.statement (some p)) c .refused none true)
    else
      match s.reply c t.prepare with
      | .ok =>
        let s :=
          { s with
            prepared := Function.update s.prepared c (p :: s.prepared c)
            prep := Function.update s.prep p (some c) }
        (s.reply c t.run, s.send (.statement (some p)) c (s.reply c t.run) (some c) false)
      | a => (a, s.send (.statement (some p)) c a none false)

/-- `vely_pg_exec`, `vely_maria_exec` and `vely_lite_exec` on the connection of the database. -/
def velyExec (d : Nat) (sql : Sql) (t : Try) (s : Dbs) : Answer × Dbs :=
  match (s.conn d).dbc with
  | none => (.lost, s)
  | some c =>
    match sql with
    | .statement (some p) => execPrepared d p c t s
    | sql => (s.reply c t.run, s.send sql c (s.reply c t.run) none false)

/-- `vely_pg_checkc`, `vely_maria_checkc` and `vely_lite_checkc`: SQLite has no connection to lose.
-/
def velyCheckc (d : Nat) (s : Dbs) : Bool :=
  match (s.conn d).dbType with
  | .sqlite => true
  | _ =>
    match (s.conn d).dbc with
    | some c => s.alive c
    | none => false

/-- Whether an error is reported: the setting of a statement goes before that of the database. -/
def OneDb.reperr (db : OneDb) (erract : OnError) : Bool :=
  if db.exitOnError then erract ≠ .onErrorContinue else erract = .onErrorExit

/-- `vely_handle_error`: whether the connection was lost and made again. -/
def velyHandleError (d : Nat) (retry : Bool) (k : Connect) (erract : OnError) : M Bool := do
  let s ← get
  if velyCheckc d s = false ∧ retry = true then do
    velyRetryDb k d
    pure true
  else if (s.conn d).reperr erract then velyReportError
  else pure false

/-- `vely_execute_SQL`, for a text that is not empty and, where it is the program's own, does not
begin or end a transaction. -/
def velyExecuteSql (d : Nat) (sql : Sql) (erract : OnError) (att : Attempt) : M Bool := do
  modify fun s => { s with log := ⟨d, sql, (s.conn d).reperr erract, []⟩ :: s.log }
  velyGetDbConnection att.first.connect d
  let a ← modifyGet (velyExec d sql att.first)
  if a = .ok then pure true
  else do
    let s ← get
    if (s.conn d).isBeginTransaction = false then do
      let again ← velyHandleError d true att.again.connect erract
      if again = true then do
        let a ← modifyGet (velyExec d sql att.again)
        if a = .ok then pure true
        else velyHandleError d false att.again.connect erract
      else pure false
    else velyHandleError d false att.again.connect erract

/-- `is_begin_transaction` is set or cleared. -/
def setBegin (d : Nat) (b : Bool) : M Unit :=
  modify fun s => s.setConn d { s.conn d with isBeginTransaction := b }

/-- `vely_begin_transaction` -/
def velyBeginTransaction (d : Nat) (erract : OnError) (att : Attempt) : M Bool := do
  let ok ← velyExecuteSql d .begin erract att
  setBegin d ok
  pure ok

/-- `vely_commit` -/
def velyCommit (d : Nat) (erract : OnError) (att : Attempt) : M Bool := do
  setBegin d false
  velyExecuteSql d .commit erract att

/-- `vely_rollback` -/
def velyRollback (d : Nat) (erract : OnError) (att : Attempt) : M Bool := do
  setBegin d false
  velyExecuteSql d .rollback erract att

/-- The loop of `vely_check_transaction`: whether a transaction was open. -/
def rollbackAll (atEnd : Nat → Attempt) : List Nat → M Bool
  | [] => pure false
  | i :: is => do
    let s ← get
    if (s.conn i).isBeginTransaction = true then do
      let _ ← velyRollback i .okay (atEnd i)
      let _ ← rollbackAll atEnd is
      pure true
    else rollbackAll atEnd is

/-- `vely_check_transaction`, with the number of databases and the mode. -/
def velyCheckTransaction (totDbs : Nat) (checkMode : Nat) (atEnd : Nat → Attempt) : M Unit := do
  let err ← rollbackAll atEnd (List.range totDbs)
  if err = true ∧ checkMode ≠ 1 then velyReportError
  else pure ()

/-- What a program does: a transaction or a statement on a database, a prepared query, `on-error`,
an error it reports, and the end of a request. -/
inductive Call where
  | execute (d : Nat) (sql : Sql) (erract : OnError)
  | prepared (p : Nat) (erract : OnError)
  | onError (d : Nat) (exit : Bool)
  | reportError
  | endRequest

/-- What is answered during a call, and at the end of the request to each database. -/
structure Env where
  own : Attempt
  atEnd : Nat → Attempt

/-- A variable is in the list from the first time its query is executed. -/
def register (p d : Nat) : M Unit :=
  modify fun s => if p ∈ s.allpreps.map Prod.fst then s else velyDbPrep p d s

/-- What a statement or a transaction of the program executes. -/
def velyExecute (d : Nat) (sql : Sql) (erract : OnError) (att : Attempt) : M Bool :=
  match sql with
  | .begin => velyBeginTransaction d erract att
  | .commit => velyCommit d erract att
  | .rollback => velyRollback d erract att
  | .statement _ => velyExecuteSql d (.statement none) erract att

/-- What a call does, where each prepared query has its database. -/
def Call.body (home : Nat → Nat) (totDbs : Nat) (c : Call) (env : Env) : M Unit :=
  match c with
  | .execute d sql erract => do
    let _ ← velyExecute d sql erract env.own
    pure ()
  | .prepared p erract => do
    register p (home p)
    let _ ← velyExecuteSql (home p) (.statement (some p)) erract env.own
    pure ()
  | .onError d exit => modify fun s => s.setConn d { s.conn d with exitOnError := exit }
  | .reportError => velyReportError
  | .endRequest => do
    velyCheckTransaction totDbs 0 env.atEnd
    modify fun s => { s with inRequest := false }

/-- What follows a call of `vely_report_error`: the transactions are rolled back and the request
ends; an error there ends the process. -/
def afterReport (totDbs : Nat) (env : Env) (s : Dbs) : Dbs :=
  match velyCheckTransaction totDbs 1 env.atEnd s with
  | .ok _ s => { s with inRequest := false }
  | .error _ s => { s with exited := true }

/-- A call in a process that is there. -/
def Call.exec (home : Nat → Nat) (totDbs : Nat) (c : Call) (env : Env) (s : Dbs) : Dbs :=
  if s.exited then s
  else
    match c.body home totDbs env { s with inRequest := true } with
    | .ok _ s => s
    | .error _ s => afterReport totDbs env s

/-- A run of calls. -/
def run (home : Nat → Nat) (totDbs : Nat) (calls : List (Call × Env)) (s : Dbs) : Dbs :=
  calls.foldl (fun s x => x.1.exec home totDbs x.2 s) s

end Db

end Vely
