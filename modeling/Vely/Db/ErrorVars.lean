import Vely.Lib.Decimal
import Vely.Db.Execute

/-!
# The error variables

A statement gives the code and the text of its error to the program, `0` and no text when it
succeeds.  They are set by the execution, by the handling of an error, and once more after the
connection was lost and made again.  Beginning and ending a transaction leaves the variables as they
are when it fails, and the text of a query may carry what an earlier error left in `cerror`.
-/

namespace Vely

namespace Db

/-! ### What the databases tell -/

/-- The errors that are found outside of the database, kept in `cerror`. -/
inductive CError where
  | initStmt
  | prepare
  | prepareMemory
  | paramCount
  | bind
  | fetchRow
  | fetchColumn
  | store
  | store1
  | store2
  | store3
  | rowLengths
  | resultMemory
  deriving DecidableEq

namespace CError

/-- The text of `cerror`. -/
def text : CError → List UInt8
  | initStmt => ascii "Cannot initialize statement"
  | prepare => ascii "Cannot prepare statement"
  | prepareMemory => ascii "Out of memory for prepared statement"
  | paramCount => ascii "Wrong number of input parameters"
  | bind => ascii "Cannot bind input parameter"
  | fetchRow => ascii "Cannot fetch row"
  | fetchColumn => ascii "Cannot fetch data for column"
  | store => ascii "Error storing obtained data"
  | store1 => ascii "Error storing obtained data (1)"
  | store2 => ascii "Error storing obtained data (2)"
  | store3 => ascii "Error storing obtained data (3)"
  | rowLengths => ascii "Cannot get row field and length data"
  | resultMemory => ascii "Out of memory when obtaining query result"

end CError

/-- What there is of an error: its code and the message of the database, for PostgreSQL a detail,
and the error that was found outside of the database, if it was. -/
structure Failure where
  code : List UInt8
  message : List UInt8
  detail : List UInt8
  own : Option CError

/-- The text of a statement, and its place in the program. -/
structure Place where
  s : List UInt8
  sname : List UInt8
  lnum : Nat

/-- What is answered to a statement, and when its result is fetched, with the errors. -/
structure Errors where
  att : Attempt
  first : Failure
  again : Failure
  fetch : Answer
  fetched : Failure

/-- The variables for the error code and its text. -/
structure ErrVars where
  err : List UInt8
  errt : List UInt8
  deriving DecidableEq

/-- The size of `errm`. -/
def errmSize : Nat := 8192

/-- The text of an error as far as it comes before `cerror`. -/
def Place.lead (p : Place) : List UInt8 :=
  ascii "Error during query [" ++ p.s ++ ascii "], additional ["

/-- The text of an error as far as it comes after `cerror`. -/
def Place.trail (v : Vendor) (p : Place) (f : Failure) : List UInt8 :=
  let file := ascii "file [" ++ p.sname ++ ascii "], line [" ++ decimal p.lnum ++ ascii "] : ["
    ++ f.code ++ ascii "]"
  match v with
  | .postgres => ascii "], detail [" ++ f.detail ++ ascii "], " ++ file ++ f.message
  | _ =>
    -- `ER_PARSE_ERROR`
    ascii "] " ++ file ++ if f.code = ascii "1064" then
      ascii "Problem with parsing SQL statement" else f.message

/-- `vely_pg_errm`, `vely_maria_errm` and `vely_lite_errm` -/
def velyErrm (v : Vendor) (p : Place) (cerror : Option CError) (f : Failure) : List UInt8 :=
  (p.lead ++ ((cerror.elim [] CError.text) ++ p.trail v f)).take (errmSize - 1)

/-- The variables of a statement that succeeded. -/
def success : ErrVars := ⟨ascii "0", []⟩

/-- The variables for a connection that is lost. -/
def connectionLost : ErrVars :=
  ⟨ascii "-1", ascii "Database connection lost or cannot be (re)established"⟩

/-! ### The statements -/

/-- What an execution gives: whether it succeeded, the variables, and `cerror`. -/
structure Given where
  ok : Bool
  vars : ErrVars
  cerror : Option CError

/-- `vely_handle_error`, with the code and the text. -/
def velyHandleErrorText (d : Nat) (retry : Bool) (k : Connect) (erract : OnError) (p : Place)
    (cerror : Option CError) (f : Failure) : M (Bool × ErrVars) := do
  let s ← get
  if velyCheckc d s = false ∧ retry = true then do
    velyRetryDb k d
    pure (true, ⟨[], []⟩)
  else
    let vars := if velyCheckc d s = false then connectionLost
      else ⟨f.code, velyErrm (s.conn d).dbType p cerror f⟩
    if (s.conn d).reperr erract then velyReportError
    else pure (false, vars)

/-- What `vely_execute_SQL` does after an error: outside of a transaction a connection that is lost
is made again, and the statement is executed once more. -/
def afterError (d : Nat) (sql : Sql) (erract : OnError) (p : Place) (cerror : Option CError)
    (e : Errors) : M Given := do
  let s ← get
  if (s.conn d).isBeginTransaction = false then do
    let (again, vars) ← velyHandleErrorText d true e.att.again.connect erract p cerror e.first
    if again = true then do
      let a ← modifyGet (velyExec d sql e.att.again)
      if a = .ok then pure ⟨true, { vars with err := success.err }, cerror⟩
      else do
        let cerror := e.again.own.or cerror
        let (_, vars) ← velyHandleErrorText d false e.att.again.connect erract p cerror e.again
        pure ⟨false, vars, cerror⟩
    else pure ⟨false, vars, cerror⟩
  else do
    let (_, vars) ← velyHandleErrorText d false e.att.again.connect erract p cerror e.first
    pure ⟨false, vars, cerror⟩

/-- `vely_execute_SQL`, with the code and the text. -/
def velyExecuteSqlText (d : Nat) (sql : Sql) (erract : OnError) (p : Place)
    (cerror : Option CError) (e : Errors) : M Given := do
  modify fun s => { s with log := ⟨d, sql, (s.conn d).reperr erract, []⟩ :: s.log }
  velyGetDbConnection e.att.first.connect d
  let a ← modifyGet (velyExec d sql e.att.first)
  if a = .ok then pure ⟨true, success, cerror⟩
  else afterError d sql erract p (e.first.own.or cerror) e

/-- `vely_begin_transaction`, and what it leaves of the variables `v`. -/
def velyBeginTransactionText (d : Nat) (erract : OnError) (p : Place) (cerror : Option CError)
    (e : Errors) (v : ErrVars) : M ErrVars := do
  let g ← velyExecuteSqlText d .begin erract p cerror e
  setBegin d g.ok
  pure (if g.ok then g.vars else v)

/-- `vely_commit` and `vely_rollback`, and what they leave of the variables `v`. -/
def velyEndTransactionText (d : Nat) (sql : Sql) (erract : OnError) (p : Place)
    (cerror : Option CError) (e : Errors) (v : ErrVars) : M ErrVars := do
  setBegin d false
  let g ← velyExecuteSqlText d sql erract p cerror e
  pure (if g.ok then g.vars else v)

/-- What is left of a connection when a result is fetched. -/
def fetchResult (d : Nat) (a : Answer) (s : Dbs) : Dbs :=
  match a, (s.conn d).dbc with
  | .lost, some c =>
    { s with
      alive := Function.update s.alive c false
      opened := Function.update s.opened c false }
  | _, _ => s

/-- `vely_select_table`: the result is fetched from the database, except from PostgreSQL, where it
came with the answer. -/
def velySelectTableText (d : Nat) (prep : Option Nat) (erract : OnError) (p : Place)
    (cerror : Option CError) (e : Errors) : M ErrVars := do
  let g ← velyExecuteSqlText d (.statement prep) erract p cerror e
  if g.ok = true then do
    let s ← get
    if (s.conn d).dbType = .postgres ∨ e.fetch = .ok then pure g.vars
    else do
      modify (fetchResult d e.fetch)
      let (_, vars) ← velyHandleErrorText d false e.att.again.connect erract p
        (e.fetched.own.or g.cerror) e.fetched
      pure vars
  else pure g.vars

/-- The statements, with the variable of a prepared query, and whether a query has a result. -/
inductive Statement where
  | begin
  | commit
  | rollback
  | query (prep : Option Nat) (returnsTuple : Bool)

namespace Statement

/-- Whether a statement is a query. -/
def isQuery : Statement → Bool
  | .query _ _ => true
  | _ => false

/-- A statement of the program, and what it leaves of the variables `v`. -/
def run (d : Nat) (erract : OnError) (p : Place) (cerror : Option CError) (e : Errors)
    (v : ErrVars) : Statement → M ErrVars
  | .begin => velyBeginTransactionText d erract p cerror e v
  | .commit => velyEndTransactionText d .commit erract p cerror e v
  | .rollback => velyEndTransactionText d .rollback erract p cerror e v
  | .query prep true => velySelectTableText d prep erract p cerror e
  | .query prep false => do
    let g ← velyExecuteSqlText d (.statement prep) erract p cerror e
    pure g.vars

end Statement

/-! ### What is asked for -/

/-- How a statement ends in the database. -/
inductive Outcome where
  | ok
  | lost
  | failed (f : Failure)

namespace Outcome

/-- What the program is told when earlier errors left `kept`. -/
def shown (v : Vendor) (p : Place) (kept : Option CError) : Outcome → ErrVars
  | .ok => success
  | .lost => connectionLost
  | .failed f => ⟨f.code, velyErrm v p (f.own.or kept) f⟩

/-- What the program is to be told: nothing of an earlier error. -/
def vars (v : Vendor) (p : Place) (o : Outcome) : ErrVars :=
  o.shown v p none

/-- The text is of this failure alone: no earlier error was kept, or this one was found outside of
the database too, or the text of the statement leaves no room for it. -/
def Fresh (p : Place) (kept : Option CError) : Outcome → Prop
  | .failed f => kept = none ∨ f.own ≠ none ∨ errmSize - 1 ≤ p.lead.length
  | _ => True

end Outcome

/-- An error that comes back. -/
def failure (d : Nat) (f : Failure) (s : Dbs) : Outcome :=
  if velyCheckc d s = false then .lost else .failed f

/-- How an execution ends in the database, what earlier errors left, and what is left. -/
structure Ending where
  how : Outcome
  kept : Option CError
  left : Dbs

/-- How the execution of a statement ends that was answered with an error: outside of a transaction
it is executed once more when the connection is lost and can be made again. -/
def endingAfterError (d : Nat) (sql : Sql) (cerror : Option CError) (e : Errors) (s : Dbs) :
    Option Ending :=
  if velyCheckc d s = false ∧ (s.conn d).isBeginTransaction = false then
    match velyRetryDb e.att.again.connect d s with
    | .error _ _ => none
    | .ok _ s =>
      match velyExec d sql e.att.again s with
      | (.ok, s) => some ⟨.ok, e.first.own.or cerror, s⟩
      | (_, s) => some ⟨failure d e.again s, e.first.own.or cerror, s⟩
  else some ⟨failure d e.first s, cerror, s⟩

/-- How the execution of a statement ends, if there is a connection to be had. -/
def ending (d : Nat) (sql : Sql) (cerror : Option CError) (e : Errors) (s : Dbs) : Option Ending :=
  match velyGetDbConnection e.att.first.connect d s with
  | .error _ _ => none
  | .ok _ s =>
    match velyExec d sql e.att.first s with
    | (.ok, s) => some ⟨.ok, cerror, s⟩
    | (_, s) => endingAfterError d sql cerror e s

/-- An execution that begins is recorded. -/
def Dbs.enter (d : Nat) (sql : Sql) (erract : OnError) (s : Dbs) : Dbs :=
  { s with log := ⟨d, sql, (s.conn d).reperr erract, []⟩ :: s.log }

/-- The flag of an open transaction is set or cleared. -/
def Dbs.flag (d : Nat) (b : Bool) (s : Dbs) : Dbs :=
  s.setConn d { s.conn d with isBeginTransaction := b }

/-- How the fetching of the result of a query ends. -/
def Ending.fetch (d : Nat) (e : Errors) (r : Ending) : Ending :=
  match r.how with
  | .ok =>
    if (r.left.conn d).dbType = .postgres ∨ e.fetch = .ok then r
    else
      let left := fetchResult d e.fetch r.left
      ⟨failure d e.fetched left, r.kept, left⟩
  | _ => r

/-- How a statement ends. -/
def Statement.ending (d : Nat) (erract : OnError) (cerror : Option CError) (e : Errors) (s : Dbs) :
    Statement → Option Ending
  | .begin => Db.ending d .begin cerror e (s.enter d .begin erract)
  | .commit => Db.ending d .commit cerror e ((s.flag d false).enter d .commit erract)
  | .rollback => Db.ending d .rollback cerror e ((s.flag d false).enter d .rollback erract)
  | .query prep false => Db.ending d (.statement prep) cerror e (s.enter d (.statement prep) erract)
  | .query prep true =>
    (Db.ending d (.statement prep) cerror e (s.enter d (.statement prep) erract)).map
      (Ending.fetch d e)

/-- Whenever the statement returns, with whatever was in the variables before, they tell how it
ended: `0` and no text exactly if it succeeded, and else the code and the text of the failure. -/
def Statement.VarsOk (d : Nat) (erract : OnError) (p : Place) (cerror : Option CError) (e : Errors)
    (s : Dbs) (stmt : Statement) : Prop :=
  ∀ v v' s', stmt.run d erract p cerror e v s = .ok v' s' →
    ∃ r, stmt.ending d erract cerror e s = some r ∧ v' = r.how.vars (s.conn d).dbType p
      ∧ (v' = success ↔ r.how = .ok)

/-! ### Computations -/

section

variable {α β : Type} {x : M α} {f : α → M β} {s s' : Dbs}

theorem run_bind_ok {a : α} (h : x s = .ok a s') :
  (x >>= f) s = f a s'
  := by simp only [Bind.bind, EStateM.bind, h]

theorem run_bind_error {e : Unit} (h : x s = .error e s') :
  (x >>= f) s = .error e s'
  := by simp only [Bind.bind, EStateM.bind, h]

theorem run_modify_bind {g : Dbs → Dbs} {f : PUnit → M β} :
  (modify g >>= f) s = f ⟨⟩ (g s)
  := rfl

theorem run_modifyGet_bind {g : Dbs → α × Dbs} :
  ((modifyGet g : M α) >>= f) s = f (g s).1 (g s).2
  := rfl

theorem run_get_bind {f : Dbs → M β} :
  (get >>= f) s = f s s
  := rfl

end

/-! ### What stays of a database -/

section

variable {d : Nat} {sql : Sql} {erract : OnError} {e : Errors} {p : Place} {s s' s'' : Dbs}

/-- The type of a database and its setting for errors stay. -/
structure SameDb (d : Nat) (s s' : Dbs) : Prop where
  dbType : (s'.conn d).dbType = (s.conn d).dbType
  exitOnError : (s'.conn d).exitOnError = (s.conn d).exitOnError

theorem SameDb.refl (d : Nat) (s : Dbs) : SameDb d s s := ⟨rfl, rfl⟩

theorem SameDb.trans (h : SameDb d s s') (h' : SameDb d s' s'') :
  SameDb d s s''
  := ⟨h'.dbType.trans h.dbType, h'.exitOnError.trans h.exitOnError⟩

theorem SameDb.of_conn (h : s'.conn = s.conn) :
  SameDb d s s'
  := by
  constructor
  · rw [h]
  · rw [h]

theorem SameDb.reperr (h : SameDb d s s') (erract : OnError) :
  (s'.conn d).reperr erract = (s.conn d).reperr erract
  := by
  rw [OneDb.reperr, OneDb.reperr, h.exitOnError]

theorem sameDb_flag (b : Bool) : SameDb d s (s.flag d b) := by
  constructor
  · simp [Dbs.flag, Dbs.setConn]
  · simp [Dbs.flag, Dbs.setConn]

theorem sameDb_velyExec (t : Try) :
  SameDb d s (velyExec d sql t s).2
  := by
  cases hdbc : (s.conn d).dbc with
  | none =>
    rw [velyExec, hdbc]
    exact .refl d s
  | some c =>
    obtain ⟨x, hsends, -⟩ := sends_velyExec sql t hdbc
    exact .of_conn hsends.conn

theorem sameDb_newConnection (up : Bool) :
  SameDb d s (newConnection d up s)
  := by
  have hconn := (@newConnection_fields d up s).1
  constructor
  · rw [hconn, Function.update_self]
  · rw [hconn, Function.update_self]

theorem sameDb_velyGetDbConnection {k : Connect} (h : velyGetDbConnection k d s = .ok () s') :
  SameDb d s s'
  := by
  have hrule : Triple (SameDb d s) (velyGetDbConnection k d) (fun _ => SameDb d s)
      (fun _ => True) := by
    apply velyGetDbConnection_rule
    · intro s' c hs _
      exact hs
    · intro s' hs _ _
      apply (hs.trans (sameDb_newConnection true)).trans
      constructor
      · simp [connected, Dbs.setConn]
      · simp [connected, Dbs.setConn]
    · intro s' _ _
      trivial
    · intro s' _ _
      trivial
    · intro s' _ _
      trivial
  have hs' := hrule s (.refl d s)
  rw [h] at hs'
  exact hs'

theorem sameDb_velyRetryDb {k : Connect} (h : velyRetryDb k d s = .ok () s') :
  SameDb d s s'
  := by
  have hend : SameDb d s (velyEndConnection d s) := by
    rw [velyEndConnection]
    split
    · exact .refl d s
    · constructor
      · simp
      · simp
  exact hend.trans (sameDb_velyGetDbConnection h)

/-! ### The text of an error -/

theorem success_ne (v : Vendor) (p : Place) (kept : Option CError) (o : Outcome) :
  o.shown v p kept = success ↔ o = .ok
  := by
  cases o with
  | ok => simp [Outcome.shown]
  | lost =>
    have hne : connectionLost ≠ success := by decide
    simp [Outcome.shown, hne]
  | failed f =>
    have hne : velyErrm v p (f.own.or kept) f ≠ [] := by
      rw [velyErrm, Place.lead, errmSize, show ascii "Error during query [" = 69 :: ascii
        "rror during query [" from rfl]
      simp
    simp [Outcome.shown, success, hne]

theorem CError.text_head (c : CError) :
  ∃ b t, c.text = b :: t ∧ b ≠ 93
  := by
  have hhead : c.text ≠ [] ∧ c.text.head? ≠ some 93 := by
    cases c <;> decide
  obtain ⟨b, t, htext⟩ := List.exists_cons_of_ne_nil hhead.1
  use b, t, htext
  rintro rfl
  apply hhead.2
  rw [htext, List.head?_cons]

theorem Place.trail_eq (v : Vendor) (p : Place) (f : Failure) :
  ∃ t, p.trail v f = 93 :: t
  := by
  cases v <;> exact ⟨_, rfl⟩

/-- An earlier error is seen in the text unless there is no room for it. -/
theorem velyErrm_kept {v : Vendor} {p : Place} {c : CError} {f : Failure} :
  velyErrm v p (some c) f = velyErrm v p none f ↔ errmSize - 1 ≤ p.lead.length
  := by
  obtain ⟨b, t, htext, hb⟩ := c.text_head
  obtain ⟨u, htrail⟩ := p.trail_eq v f
  rw [velyErrm, velyErrm]
  constructor
  · intro h
    by_contra hlt
    have hat := congrArg (fun l => l[p.lead.length]?) h
    have hroom : p.lead.length < errmSize - 1 := by omega
    simp only [List.getElem?_take_of_lt hroom, List.getElem?_append_right (Nat.le_refl _),
      Nat.sub_self, Option.elim_some, Option.elim_none, htext, htrail, List.nil_append,
      List.cons_append, List.getElem?_cons_zero, Option.some.injEq] at hat
    exact hb hat
  · intro h
    rw [List.take_append_of_le_length h, List.take_append_of_le_length h]

theorem shown_eq_vars_iff {v : Vendor} {p : Place} {kept : Option CError} {o : Outcome} :
  o.shown v p kept = o.vars v p ↔ o.Fresh p kept
  := by
  cases o with
  | ok => simp [Outcome.shown, Outcome.vars, Outcome.Fresh]
  | lost => simp [Outcome.shown, Outcome.vars, Outcome.Fresh]
  | failed f =>
    obtain ⟨code, message, detail, own⟩ := f
    cases own with
    | some c => simp [Outcome.shown, Outcome.vars, Outcome.Fresh]
    | none =>
      cases kept with
      | none => simp [Outcome.shown, Outcome.vars, Outcome.Fresh]
      | some c =>
        simp only [Outcome.shown, Outcome.vars, Outcome.Fresh, Option.none_or, ErrVars.mk.injEq,
          true_and, velyErrm_kept, reduceCtorEq, ne_eq, not_true_eq_false, false_or]

/-! ### The execution -/

/-- How an execution ends that ended with an error, when errors are reported or not. -/
def reported {α : Type} (reperr : Bool) (a : α) (s : Dbs) : EStateM.Result Unit Dbs α :=
  if reperr then .error () s else .ok a s

theorem bind_of_reported {α β : Type} {x : M α} {f : α → M β} {reperr : Bool} {a : α} {b : β}
    (h : x s = reported reperr a s') (hf : f a s' = .ok b s'') :
  (x >>= f) s = if reperr then .error () s' else .ok b s''
  := by
  rw [reported] at h
  split at h
  · next hrep => rw [run_bind_error h, if_pos hrep]
  · next hrep => rw [run_bind_ok h, hf, if_neg hrep]

theorem failure_ne (f : Failure) :
  failure d f s ≠ .ok
  := by
  rw [failure]
  split
  · exact Outcome.noConfusion
  · exact Outcome.noConfusion

theorem failure_shown (v : Vendor) (kept : Option CError) (f : Failure) :
  (failure d f s).shown v p kept = if velyCheckc d s = false then connectionLost
    else ⟨f.code, velyErrm v p (f.own.or kept) f⟩
  := by
  rw [failure]
  split
  · rfl
  · rfl

/-- An error is handled, without another try. -/
theorem velyHandleErrorText_eq {retry : Bool} {k : Connect} {kept : Option CError} {f : Failure}
    (h : ¬ (velyCheckc d s = false ∧ retry = true)) :
  velyHandleErrorText d retry k erract p (f.own.or kept) f s
    = reported ((s.conn d).reperr erract)
      (false, (failure d f s).shown (s.conn d).dbType p kept) s
  := by
  rw [velyHandleErrorText, run_get_bind, if_neg h, reported, failure_shown]
  by_cases hrep : (s.conn d).reperr erract = true
  · rw [if_pos hrep, if_pos hrep]
    rfl
  · rw [if_neg hrep, if_neg hrep]
    rfl

/-- The connection is made again. -/
theorem velyHandleErrorText_retry {k : Connect} {cerror : Option CError} {f : Failure}
    (h : velyCheckc d s = false) (hretry : velyRetryDb k d s = .ok () s') :
  velyHandleErrorText d true k erract p cerror f s = .ok (true, ⟨[], []⟩) s'
  := by
  rw [velyHandleErrorText, run_get_bind, if_pos ⟨h, rfl⟩, run_bind_ok hretry]
  rfl

/-- The connection cannot be made again. -/
theorem velyHandleErrorText_report {k : Connect} {cerror : Option CError} {f : Failure}
    (h : velyCheckc d s = false) (hretry : velyRetryDb k d s = .error () s') :
  velyHandleErrorText d true k erract p cerror f s = .error () s'
  := by
  rw [velyHandleErrorText, run_get_bind, if_pos ⟨h, rfl⟩, run_bind_error hretry]

/-- What an execution from `s₀` gives when it ended so. -/
inductive Tells (d : Nat) (erract : OnError) (p : Place) (s₀ : Dbs) :
    EStateM.Result Unit Dbs Given → Option Ending → Prop
  | ok (kept : Option CError) (s : Dbs) (hsame : SameDb d s₀ s) :
    Tells d erract p s₀ (.ok ⟨true, success, kept⟩ s) (some ⟨.ok, kept, s⟩)
  | failed (o : Outcome) (kept cerror : Option CError) (s : Dbs) (ho : o ≠ .ok) :
    Tells d erract p s₀ (reported ((s₀.conn d).reperr erract)
      ⟨false, o.shown (s₀.conn d).dbType p kept, cerror⟩ s) (some ⟨o, kept, s⟩)
  | none (s : Dbs) : Tells d erract p s₀ (.error () s) none

theorem Tells.of_same {x : EStateM.Result Unit Dbs Given} {r : Option Ending}
    (hsame : SameDb d s s') (h : Tells d erract p s' x r) :
  Tells d erract p s x r
  := by
  cases h with
  | ok kept s₁ hsame' => exact .ok kept s₁ (hsame.trans hsame')
  | failed o kept cerror s₁ ho =>
    rw [hsame.reperr, hsame.dbType]
    exact .failed o kept cerror s₁ ho
  | none s₁ => exact .none s₁

/-- An error that is handled without another try is told. -/
theorem tells_failure {k : Connect} {retry : Bool} {kept : Option CError} {f : Failure}
    {g : Bool × ErrVars → M Given}
    (h : ¬ (velyCheckc d s = false ∧ retry = true))
    (hg : ∀ vars, g (false, vars) s = .ok ⟨false, vars, f.own.or kept⟩ s) :
  Tells d erract p s
    ((velyHandleErrorText d retry k erract p (f.own.or kept) f >>= g) s)
    (some ⟨failure d f s, kept, s⟩)
  := by
  rw [bind_of_reported (velyHandleErrorText_eq h) (hg _)]
  apply Tells.failed
  apply failure_ne

theorem afterError_tells {kept : Option CError} :
  Tells d erract p s (afterError d sql erract p (e.first.own.or kept) e s)
    (endingAfterError d sql kept e s)
  := by
  rw [afterError, run_get_bind, endingAfterError]
  by_cases hflag : (s.conn d).isBeginTransaction = false
  · rw [if_pos hflag]
    by_cases hlost : velyCheckc d s = false
    · rw [if_pos ⟨hlost, hflag⟩]
      cases hretry : velyRetryDb e.att.again.connect d s with
      | error u s₁ =>
        rw [run_bind_error (velyHandleErrorText_report hlost hretry)]
        apply Tells.none
      | ok u s₁ =>
        rw [run_bind_ok (velyHandleErrorText_retry hlost hretry)]
        dsimp only
        rw [if_pos rfl, run_modifyGet_bind]
        have hsame := (sameDb_velyRetryDb hretry).trans (@sameDb_velyExec d sql s₁ e.att.again)
        obtain ⟨⟨a, s₂⟩, hexec⟩ : ∃ r, velyExec d sql e.att.again s₁ = r := ⟨_, rfl⟩
        rw [hexec] at hsame ⊢
        apply Tells.of_same hsame
        have hno : ¬ (velyCheckc d s₂ = false ∧ false = true) := fun h => Bool.false_ne_true h.2
        cases a with
        | ok => exact .ok _ s₂ (.refl d s₂)
        | refused => exact tells_failure hno fun _ => rfl
        | lost => exact tells_failure hno fun _ => rfl
    · rw [if_neg fun h => hlost h.1]
      exact tells_failure (fun h => hlost h.1) fun _ => rfl
  · rw [if_neg hflag, if_neg fun h => hflag h.2]
    exact tells_failure (fun h => Bool.false_ne_true h.2) fun _ => rfl

/-- What an execution gives tells how it ended. -/
theorem velyExecuteSqlText_tells {cerror : Option CError} :
  Tells d erract p s (velyExecuteSqlText d sql erract p cerror e s)
    (ending d sql cerror e (s.enter d sql erract))
  := by
  have henter : SameDb d s (s.enter d sql erract) := .of_conn rfl
  rw [velyExecuteSqlText, run_modify_bind, ending]
  change Tells d erract p s ((velyGetDbConnection e.att.first.connect d >>= _)
    (s.enter d sql erract)) _
  generalize s.enter d sql erract = s₀ at henter
  cases hget : velyGetDbConnection e.att.first.connect d s₀ with
  | error u s₁ =>
    rw [run_bind_error hget]
    apply Tells.none
  | ok u s₁ =>
    rw [run_bind_ok hget, run_modifyGet_bind]
    have hsame := (henter.trans (sameDb_velyGetDbConnection hget)).trans
      (@sameDb_velyExec d sql s₁ e.att.first)
    obtain ⟨⟨a, s₂⟩, hexec⟩ : ∃ r, velyExec d sql e.att.first s₁ = r := ⟨_, rfl⟩
    dsimp only
    rw [hexec] at hsame ⊢
    apply Tells.of_same hsame
    cases a with
    | ok => exact .ok _ s₂ (.refl d s₂)
    | refused => exact afterError_tells
    | lost => exact afterError_tells

/-- But for the variables an error is handled as before, and what follows. -/
theorem velyHandleErrorText_ok {retry : Bool} {k : Connect} {cerror : Option CError} {f : Failure}
    {g : Bool × ErrVars → M Given} {g' : Bool → M Bool}
    (hg : ∀ again vars, (again = true → retry = true) → Given.ok <$> g (again, vars) = g' again) :
  Given.ok <$> (velyHandleErrorText d retry k erract p cerror f >>= g)
    = velyHandleError d retry k erract >>= g'
  := by
  rw [velyHandleErrorText, velyHandleError]
  simp only [bind_assoc, map_bind]
  congr 1
  funext s
  by_cases h : velyCheckc d s = false ∧ retry = true
  · rw [if_pos h, if_pos h]
    simp only [bind_assoc, pure_bind, hg true _ fun _ => h.2]
  · rw [if_neg h, if_neg h]
    by_cases hrep : (s.conn d).reperr erract = true
    · rw [if_pos hrep, if_pos hrep]
      rfl
    · rw [if_neg hrep, if_neg hrep]
      simp only [pure_bind]
      apply hg
      simp

/-- But for the variables it is the execution. -/
theorem velyExecuteSqlText_ok {cerror : Option CError} :
  Given.ok <$> velyExecuteSqlText d sql erract p cerror e = velyExecuteSql d sql erract e.att
  := by
  have hlast : ∀ c f, Given.ok <$> (do
      let (_, vars) ← velyHandleErrorText d false e.att.again.connect erract p c f
      pure ⟨false, vars, c⟩) = velyHandleError d false e.att.again.connect erract := by
    intro c f
    conv_rhs => rw [← bind_pure (velyHandleError d false e.att.again.connect erract)]
    apply velyHandleErrorText_ok
    intro again vars h
    cases again with
    | true => cases h rfl
    | false => rfl
  have hafter : ∀ c, Given.ok <$> afterError d sql erract p c e = (do
      let s ← get
      if (s.conn d).isBeginTransaction = false then do
        let again ← velyHandleError d true e.att.again.connect erract
        if again = true then do
          let a ← modifyGet (velyExec d sql e.att.again)
          if a = .ok then pure true
          else velyHandleError d false e.att.again.connect erract
        else pure false
      else velyHandleError d false e.att.again.connect erract) := by
    intro c
    rw [afterError, map_bind]
    congr 1
    funext s
    split
    · apply velyHandleErrorText_ok
      rintro (_ | _) vars -
      · rfl
      · dsimp only
        rw [if_pos rfl, if_pos rfl, map_bind]
        congr 1
        funext a
        split
        · rfl
        · apply hlast
    · apply hlast
  rw [velyExecuteSqlText, velyExecuteSql]
  simp only [map_bind]
  congr 1
  funext _
  congr 1
  funext _
  congr 1
  funext a
  split
  · rfl
  · apply hafter

/-! ### The statements -/

/-- What a statement gives when it ended so, where `y` is what it makes of the variables of an
error. -/
inductive Leaves (p : Place) (v : Vendor) (reperr : Bool) (y : ErrVars → ErrVars) :
    EStateM.Result Unit Dbs ErrVars → Option Ending → Prop
  | ok (kept : Option CError) (s s' : Dbs) :
    Leaves p v reperr y (.ok success s) (some ⟨.ok, kept, s'⟩)
  | failed (o : Outcome) (kept : Option CError) (s s' : Dbs) (ho : o ≠ .ok)
      (hrep : reperr = false) :
    Leaves p v reperr y (.ok (y (o.shown v p kept)) s) (some ⟨o, kept, s'⟩)
  | reported (o : Outcome) (kept : Option CError) (s s' : Dbs) (hrep : reperr = true) :
    Leaves p v reperr y (.error () s) (some ⟨o, kept, s'⟩)
  | none (s : Dbs) : Leaves p v reperr y (.error () s) none

section

variable {y : ErrVars → ErrVars}

theorem leaves_error {o : Outcome} {kept : Option CError} {v : Vendor} {reperr : Bool}
    (ho : o ≠ .ok) (s₁ s₂ s₃ : Dbs) :
  Leaves p v reperr y (if reperr then .error () s₁ else .ok (y (o.shown v p kept)) s₂)
    (some ⟨o, kept, s₃⟩)
  := by
  cases reperr with
  | true => exact .reported o kept s₁ s₃ rfl
  | false => exact .failed o kept s₂ s₃ ho rfl

theorem leaves_of_reported {α : Type} {x : M α} {g : α → M ErrVars} {a : α} {reperr : Bool}
    {o : Outcome} {kept : Option CError} {v : Vendor} {s₁ s₂ s₃ : Dbs}
    (hx : x s = reported reperr a s₁) (hg : g a s₁ = .ok (y (o.shown v p kept)) s₂)
    (ho : o ≠ .ok) :
  Leaves p v reperr y ((x >>= g) s) (some ⟨o, kept, s₃⟩)
  := by
  rw [bind_of_reported hx hg]
  exact leaves_error ho s₁ s₂ s₃

/-- What a statement gives that goes on after the execution. -/
theorem Tells.leaves {x : M Given} {r : Option Ending} {g : Given → M ErrVars}
    (h : Tells d erract p s (x s') r)
    (hok : ∀ kept s₁, ∃ s₂, g ⟨true, success, kept⟩ s₁ = .ok success s₂)
    (hfail : ∀ vars cerror s₁, ∃ s₂, g ⟨false, vars, cerror⟩ s₁ = .ok (y vars) s₂) :
  Leaves p (s.conn d).dbType ((s.conn d).reperr erract) y ((x >>= g) s') r
  := by
  generalize hx : x s' = res at h
  cases h with
  | ok kept s₁ hsame =>
    obtain ⟨s₂, hg⟩ := hok kept s₁
    rw [run_bind_ok hx, hg]
    apply Leaves.ok
  | failed o kept cerror s₁ ho =>
    obtain ⟨s₂, hg⟩ := hfail (o.shown (s.conn d).dbType p kept) cerror s₁
    exact leaves_of_reported hx hg ho
  | none s₁ =>
    rw [run_bind_error hx]
    apply Leaves.none

/-- A query with a result. -/
theorem velySelectTableText_leaves {prep : Option Nat} {cerror : Option CError} :
  Leaves p (s.conn d).dbType ((s.conn d).reperr erract) id
    (velySelectTableText d prep erract p cerror e s)
    ((ending d (.statement prep) cerror e (s.enter d (.statement prep) erract)).map
      (Ending.fetch d e))
  := by
  have h := @velyExecuteSqlText_tells d (.statement prep) erract e p s cerror
  rw [velySelectTableText]
  generalize hx : velyExecuteSqlText d (.statement prep) erract p cerror e s = res at h
  generalize ending d (.statement prep) cerror e (s.enter d (.statement prep) erract) = r at h
  cases h with
  | ok kept s₁ hsame =>
    rw [run_bind_ok hx, if_pos rfl, run_get_bind, Option.map_some, Ending.fetch]
    dsimp only
    by_cases hfetch : (s₁.conn d).dbType = .postgres ∨ e.fetch = .ok
    · rw [if_pos hfetch, if_pos hfetch]
      apply Leaves.ok
    · rw [if_neg hfetch, if_neg hfetch, run_modify_bind]
      have hleft : SameDb d s (fetchResult d e.fetch s₁) := by
        apply hsame.trans
        apply SameDb.of_conn
        unfold fetchResult
        split
        · rfl
        · rfl
      have hno : ¬ (velyCheckc d (fetchResult d e.fetch s₁) = false ∧ false = true) :=
        fun h => Bool.false_ne_true h.2
      rw [← hleft.dbType, ← hleft.reperr]
      exact leaves_of_reported (velyHandleErrorText_eq hno) rfl (failure_ne _)
  | failed o kept cerror s₁ ho =>
    have hfetch : Ending.fetch d e ⟨o, kept, s₁⟩ = ⟨o, kept, s₁⟩ := by
      rw [Ending.fetch]
      split
      · next hok => exact absurd hok ho
      · rfl
    rw [Option.map_some, hfetch]
    exact leaves_of_reported hx rfl ho
  | none s₁ =>
    rw [run_bind_error hx]
    apply Leaves.none

end

/-- What a statement makes of the variables of an error: only a query gives them out. -/
def Statement.onFailure (v : ErrVars) (stmt : Statement) (w : ErrVars) : ErrVars :=
  if stmt.isQuery = true then w else v

theorem Statement.run_leaves (cerror : Option CError) (v : ErrVars) (stmt : Statement) :
  Leaves p (s.conn d).dbType ((s.conn d).reperr erract) (stmt.onFailure v)
    (stmt.run d erract p cerror e v s) (stmt.ending d erract cerror e s)
  := by
  have hend : ∀ sql, Leaves p (s.conn d).dbType ((s.conn d).reperr erract) (fun _ => v)
      (velyEndTransactionText d sql erract p cerror e v s)
      (Db.ending d sql cerror e ((s.flag d false).enter d sql erract)) := by
    intro sql
    have htells := Tells.of_same (@sameDb_flag d s false)
      (@velyExecuteSqlText_tells d sql erract e p (s.flag d false) cerror)
    apply htells.leaves
    · intro kept s₁
      exact ⟨s₁, rfl⟩
    · intro vars cerror s₁
      exact ⟨s₁, rfl⟩
  cases stmt with
  | begin =>
    apply Tells.leaves velyExecuteSqlText_tells
    · intro kept s₁
      exact ⟨_, rfl⟩
    · intro vars cerror s₁
      exact ⟨_, rfl⟩
  | commit => exact hend .commit
  | rollback => exact hend .rollback
  | query prep returnsTuple =>
    cases returnsTuple with
    | true => exact velySelectTableText_leaves
    | false =>
      apply Tells.leaves velyExecuteSqlText_tells
      · intro kept s₁
        exact ⟨s₁, rfl⟩
      · intro vars cerror s₁
        exact ⟨s₁, rfl⟩

end

/-- The variables of a statement tell how it ended exactly when it succeeds, when its errors are
reported, or when it is a query whose text is of its failure alone. -/
theorem varsOk_iff (d : Nat) (erract : OnError) (p : Place) (cerror : Option CError) (e : Errors)
    (s : Dbs) (stmt : Statement) :
  stmt.VarsOk d erract p cerror e s ↔ ∀ r, stmt.ending d erract cerror e s = some r →
    r.how = .ok ∨ (s.conn d).reperr erract = true
      ∨ (stmt.isQuery = true ∧ r.how.Fresh p r.kept)
  := by
  constructor
  · intro h r hr
    by_contra hcon
    rw [not_or, not_or] at hcon
    obtain ⟨hhow, hrep, hfresh⟩ := hcon
    have hleaves := @Statement.run_leaves d erract e p s cerror success stmt
    rw [hr] at hleaves
    generalize hrun : stmt.run d erract p cerror e success s = x at hleaves
    cases hleaves with
    | ok kept s₁ s₂ => exact hhow rfl
    | failed o kept s₁ s₂ ho hrep' =>
      obtain ⟨r', hr', hvars, hiff⟩ := h success _ _ hrun
      rw [hr, Option.some.injEq] at hr'
      subst hr'
      rw [Statement.onFailure] at hvars hiff
      split at hvars
      · next hq => exact hfresh ⟨hq, shown_eq_vars_iff.mp hvars⟩
      · next hq => exact ho (hiff.mp (if_neg hq))
    | reported o kept s₁ s₂ hrep' => exact hrep hrep'
  · intro h v v' s' hrun
    have hleaves := @Statement.run_leaves d erract e p s cerror v stmt
    rw [hrun] at hleaves
    generalize hr : stmt.ending d erract cerror e s = r at hleaves
    cases hleaves with
    | ok kept s₁ s₂ => exact ⟨_, rfl, rfl, by simp⟩
    | failed o kept s₁ s₂ ho hrep =>
      obtain hhow | hrep' | ⟨hq, hfresh⟩ := h _ hr
      · exact absurd hhow ho
      · exact absurd hrep' (by simp [hrep])
      · refine ⟨_, rfl, ?_, ?_⟩
        · rw [Statement.onFailure, if_pos hq]
          exact shown_eq_vars_iff.mpr hfresh
        · rw [Statement.onFailure, if_pos hq]
          exact success_ne _ _ _ _

/-- A transaction that PostgreSQL does not begin, in a program that goes on after errors: the
variables keep what they had. -/
theorem not_varsOk_begin :
  ¬ Statement.begin.VarsOk 0 .onErrorContinue ⟨ascii "start transaction ", ascii "stock.vely", 12⟩
    none
    ⟨⟨⟨.made, .ok, .refused⟩, ⟨.made, .ok, .ok⟩⟩, ⟨ascii "57014", ascii "canceled", [], none⟩,
      ⟨[], [], [], none⟩, .ok, ⟨[], [], [], none⟩⟩
    (start fun _ => .postgres)
  := by
  intro h
  obtain ⟨r, hr, hvars, hiff⟩ := h success _ _ rfl
  cases hr
  exact nomatch hiff.mp rfl

end Db

end Vely
