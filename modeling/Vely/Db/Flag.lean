import Vely.Db.Calls

/-!
# The flag of a transaction

The flag of a database says that a transaction is open on its connection.  It is set after a begin
that succeeds, and cleared before commit and rollback are executed and after a begin that fails.
-/

namespace Vely

namespace Db

/-- What can be refused in a transaction and leave the flag right: a statement, and a begin whose
error ends the request. -/
def Sql.MayFail (sql : Sql) (exits : Bool) : Prop :=
  match sql with
  | .statement _ => True
  | .begin => exits = true
  | .commit => False
  | .rollback => False

/-- Neither the end of a transaction that is open is refused nor, where the program goes on, a begin
in it. -/
def Entry.Granted (e : Entry) : Prop :=
  ∀ x ∈ e.sent, x.inTransaction = true → x.answer = .refused → e.sql.MayFail e.exits

/-- Nothing in the log was refused. -/
def AllGranted (log : List Entry) : Prop := ∀ e ∈ log, e.Granted

/-- The flag of the database is set if a transaction is open on its connection. -/
def Flagged (d : Nat) (s : Dbs) : Prop :=
  ∀ c, (s.conn d).dbc = some c → s.opened c = true → (s.conn d).isBeginTransaction = true

/-- No transaction is open on the connection of the database. -/
def Closed (d : Nat) (s : Dbs) : Prop :=
  ∀ c, (s.conn d).dbc = some c → s.opened c = false

/-- A transaction that is open has its flag set, and none is open when a request has ended. -/
structure NoneLeft (totDbs : Nat) (s : Dbs) : Prop where
  flagged : ∀ d, Flagged d s
  atRest : s.inRequest = false → ∀ d < totDbs, Closed d s

/-- During a request every transaction that is open has its flag set, if nothing was refused. -/
structure InStep (s : Dbs) : Prop where
  fresh : Fresh s
  inRequest : s.inRequest = true
  flagged : AllGranted s.log → ∀ d, Flagged d s

/-- The same during an execution on the database `d`: the other databases, the setting for errors
and a flag that is not set are as before. -/
structure Running (d : Nat) (sql : Sql) (exits : Bool) (log : List Entry) (conn : Nat → OneDb)
    (s : Dbs) : Prop where
  fresh : Fresh s
  inRequest : s.inRequest = true
  others : ∀ d' ≠ d, s.conn d' = conn d'
  exitOnError : (s.conn d).exitOnError = (conn d).exitOnError
  unset : (conn d).isBeginTransaction = false → (s.conn d).isBeginTransaction = false
  flagged : AllGranted log → ∀ d' ≠ d, Flagged d' s
  entry : ∃ e, s.log = e :: log ∧ e.sql = sql ∧ e.exits = exits

/-- What is known of the database before a statement is sent. -/
def Before (d : Nat) (sql : Sql) (s : Dbs) : Prop :=
  match sql with
  | .statement _ => Flagged d s
  | .begin => Flagged d s
  | .commit => True
  | .rollback => True

/-- What is known of the database after the answer. -/
def After (d : Nat) (sql : Sql) (exits : Bool) (a : Answer) (s : Dbs) : Prop :=
  match sql with
  | .statement _ => Flagged d s
  | .begin => a ≠ .ok → Flagged d s ∧ (exits = false → Closed d s)
  | .commit => Closed d s
  | .rollback => Closed d s

section Running

variable {d c : Nat} {sql : Sql} {exits : Bool} {log : List Entry} {conn : Nat → OneDb} {s s' : Dbs}
  {x : Sent} {t : Try} {att : Attempt} {a : Answer}

theorem Closed.flagged (h : Closed d s) :
  Flagged d s
  := by
  intro c hc hopened
  rw [h c hc] at hopened
  cases hopened

/-- After an error the flag is set if a transaction is open. -/
theorem After.flagged (h : After d sql exits a s) (ha : a ≠ .ok) :
  Flagged d s
  := by
  cases sql with
  | statement p => exact h
  | begin => exact (h ha).1
  | commit => exact h.flagged
  | rollback => exact h.flagged

theorem Before.of_closed (h : Closed d s) :
  Before d sql s
  := by
  cases sql with
  | statement p => exact h.flagged
  | begin => exact h.flagged
  | commit => trivial
  | rollback => trivial

/-- A log in which a statement is sent is granted only if the log before it is. -/
theorem AllGranted.of_sent {e : Entry} (h : AllGranted ({ e with sent := e.sent ++ [x] } :: log)) :
  AllGranted (e :: log)
  := by
  intro e' he'
  rcases List.mem_cons.mp he' with rfl | he'
  · intro y hy
    exact h _ List.mem_cons_self y (List.mem_append_left _ hy)
  · exact h e' (List.mem_cons_of_mem _ he')

/-- A statement is sent and answered. -/
theorem Running.sends (h : Running d sql exits log conn s) (hc : (s.conn d).dbc = some c)
    (hbefore : AllGranted s.log → Before d sql s) (hs : Sends s sql c x s') :
  Running d sql exits log conn s' ∧ (AllGranted s'.log → After d sql exits x.answer s')
  := by
  obtain ⟨e, hlog, hsql, hexits⟩ := h.entry
  have hlog' : s'.log = { e with sent := e.sent ++ [x] } :: log := by
    rw [hs.log]
    simp only [Dbs.record, hlog]
  have hopened : ∀ c', c' ≠ c → s'.opened c' = s.opened c' := by
    intro c' hne
    rw [hs.opened, Function.update_of_ne hne]
  have hleaves : s'.opened c = sql.leaves x.answer (s.opened c) := by
    rw [hs.opened, Function.update_self]
  constructor
  · constructor
    · exact h.fresh.sends hs
    · rw [hs.inRequest]
      exact h.inRequest
    · rw [hs.conn]
      exact h.others
    · rw [hs.conn]
      exact h.exitOnError
    · rw [hs.conn]
      exact h.unset
    · intro hg d' hd c' hc' ho
      rw [hs.conn] at hc' ⊢
      rw [hopened] at ho
      · exact h.flagged hg d' hd c' hc' ho
      · rintro rfl
        exact hd (h.fresh.apart d' d c' hc' hc)
    · exact ⟨_, hlog', hsql, hexits⟩
  · intro hg
    rw [hlog'] at hg
    have hbefore := hbefore (hlog ▸ hg.of_sent)
    have hgranted : x.inTransaction = true → x.answer = .refused → sql.MayFail exits := by
      have hx := hg _ List.mem_cons_self x (by simp)
      simp only [hsql, hexits] at hx
      exact hx
    rw [hs.inTransaction] at hgranted
    have hone : ∀ c', (s'.conn d).dbc = some c' → c' = c := by
      intro c' hc'
      rw [hs.conn, hc] at hc'
      cases hc'
      rfl
    cases sql with
    | statement p =>
      intro c' hc' ho
      obtain rfl := hone c' hc'
      rw [hs.conn]
      apply hbefore c' hc
      rw [hleaves] at ho
      cases ha : x.answer with
      | ok => simpa [Sql.leaves, ha] using ho
      | refused => simpa [Sql.leaves, ha] using ho
      | lost => simp [Sql.leaves, ha] at ho
    | begin =>
      intro ha
      have hstill : s'.opened c = true → s.opened c = true ∧ x.answer = .refused := by
        intro ho
        rw [hleaves] at ho
        cases hans : x.answer with
        | ok => exact absurd hans ha
        | refused => simpa [Sql.leaves, hans] using ho
        | lost => simp [Sql.leaves, hans] at ho
      constructor
      · intro c' hc' ho
        obtain rfl := hone c' hc'
        rw [hs.conn]
        exact hbefore c' hc (hstill ho).1
      · intro hexit c' hc'
        obtain rfl := hone c' hc'
        by_contra ho
        obtain ⟨hin, hrefused⟩ := hstill (by simpa using ho)
        have hyes := hgranted hin hrefused
        simp [Sql.MayFail, hexit] at hyes
    | commit =>
      intro c' hc'
      obtain rfl := hone c' hc'
      by_contra ho
      rw [hleaves] at ho
      cases ha : x.answer with
      | ok => simp [Sql.leaves, ha] at ho
      | refused => exact hgranted (by simpa [Sql.leaves, ha] using ho) ha
      | lost => simp [Sql.leaves, ha] at ho
    | rollback =>
      intro c' hc'
      obtain rfl := hone c' hc'
      by_contra ho
      rw [hleaves] at ho
      cases ha : x.answer with
      | ok => simp [Sql.leaves, ha] at ho
      | refused => exact hgranted (by simpa [Sql.leaves, ha] using ho) ha
      | lost => simp [Sql.leaves, ha] at ho

/-- The connection of the database is another one, or there is none. -/
theorem Running.moved (h : Running d sql exits log conn s) (hfresh : Fresh s')
    (hreq : s'.inRequest = s.inRequest) (hlog : s'.log = s.log)
    (hconn : ∀ d' ≠ d, s'.conn d' = s.conn d')
    (hexit : (s'.conn d).exitOnError = (s.conn d).exitOnError)
    (hunset : (s.conn d).isBeginTransaction = false → (s'.conn d).isBeginTransaction = false)
    (hopened : ∀ d' ≠ d, ∀ c', (s.conn d').dbc = some c' → s'.opened c' = true →
      s.opened c' = true) :
  Running d sql exits log conn s'
  := by
  constructor
  · exact hfresh
  · rw [hreq]
    exact h.inRequest
  · intro d' hd
    rw [hconn d' hd]
    exact h.others d' hd
  · rw [hexit]
    exact h.exitOnError
  · intro hb
    exact hunset (h.unset hb)
  · intro hg d' hd c' hc' ho
    rw [hconn d' hd] at hc' ⊢
    exact h.flagged hg d' hd c' hc' (hopened d' hd c' hc' ho)
  · rw [hlog]
    exact h.entry

theorem Running.newConnection (h : Running d sql exits log conn s) (up : Bool) :
  Running d sql exits log conn (newConnection d up s) ∧ Closed d (newConnection d up s)
  := by
  obtain ⟨hconn, -, -, -, hopened, hlog, -, hreq⟩ := newConnection_fields (d := d) up s
  constructor
  · apply h.moved
    · apply h.fresh.newConnection
    · exact hreq
    · exact hlog
    · intro d' hd
      rw [hconn, Function.update_of_ne hd]
    · rw [hconn, Function.update_self]
    · rw [hconn, Function.update_self]
      exact id
    · intro d' _ c' _ ho
      rwa [hopened] at ho
  · intro c hc
    rw [newConnection_dbc, if_pos rfl] at hc
    cases hc
    rw [hopened]
    by_contra ho
    have hlt := h.fresh.alive _ (h.fresh.opened _ (by simpa using ho))
    exact Nat.lt_irrefl _ hlt

/-- A database that has no connection has no open transaction. -/
theorem closed_of_none (h : (s.conn d).dbc = none) :
  Closed d s
  := by
  intro c hc
  rw [h] at hc
  cases hc

theorem Running.velyEndConnection (h : Running d sql exits log conn s) :
  Running d sql exits log conn (velyEndConnection d s) ∧ Closed d (velyEndConnection d s)
  := by
  obtain ⟨-, hlog, hreq, hconn, -, -, hopened⟩ := velyEndConnection_fields d s
  constructor
  · apply h.moved
    · apply h.fresh.velyEndConnection
    · exact hreq
    · exact hlog
    · exact hconn
    · unfold Db.velyEndConnection
      split
      · rfl
      · simp
    · unfold Db.velyEndConnection
      split
      · exact id
      · simp
    · intro d' _ c' _ ho
      exact ((hopened c').mp ho).1
  · apply closed_of_none
    rw [velyEndConnection_dbc, if_pos rfl]

/-- A database that is connected. -/
theorem Running.connected (h : Running d sql exits log conn s) :
  Running d sql exits log conn (connected d s) ∧ Closed d (connected d s)
  := by
  obtain ⟨hnew, hclosed⟩ := h.newConnection true
  have hdbc : ({ (Db.newConnection d true s).conn d with
      hasConnected := true, isBeginTransaction := false } : OneDb).dbc
        = ((Db.newConnection d true s).conn d).dbc := rfl
  constructor
  · apply hnew.moved
    · apply hnew.fresh.setConn hdbc
    · rfl
    · rfl
    · intro d' hd
      simp [Db.connected, Dbs.setConn, Function.update_of_ne hd]
    · simp [Db.connected, Dbs.setConn]
    · simp [Db.connected, Dbs.setConn]
    · intro d' _ c' _ ho
      exact ho
  · intro c hc
    have hc' := setConn_dbc hdbc d
    simp only [Db.connected] at hc
    rw [hc'] at hc
    exact hclosed c hc

/-- An execution on a database whose flag is right has ended. -/
theorem Running.inStep (h : Running d sql exits log conn s)
    (hflag : AllGranted s.log → Flagged d s) :
  InStep s
  := by
  obtain ⟨e, hlog, -⟩ := h.entry
  constructor
  · exact h.fresh
  · exact h.inRequest
  · intro hg d'
    by_cases hd : d' = d
    · rw [hd]
      exact hflag hg
    · apply h.flagged _ d' hd
      intro e' he'
      apply hg
      rw [hlog]
      exact List.mem_cons_of_mem _ he'

/-- A connection that is there is used, or one is made. -/
theorem running_velyGetDbConnection {P : Dbs → Prop} {k : Connect}
    (hP : ∀ s, P s → Running d sql exits log conn s ∧ (AllGranted s.log → Before d sql s)) :
  Triple P (velyGetDbConnection k d)
    (fun _ s => Running d sql exits log conn s ∧ (AllGranted s.log → Before d sql s)) InStep
  := by
  apply velyGetDbConnection_rule
  · intro s c hs _
    exact hP s hs
  · intro s hs _ _
    obtain ⟨hrun, hclosed⟩ := (hP s hs).1.connected
    exact ⟨hrun, fun _ => Before.of_closed hclosed⟩
  · intro s hs hnone
    apply (hP s hs).1.inStep
    intro _
    exact (closed_of_none hnone).flagged
  · intro s hs _
    obtain ⟨hrun, hclosed⟩ := (hP s hs).1.newConnection false
    apply hrun.inStep
    intro _
    exact hclosed.flagged
  · intro s hs _
    obtain ⟨hrun, hclosed⟩ := ((hP s hs).1.newConnection true).1.velyEndConnection
    apply hrun.inStep
    intro _
    exact hclosed.flagged

/-- What an execution leaves of the flag and the transaction of its database. -/
theorem running_velyExecuteSql (d : Nat) (sql : Sql) (erract : OnError) (att : Attempt) {s₀ : Dbs} (hfresh : Fresh s₀)
    (hreq : s₀.inRequest = true) (hflagged : AllGranted s₀.log → ∀ d' ≠ d, Flagged d' s₀)
    (hbefore : AllGranted s₀.log → Before d sql s₀) :
  Triple (· = s₀) (velyExecuteSql d sql erract att)
    (fun ok s => Running d sql ((s₀.conn d).reperr erract) s₀.log s₀.conn s ∧
      ∃ a, (AllGranted s.log → After d sql ((s₀.conn d).reperr erract) a s) ∧
        (ok = true ↔ a = .ok) ∧ (ok = false → (s₀.conn d).reperr erract = false))
    InStep
  := by
  have hrule : Triple (· = s₀) (velyExecuteSql d sql erract att)
      (fun ok s => ∃ a,
        ((Running d sql ((s₀.conn d).reperr erract) s₀.log s₀.conn s ∧
          (AllGranted s.log → After d sql ((s₀.conn d).reperr erract) a s)) ∨
        (Running d sql ((s₀.conn d).reperr erract) s₀.log s₀.conn s ∧
          (AllGranted s.log → After d sql ((s₀.conn d).reperr erract) a s))) ∧
        (ok = true ↔ a = .ok) ∧ (ok = false → (s.conn d).reperr erract = false)) InStep := by
    have hsend : ∀ (t : Try) (s : Dbs),
        Running d sql ((s₀.conn d).reperr erract) s₀.log s₀.conn s ∧
          (AllGranted s.log → Before d sql s) →
        Running d sql ((s₀.conn d).reperr erract) s₀.log s₀.conn (velyExec d sql t s).2 ∧
          (AllGranted (velyExec d sql t s).2.log →
            After d sql ((s₀.conn d).reperr erract) (velyExec d sql t s).1 (velyExec d sql t s).2) := by
      rintro t s ⟨hrun, hb⟩
      cases hc : (s.conn d).dbc with
      | some c =>
        obtain ⟨x, hs, hx⟩ := sends_velyExec sql t hc
        rw [← hx]
        exact hrun.sends hc hb hs
      | none =>
        have hsame : velyExec d sql t s = (.lost, s) := by
          unfold velyExec
          rw [hc]
        rw [hsame]
        refine ⟨hrun, fun _ => ?_⟩
        have hclosed := closed_of_none hc
        cases sql with
        | statement p => exact hclosed.flagged
        | begin =>
          intro _
          exact ⟨hclosed.flagged, fun _ => hclosed⟩
        | commit => exact hclosed
        | rollback => exact hclosed
    apply velyExecuteSql_rule
      (B := fun s => Running d sql ((s₀.conn d).reperr erract) s₀.log s₀.conn s ∧
        (AllGranted s.log → Before d sql s))
    · rintro s rfl
      constructor
      · constructor
        · apply hfresh.congr
          · intro d'
            rfl
          · rfl
          · rfl
          · rfl
        · exact hreq
        · intro d' _
          rfl
        · rfl
        · exact id
        · exact hflagged
        · exact ⟨_, rfl, rfl, rfl⟩
      · intro hg
        have hl : AllGranted s.log := fun e he => hg e (List.mem_cons_of_mem _ he)
        exact hbefore hl
    · apply running_velyGetDbConnection
      intro s hs
      exact hs
    · exact hsend att.first
    · intro a ha
      unfold velyRetryDb
      apply Triple.bind (Q := fun _ s =>
        Running d sql ((s₀.conn d).reperr erract) s₀.log s₀.conn s ∧
          (AllGranted s.log → Before d sql s))
      · apply Triple.modify
        rintro s ⟨⟨⟨hrun, -⟩, -⟩, -⟩
        obtain ⟨hrun', hclosed⟩ := hrun.velyEndConnection
        exact ⟨hrun', fun _ => Before.of_closed hclosed⟩
      · intro _
        apply running_velyGetDbConnection
        intro s hs
        exact hs
    · exact hsend att.again
    · rintro a s ha (⟨hrun, hafter⟩ | ⟨hrun, hafter⟩)
      · apply hrun.inStep
        intro hg
        exact (hafter hg).flagged ha
      · apply hrun.inStep
        intro hg
        exact (hafter hg).flagged ha
  apply hrule.mono
  · intro s hs
    exact hs
  · rintro ok s ⟨a, ⟨hrun, hafter⟩ | ⟨hrun, hafter⟩, hok, hrep⟩
    · refine ⟨hrun, a, hafter, hok, ?_⟩
      intro h
      rw [← hrep h]
      simp only [OneDb.reperr, hrun.exitOnError]
    · refine ⟨hrun, a, hafter, hok, ?_⟩
      intro h
      rw [← hrep h]
      simp only [OneDb.reperr, hrun.exitOnError]
  · intro s hs
    exact hs

end Running

/-- If nothing was refused no transaction is left, unless the process has ended. -/
structure NoneLeftIf (totDbs : Nat) (s : Dbs) : Prop where
  fresh : Fresh s
  left : AllGranted s.log → s.exited = false → NoneLeft totDbs s

section Run

variable {d : Nat} {att : Attempt} {s : Dbs} {home : Nat → Nat} {totDbs : Nat}

/-- The flag of a database changes, and the transactions of the others have their flags. -/
theorem InStep.setBegin {b : Bool} (hfresh : Fresh s) (hreq : s.inRequest = true)
    (hothers : AllGranted s.log → ∀ d' ≠ d, Flagged d' s)
    (hown : AllGranted s.log → b = false → Closed d s) :
  InStep (s.setConn d { s.conn d with isBeginTransaction := b })
  := by
  have hdbc : ({ s.conn d with isBeginTransaction := b } : OneDb).dbc = (s.conn d).dbc := rfl
  constructor
  · exact hfresh.setConn hdbc
  · exact hreq
  · intro hg d' c hc ho
    rw [setConn_dbc hdbc] at hc
    change s.opened c = true at ho
    by_cases hd : d' = d
    · subst hd
      simp only [Dbs.setConn, Function.update_self]
      by_contra hb
      rw [hown hg (by simpa using hb) c hc] at ho
      cases ho
    · simp only [Dbs.setConn, Function.update_of_ne hd]
      exact hothers hg d' hd c hc ho

/-- A statement of the program is executed. -/
theorem inStep_statement (erract : OnError) (p : Option Nat) :
  Triple InStep (velyExecuteSql d (.statement p) erract att) (fun _ => InStep) InStep
  := by
  intro s₀ hs₀
  have h := running_velyExecuteSql d (.statement p) erract att hs₀.fresh
    hs₀.inRequest (fun hg d' _ => hs₀.flagged hg d') (fun hg => hs₀.flagged hg d) s₀ rfl
  revert h
  cases velyExecuteSql d (.statement p) erract att s₀ with
  | ok ok s =>
    rintro ⟨hrun, a, hafter, -⟩
    exact hrun.inStep hafter
  | error e s => exact id

theorem inStep_velyBeginTransaction (erract : OnError) :
  Triple InStep (velyBeginTransaction d erract att) (fun _ => InStep) InStep
  := by
  intro s₀ hs₀
  have hrun := running_velyExecuteSql d .begin erract att hs₀.fresh
    hs₀.inRequest (fun hg d' _ => hs₀.flagged hg d') (fun hg => hs₀.flagged hg d)
  refine Triple.bind hrun (fun ok => Triple.bind (Q := fun _ => InStep) ?_ ?_) s₀ rfl
  · apply Triple.modify
    rintro s ⟨hrun, a, hafter, hok, hexits⟩
    obtain ⟨e, hlog, -⟩ := hrun.entry
    apply InStep.setBegin hrun.fresh hrun.inRequest
    · intro hg
      apply hrun.flagged
      intro e' he'
      apply hg
      rw [hlog]
      exact List.mem_cons_of_mem _ he'
    · rintro hg rfl
      have ha : a ≠ .ok := by
        rintro rfl
        exact absurd (hok.mpr rfl) (by simp)
      exact (hafter hg ha).2 (hexits rfl)
  · intro _
    apply Triple.pure
    intro s hs
    exact hs

/-- A commit or a rollback, which clears the flag first, leaves no transaction and sets no flag. -/
theorem inStep_ends {sql : Sql} (hsql : sql = .commit ∨ sql = .rollback) (erract : OnError)
    (ds : List Nat) :
  Triple (fun s => InStep s ∧ ∀ j ∈ ds, (s.conn j).isBeginTransaction = false)
    (do
      setBegin d false
      velyExecuteSql d sql erract att)
    (fun _ s => InStep s ∧ ∀ j ∈ ds ++ [d], (s.conn j).isBeginTransaction = false) InStep
  := by
  apply Triple.bind (Q := fun _ s => Fresh s ∧ s.inRequest = true ∧
    (AllGranted s.log → ∀ d' ≠ d, Flagged d' s) ∧
    ∀ j ∈ ds ++ [d], (s.conn j).isBeginTransaction = false)
  · apply Triple.modify
    rintro s ⟨hs, hds⟩
    have hdbc : ({ s.conn d with isBeginTransaction := false } : OneDb).dbc = (s.conn d).dbc := rfl
    refine ⟨hs.fresh.setConn hdbc, hs.inRequest, ?_, ?_⟩
    · intro hg d' hd c hc ho
      rw [setConn_dbc hdbc] at hc
      simp only [Dbs.setConn, Function.update_of_ne hd]
      exact hs.flagged hg d' c hc ho
    · intro j hj
      by_cases hjd : j = d
      · simp [Dbs.setConn, hjd]
      · simp only [Dbs.setConn, Function.update_of_ne hjd]
        apply hds
        simpa [hjd] using hj
  · rintro _ s₀ ⟨hfresh, hreq, hflagged, hds⟩
    have hbefore : Before d sql s₀ := by
      rcases hsql with rfl | rfl
      · trivial
      · trivial
    have h := running_velyExecuteSql d sql erract att hfresh hreq hflagged
      (fun _ => hbefore) s₀ rfl
    revert h
    cases velyExecuteSql d sql erract att s₀ with
    | ok ok s =>
      rintro ⟨hrun, a, hafter, -⟩
      constructor
      · apply hrun.inStep
        intro hg
        have hclosed := hafter hg
        rcases hsql with rfl | rfl
        · exact Closed.flagged hclosed
        · exact Closed.flagged hclosed
      · intro j hj
        by_cases hjd : j = d
        · rw [hjd]
          apply hrun.unset
          exact hds d (by simp)
        · rw [hrun.others j hjd]
          exact hds j hj
    | error e s => exact id

/-- The end of a request leaves no flag that is set. -/
theorem inStep_velyCheckTransaction (checkMode : Nat) (atEnd : Nat → Attempt) :
  Triple InStep (velyCheckTransaction totDbs checkMode atEnd)
    (fun _ s => InStep s ∧ ∀ j ∈ List.range totDbs, (s.conn j).isBeginTransaction = false) InStep
  := by
  apply (velyCheckTransaction_rule
    (I := fun ds s => InStep s ∧ ∀ j ∈ ds, (s.conn j).isBeginTransaction = false) ?_ ?_ ?_).pre
  · intro s hs
    exact ⟨hs, by simp⟩
  · rintro ds i s ⟨hs, hds⟩ hi
    refine ⟨hs, ?_⟩
    intro j hj
    rcases List.mem_append.mp hj with hj | hj
    · exact hds j hj
    · rw [List.mem_singleton.mp hj]
      exact hi
  · intro ds i
    exact inStep_ends (Or.inr rfl) .okay ds
  · rintro - s ⟨hs, -⟩
    exact hs

/-- A request that has ended. -/
theorem InStep.ended (h : InStep s)
    (hunset : ∀ j ∈ List.range totDbs, (s.conn j).isBeginTransaction = false) :
  NoneLeftIf totDbs { s with inRequest := false }
  := by
  constructor
  · apply h.fresh.congr
    · intro d
      rfl
    · rfl
    · rfl
    · rfl
  · intro hg _
    constructor
    · exact h.flagged hg
    · intro _ d hd c hc
      by_contra ho
      have hset := h.flagged hg d c hc (by simpa using ho)
      rw [hunset d (List.mem_range.mpr hd)] at hset
      cases hset

theorem InStep.noneLeftIf (h : InStep s) :
  NoneLeftIf totDbs s
  := by
  constructor
  · exact h.fresh
  · intro hg _
    constructor
    · exact h.flagged hg
    · intro hreq
      rw [h.inRequest] at hreq
      cases hreq

/-- What a call does. -/
theorem inStep_body (c : Call) (env : Env) :
  Triple InStep (c.body home totDbs env) (fun _ => NoneLeftIf totDbs) InStep
  := by
  have hdone : ∀ {α : Type} {a : α} {R : Dbs → Prop},
      Triple InStep (pure a : M α) (fun _ => NoneLeftIf totDbs) R := by
    intro α a R
    apply Triple.pure
    intro s hs
    exact hs.noneLeftIf
  have hends : ∀ {sql : Sql} {d : Nat} {erract : OnError}, sql = .commit ∨ sql = .rollback →
      Triple InStep (do setBegin d false; velyExecuteSql d sql erract env.own) (fun _ => InStep)
        InStep := by
    intro sql d erract hsql
    apply (inStep_ends hsql erract []).mono
    · intro s hs
      exact ⟨hs, by simp⟩
    · rintro _ s ⟨hs, -⟩
      exact hs
    · intro s hs
      exact hs
  cases c with
  | execute d sql erract =>
    apply Triple.bind (Q := fun _ => InStep) _ (fun _ => hdone)
    cases sql with
    | begin => apply inStep_velyBeginTransaction
    | commit => exact hends (Or.inl rfl)
    | rollback => exact hends (Or.inr rfl)
    | statement p => apply inStep_statement
  | prepared p erract =>
    apply Triple.bind (Q := fun _ => InStep)
    · apply Triple.modify
      intro s hs
      split
      · exact hs
      · constructor
        · apply hs.fresh.congr
          · intro d
            rfl
          · rfl
          · rfl
          · rfl
        · exact hs.inRequest
        · exact hs.flagged
    · intro _
      apply Triple.bind (inStep_statement erract (some p))
      intro _
      exact hdone
  | onError d exit =>
    apply Triple.modify
    intro s hs
    have hdbc : ({ s.conn d with exitOnError := exit } : OneDb).dbc = (s.conn d).dbc := rfl
    apply InStep.noneLeftIf
    constructor
    · exact hs.fresh.setConn hdbc
    · exact hs.inRequest
    · intro hg d' c hc ho
      rw [setConn_dbc hdbc] at hc
      have hset := hs.flagged hg d' c hc ho
      by_cases hd : d' = d
      · rw [hd] at hset ⊢
        simpa [Dbs.setConn] using hset
      · simpa [Dbs.setConn, Function.update_of_ne hd] using hset
  | reportError =>
    apply Triple.throw
    intro s hs
    exact hs
  | endRequest =>
    apply Triple.bind (inStep_velyCheckTransaction 0 env.atEnd)
    intro _
    apply Triple.modify
    rintro s ⟨hs, hunset⟩
    exact hs.ended hunset

theorem NoneLeftIf.exec (h : NoneLeftIf totDbs s) (c : Call) (env : Env) :
  NoneLeftIf totDbs (c.exec home totDbs env s)
  := by
  apply exec_rule (inStep_body c env) (inStep_velyCheckTransaction 1 env.atEnd)
  · intro _
    exact h
  · intro hexited
    constructor
    · apply h.fresh.congr
      · intro d
        rfl
      · rfl
      · rfl
      · rfl
    · rfl
    · intro hg
      exact (h.left hg hexited).flagged
  · rintro s ⟨hs, hunset⟩
    exact hs.ended hunset
  · intro s hs
    constructor
    · apply hs.fresh.congr
      · intro d
        rfl
      · rfl
      · rfl
      · rfl
    · intro _ hexited
      cases hexited

theorem noneLeftIf_start (types : Nat → Vendor) :
  NoneLeftIf totDbs (start types)
  := by
  constructor
  · apply fresh_start
  · intro _ _
    constructor
    · intro d c hc
      cases hc
    · intro _ d _ c hc
      cases hc

theorem NoneLeftIf.run (h : NoneLeftIf totDbs s) (calls : List (Call × Env)) :
  NoneLeftIf totDbs (run home totDbs calls s)
  := by
  induction calls generalizing s with
  | nil => exact h
  | cons x calls ih =>
    obtain ⟨c, env⟩ := x
    apply ih (h.exec c env)

/-- In a run in which neither the end of a transaction nor a begin in one is refused, a transaction
that is open has its flag set, and none is open after the end of a request. -/
theorem noneLeft_run (types : Nat → Vendor) (calls : List (Call × Env))
    (hgranted : AllGranted (run home totDbs calls (start types)).log)
    (hexited : (run home totDbs calls (start types)).exited = false) :
  NoneLeft totDbs (run home totDbs calls (start types))
  := ((noneLeftIf_start types).run calls).left hgranted hexited

end Run

instance (sql : Sql) (exits : Bool) : Decidable (sql.MayFail exits) :=
  match sql with
  | .statement _ => inferInstanceAs (Decidable True)
  | .begin => inferInstanceAs (Decidable (exits = true))
  | .commit => inferInstanceAs (Decidable False)
  | .rollback => inferInstanceAs (Decidable False)

instance (e : Entry) : Decidable e.Granted :=
  inferInstanceAs (Decidable (∀ x ∈ e.sent, x.inTransaction = true → x.answer = .refused →
    e.sql.MayFail e.exits))

instance (log : List Entry) : Decidable (AllGranted log) :=
  inferInstanceAs (Decidable (∀ e ∈ log, e.Granted))

/-- The database answers with an error. -/
def refusedOnce : Env where
  own := ⟨⟨.made, .ok, .refused⟩, ⟨.made, .ok, .ok⟩⟩
  atEnd _ := ⟨⟨.made, .ok, .ok⟩, ⟨.made, .ok, .ok⟩⟩

/-- Transactions on two databases: a statement fails in one, the other is committed, and the request
ends. -/
theorem noneLeft_run_two :
  NoneLeft 2 (run id 2
    [(.execute 0 .begin .okay, allOk), (.execute 1 .begin .okay, allOk),
      (.execute 0 (.statement none) .onErrorContinue, refusedOnce), (.execute 1 .commit .okay, allOk),
      (.endRequest, allOk)]
    (start fun _ => .postgres))
  := noneLeft_run _ _ (by decide) (by decide)

/-- A commit that fails in the database, with the program going on to the end of the request: the
transaction is open and its flag is not set. -/
theorem not_noneLeft_commit :
  ¬ NoneLeft 1 (run id 1
    [(.execute 0 .begin .okay, allOk), (.execute 0 .commit .onErrorContinue, refusedOnce),
      (.endRequest, allOk)]
    (start fun _ => .postgres))
  := by
  intro h
  exact absurd (h.flagged 0 0 (by decide) (by decide)) (by decide)

end Db

end Vely
