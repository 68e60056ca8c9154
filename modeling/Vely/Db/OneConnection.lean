import Vely.Db.Calls

/-!
# Transactions and connections

A transaction is open from a begin that succeeds until commit or rollback is called.  What is
executed in it is executed on the connection of the begin as long as no connection is made in it.
-/

namespace Vely

namespace Db

/-- A begin succeeded on the connection `c` of the database, and neither commit nor rollback was
called since. -/
inductive Open (d c : Nat) : List Entry → Prop
  | begun {e : Entry} {log : List Entry} (hdb : e.db = d) (hsql : e.sql = .begin) (x : Sent)
      (hx : x ∈ e.sent) (hc : x.conn = c) (hok : x.answer = .ok) :
      Open d c (e :: log)
  | later {e : Entry} {log : List Entry} (h : Open d c log)
      (hnot : ¬ (e.db = d ∧ (e.sql = .commit ∨ e.sql = .rollback))) :
      Open d c (e :: log)

/-- In a transaction that is open, a begin or a statement is executed on the connection of the
transaction, and a commit succeeds on it. -/
def Entry.Keeps (e : Entry) (log : List Entry) : Prop :=
  ∀ c, Open e.db c log → ∀ x ∈ e.sent,
    match e.sql with
    | .begin => x.answer ≠ .lost → x.conn = c
    | .statement _ => x.answer ≠ .lost → x.conn = c
    | .commit => x.answer = .ok → x.conn = c
    | .rollback => True

/-- Every execution keeps to the connection of the transaction that it is in. -/
def OneConnection : List Entry → Prop
  | [] => True
  | e :: log => e.Keeps log ∧ OneConnection log

/-- A connection is made for what is executed: there is none, or it is found lost, and the flag does
not say that a transaction is open, or is cleared before. -/
def Remakes (d : Nat) (sql : Sql) (att : Attempt) (s : Dbs) : Prop :=
  match (s.conn d).dbc with
  | none => att.first.connect = .made
  | some _ =>
    (s.conn d).dbType ≠ .sqlite ∧ ((s.conn d).isBeginTransaction = false ∨ sql = .commit) ∧
      (velyExec d sql att.first s).1 = .lost ∧ att.again.connect = .made

/-- What is executed does not bring the connection of an open transaction with it. -/
def Free (d : Nat) (sql : Sql) (log : List Entry) : Prop :=
  sql = .rollback ∨ ∀ c, ¬ Open d c log

/-- In an open transaction no connection is made. -/
def StaysOn (d : Nat) (sql : Sql) (att : Attempt) (s : Dbs) : Prop :=
  Free d sql s.log ∨ ¬ Remakes d sql att s

/-- No connection is made in an open transaction of the database of a call. -/
def Call.Stays (home : Nat → Nat) (c : Call) (env : Env) (s : Dbs) : Prop :=
  match c with
  | .execute d (.statement _) _ => StaysOn d (.statement none) env.own s
  | .execute d sql _ => StaysOn d sql env.own s
  | .prepared p _ => StaysOn (home p) (.statement (some p)) env.own s
  | _ => True

/-- In a run no connection is made in an open transaction. -/
def Stays (home : Nat → Nat) (totDbs : Nat) : List (Call × Env) → Dbs → Prop
  | [], _ => True
  | (c, env) :: calls, s =>
    c.Stays home env s ∧ Stays home totDbs calls (c.exec home totDbs env s)

/-- What was executed kept to its connections, and the connection of a database with an open
transaction is that of the transaction, unless it is lost. -/
structure Steady (s : Dbs) : Prop where
  fresh : Fresh s
  kept : OneConnection s.log
  current : ∀ d c c', Open d c s.log → (s.conn d).dbc = some c' → s.alive c' = true → c' = c

/-- The same during an execution, with the log before it; if a statement succeeded, the connection
is the one it was sent on. -/
structure Executing (d : Nat) (sql : Sql) (log : List Entry) (done : Prop) (s : Dbs) : Prop where
  fresh : Fresh s
  kept : OneConnection log
  others : ∀ d' ≠ d, ∀ c c', Open d' c log → (s.conn d').dbc = some c' → s.alive c' = true → c' = c
  own : Free d sql log ∨
    ∀ c c', Open d c log → (s.conn d).dbc = some c' → s.alive c' = true → c' = c
  entry : ∃ e, s.log = e :: log ∧ e.db = d ∧ e.sql = sql ∧ e.Keeps log ∧
    ∀ x ∈ e.sent, x.answer = .ok → done ∧ (s.conn d).dbc = some x.conn

section Executing

variable {d c : Nat} {sql : Sql} {log : List Entry} {done : Prop} {s s' : Dbs} {x : Sent} {t : Try}
  {att : Attempt}

theorem Steady.congr (h : Steady s) (hconn : ∀ d, (s'.conn d).dbc = (s.conn d).dbc)
    (hnext : s'.next = s.next) (halive : s'.alive = s.alive) (hopened : s'.opened = s.opened)
    (hlog : s'.log = s.log) :
  Steady s'
  := by
  constructor
  · apply h.fresh.congr hconn hnext halive hopened
  · rw [hlog]
    exact h.kept
  · simp only [hlog, hconn, halive]
    exact h.current

theorem Steady.setConn (hs : Steady s) {db : OneDb} (h : db.dbc = (s.conn d).dbc) :
  Steady (s.setConn d db)
  := by
  apply hs.congr (setConn_dbc h)
  · rfl
  · rfl
  · rfl
  · rfl

/-- An execution starts. -/
theorem Steady.executing (h : Steady s) (exits : Bool) :
  Executing d sql s.log False { s with log := ⟨d, sql, exits, []⟩ :: s.log }
  := by
  constructor
  · apply h.fresh.congr
    · intro d'
      rfl
    · rfl
    · rfl
    · rfl
  · exact h.kept
  · intro d' _
    exact h.current d'
  · exact Or.inr (h.current d)
  · refine ⟨_, rfl, rfl, rfl, ?_, ?_⟩
    · intro c _ x hx
      cases hx
    · intro x hx
      cases hx

/-- An execution has ended. -/
theorem Executing.steady (h : Executing d sql log done s) :
  Steady s
  := by
  obtain ⟨e, hlog, hdb, hsql, hkeeps, hdone⟩ := h.entry
  constructor
  · exact h.fresh
  · rw [hlog]
    exact ⟨hkeeps, h.kept⟩
  · intro d' c c' hopen hdbc halive
    rw [hlog] at hopen
    cases hopen with
    | begun hd' hbegin x hx hc hok =>
      obtain ⟨-, hx⟩ := hdone x hx hok
      rw [← hd', hdb, hx, hc] at hdbc
      cases hdbc
      rfl
    | later hopen hnot =>
      by_cases hd : d' = d
      · subst hd
        rcases h.own with (hroll | hfree) | hown
        · exact absurd ⟨hdb, Or.inr (hsql.trans hroll)⟩ hnot
        · exact absurd hopen (hfree c)
        · exact hown c c' hopen hdbc halive
      · exact h.others d' hd c c' hopen hdbc halive

/-- A statement is sent on the connection of the database. -/
theorem Executing.sends (h : Executing d sql log False s) (hc : (s.conn d).dbc = some c)
    (hs : Sends s sql c x s') :
  Executing d sql log (x.answer = .ok) s'
  := by
  obtain ⟨e, hlog, hdb, hsql, hkeeps, hdone⟩ := h.entry
  constructor
  · exact h.fresh.sends hs
  · exact h.kept
  · intro d' hd c₀ c' hopen hdbc halive
    rw [hs.conn] at hdbc
    exact h.others d' hd c₀ c' hopen hdbc (hs.alive_of halive)
  · rcases h.own with hfree | hown
    · exact Or.inl hfree
    · right
      intro c₀ c' hopen hdbc halive
      rw [hs.conn] at hdbc
      exact hown c₀ c' hopen hdbc (hs.alive_of halive)
  · refine ⟨{ e with sent := e.sent ++ [x] }, ?_, hdb, hsql, ?_, ?_⟩
    · rw [hs.log]
      simp only [Dbs.record, hlog]
    · have hx : ∀ c₀, Open d c₀ log → sql ≠ .rollback → x.answer ≠ .lost → x.conn = c₀ := by
        intro c₀ hopen hroll hlost
        have halive : s.alive c = true := by
          by_contra hdead
          exact hlost (hs.dead (by simpa using hdead))
        rw [hs.sentOn]
        rcases h.own with (hr | hfree) | hown
        · exact absurd hr hroll
        · exact absurd hopen (hfree c₀)
        · exact hown c₀ c hopen hc halive
      intro c₀ hopen y hy
      rw [List.mem_append, List.mem_singleton] at hy
      rcases hy with hy | rfl
      · exact hkeeps c₀ hopen y hy
      · rw [hdb] at hopen
        have hy := hx c₀ hopen
        rw [← hsql] at hy
        simp only
        cases hk : e.sql with
        | begin => exact hy (by simp [hk])
        | statement p => exact hy (by simp [hk])
        | commit =>
          intro hok
          exact hy (by simp [hk]) (by simp [hok])
        | rollback => trivial
    · intro y hy hok
      rw [List.mem_append, List.mem_singleton] at hy
      rw [hs.conn]
      rcases hy with hy | rfl
      · exact absurd (hdone y hy hok).1 id
      · rw [hs.sentOn]
        exact ⟨hok, hc⟩

/-- The connection of the database is another one, or there is none. -/
theorem Executing.moved (h : Executing d sql log False s) (hfresh : Fresh s') (hlog : s'.log = s.log)
    (hconn : ∀ d' ≠ d, (s'.conn d').dbc = (s.conn d').dbc)
    (halive : ∀ d' ≠ d, ∀ c', (s.conn d').dbc = some c' → s'.alive c' = true → s.alive c' = true)
    (hown : Free d sql log ∨ ∀ c', (s'.conn d).dbc = some c' → s'.alive c' = false) :
  Executing d sql log False s'
  := by
  obtain ⟨e, hel, hdb, hsql, hkeeps, hdone⟩ := h.entry
  constructor
  · exact hfresh
  · exact h.kept
  · intro d' hd c₀ c' hopen hdbc hal
    rw [hconn d' hd] at hdbc
    exact h.others d' hd c₀ c' hopen hdbc (halive d' hd c' hdbc hal)
  · rcases hown with hfree | hdead
    · exact Or.inl hfree
    · right
      intro c₀ c' _ hdbc hal
      rw [hdead c' hdbc] at hal
      cases hal
  · refine ⟨e, hlog.trans hel, hdb, hsql, hkeeps, ?_⟩
    intro y hy hok
    exact absurd (hdone y hy hok).1 id

/-- A connection is made that is not alive, or for what keeps to no connection. -/
theorem Executing.newConnection (up : Bool) (h : Executing d sql log False s)
    (hown : Free d sql log ∨ up = false) :
  Executing d sql log False (newConnection d up s)
  := by
  obtain ⟨-, -, -, halive, -, hlog, -⟩ := newConnection_fields (d := d) up s
  apply h.moved
  · apply h.fresh.newConnection
  · exact hlog
  · intro d' hd
    rw [newConnection_dbc, if_neg hd]
  · intro d' _ c' hdbc hal
    rw [halive, Function.update_of_ne] at hal
    · exact hal
    · exact Nat.ne_of_lt (h.fresh.conn d' c' hdbc)
  · rcases hown with hfree | hup
    · exact Or.inl hfree
    · right
      intro c' hdbc
      rw [newConnection_dbc, if_pos rfl] at hdbc
      cases hdbc
      rw [halive, Function.update_self, hup]

/-- The connection is closed. -/
theorem Executing.velyEndConnection (h : Executing d sql log False s) :
  Executing d sql log False (velyEndConnection d s)
  := by
  obtain ⟨-, hlog, -, hconn, -, halive, -⟩ := velyEndConnection_fields d s
  apply h.moved
  · apply h.fresh.velyEndConnection
  · exact hlog
  · intro d' hd
    rw [hconn d' hd]
  · intro d' _ c' _ hal
    exact ((halive c').mp hal).1
  · right
    intro c' hdbc
    rw [velyEndConnection_dbc, if_pos rfl] at hdbc
    cases hdbc

/-- A connection that is made and closed at once. -/
theorem Executing.gone (h : Executing d sql log False s) :
  Executing d sql log False (Db.velyEndConnection d (Db.newConnection d true s))
  := by
  obtain ⟨-, -, -, halive, -, hlog, -⟩ := newConnection_fields (d := d) true s
  obtain ⟨-, hlog', -, hconn, -, halive', -⟩ :=
    velyEndConnection_fields d (Db.newConnection d true s)
  apply h.moved
  · exact (h.fresh.newConnection d true).velyEndConnection d
  · rw [hlog', hlog]
  · intro d' hd
    rw [hconn d' hd, newConnection_dbc, if_neg hd]
  · intro d' _ c' hdbc hal
    have hal := ((halive' c').mp hal).1
    rw [halive, Function.update_of_ne] at hal
    · exact hal
    · exact Nat.ne_of_lt (h.fresh.conn d' c' hdbc)
  · right
    intro c' hdbc
    rw [velyEndConnection_dbc, if_pos rfl] at hdbc
    cases hdbc

/-- The flags of a database are no part of an execution. -/
theorem Executing.setConn (h : Executing d sql log done s) {d' : Nat} {db : OneDb}
    (hdb : db.dbc = (s.conn d').dbc) :
  Executing d sql log done (s.setConn d' db)
  := by
  have hconn := setConn_dbc hdb
  constructor
  · apply h.fresh.setConn hdb
  · exact h.kept
  · intro d'' hd
    simp only [hconn]
    exact h.others d'' hd
  · simp only [hconn]
    exact h.own
  · simp only [hconn]
    exact h.entry

/-- A connection that is there is used, or one is made. -/
theorem velyGetDbConnection_executing {P : Dbs → Prop} {k : Connect}
    (hP : ∀ s, P s → Executing d sql log False s)
    (hmade : ∀ s, P s → (s.conn d).dbc = none → k = .made → Free d sql log) :
  Triple P (velyGetDbConnection k d)
    (fun _ s => Executing d sql log False s ∧ ((s.conn d).dbc.isSome = true ∧ (P s ∨ Free d sql log)))
    Steady
  := by
  apply velyGetDbConnection_rule
  · intro s c hs hc
    exact ⟨hP s hs, by simp [hc], Or.inl hs⟩
  · intro s hs hnone hk
    have hfree := hmade s hs hnone hk
    have hnew := (hP s hs).newConnection true (Or.inl hfree)
    refine ⟨?_, ?_, Or.inr hfree⟩
    · apply hnew.setConn
      rfl
    · simp [connected, Dbs.setConn, newConnection_dbc]
  · intro s hs _
    exact (hP s hs).steady
  · intro s hs _
    exact ((hP s hs).newConnection false (Or.inr rfl)).steady
  · intro s hs _
    exact (hP s hs).gone.steady

/-- What is answered to a prepared statement. -/
theorem execPrepared_fst (d p c : Nat) (t : Try) (s : Dbs) :
  (execPrepared d p c t s).1
    = match s.prep p with
      | some _ => s.reply c t.run
      | none =>
        if s.clashes d c p then .refused
        else if s.reply c t.prepare = .ok then s.reply c t.run
        else s.reply c t.prepare
  := by
  unfold execPrepared
  cases s.prep p with
  | some h => rfl
  | none =>
    simp only
    split
    · rfl
    · cases s.reply c t.prepare with
      | ok => rfl
      | refused => rfl
      | lost => rfl

/-- What a database answers depends on the connection and on what is prepared. -/
theorem velyExec_fst_congr (hdbc : (s'.conn d).dbc = (s.conn d).dbc)
    (htype : (s'.conn d).dbType = (s.conn d).dbType) (hprep : s'.prep = s.prep)
    (halive : s'.alive = s.alive) (hprepared : s'.prepared = s.prepared) :
  (velyExec d sql t s').1 = (velyExec d sql t s).1
  := by
  have hreply : ∀ c a, s'.reply c a = s.reply c a := by
    intro c a
    simp only [Dbs.reply, halive]
  unfold velyExec
  rw [hdbc]
  cases (s.conn d).dbc with
  | none => rfl
  | some c =>
    cases sql with
    | begin => apply hreply
    | commit => apply hreply
    | rollback => apply hreply
    | statement prep =>
      cases prep with
      | none => apply hreply
      | some p =>
        have hclash : s'.clashes d c p = s.clashes d c p := by
          simp [Dbs.clashes, halive, htype, hprepared]
        simp only [execPrepared_fst, hprep, hreply, hclash]

/-- Whether a connection is made depends on the connections, on what is prepared, and on the flag
where it is not cleared. -/
theorem Remakes.congr (h : Remakes d sql att s') (hdbc : (s'.conn d).dbc = (s.conn d).dbc)
    (htype : (s'.conn d).dbType = (s.conn d).dbType) (hprep : s'.prep = s.prep)
    (halive : s'.alive = s.alive) (hprepared : s'.prepared = s.prepared)
    (hflag : (s'.conn d).isBeginTransaction = (s.conn d).isBeginTransaction ∨ sql = .commit) :
  Remakes d sql att s
  := by
  unfold Remakes at h ⊢
  rw [hdbc, htype, velyExec_fst_congr hdbc htype hprep halive hprepared] at h
  cases hc : (s.conn d).dbc with
  | none =>
    rw [hc] at h
    exact h
  | some c =>
    rw [hc] at h
    obtain ⟨hlite, hset, hrest⟩ := h
    refine ⟨hlite, ?_, hrest⟩
    rcases hflag with heq | hcommit
    · rw [heq] at hset
      exact hset
    · exact Or.inr hcommit

theorem StaysOn.congr (h : StaysOn d sql att s) (hdbc : (s'.conn d).dbc = (s.conn d).dbc)
    (htype : (s'.conn d).dbType = (s.conn d).dbType) (hprep : s'.prep = s.prep)
    (halive : s'.alive = s.alive) (hprepared : s'.prepared = s.prepared) (hlog : s'.log = s.log)
    (hflag : (s'.conn d).isBeginTransaction = (s.conn d).isBeginTransaction ∨ sql = .commit) :
  StaysOn d sql att s'
  := by
  rcases h with hfree | hnot
  · left
    rw [hlog]
    exact hfree
  · right
    intro hmakes
    exact hnot (hmakes.congr hdbc htype hprep halive hprepared hflag)

/-- Nothing that is executed leaves the connection of an open transaction when no connection is made
in it. -/
theorem steady_velyExecuteSql (erract : OnError) :
  Triple (fun s => Steady s ∧ StaysOn d sql att s) (velyExecuteSql d sql erract att)
    (fun _ => Steady) Steady
  := by
  rintro s₀ ⟨hsteady, hstays⟩
  -- whether the connection can be left: before a statement is sent, and after it was answered
  let stays (s : Dbs) : Prop := Free d sql s₀.log ∨ ¬ Remakes d sql att s
  let stayed (a : Answer) (s : Dbs) : Prop := Free d sql s₀.log ∨
    ((s.conn d).isBeginTransaction = false → velyCheckc d s = false → att.again.connect ≠ .made)
  have hrule : Triple (· = s₀) (velyExecuteSql d sql erract att)
      (fun ok s => ∃ a : Answer, (Executing d sql s₀.log (a = .ok) s ∧ stayed a s ∨
        Executing d sql s₀.log (a = .ok) s) ∧ (ok = true ↔ a = .ok) ∧
        (ok = false → (s.conn d).reperr erract = false)) Steady := by
    apply velyExecuteSql_rule
      (B := fun s => Executing d sql s₀.log False s ∧ stays s)
      (D := fun s => Executing d sql s₀.log False s ∧ (s.conn d).dbc.isSome = true ∧ True)
    · rintro s rfl
      refine ⟨hsteady.executing _, ?_⟩
      rcases hstays with hfree | hnot
      · exact Or.inl hfree
      · right
        intro hmakes
        exact hnot (hmakes.congr rfl rfl rfl rfl rfl (Or.inl rfl))
    · apply velyGetDbConnection_executing
      · intro s hs
        exact hs.1
      · rintro s ⟨-, hfree | hnot⟩ hnone hk
        · exact hfree
        · exfalso
          apply hnot
          simp only [Remakes, hnone]
          exact hk
    · rintro s ⟨hex, hsome, hs⟩
      obtain ⟨c, hc⟩ := Option.isSome_iff_exists.mp hsome
      obtain ⟨x, hsends, hx⟩ := sends_velyExec sql att.first hc
      refine ⟨?_, ?_⟩
      · rw [← hx]
        exact hex.sends hc hsends
      · rcases hs with ⟨-, hfree | hnot⟩ | hfree
        · exact Or.inl hfree
        · right
          intro hflag hcheck hmade
          apply hnot
          simp only [Remakes, hc]
          rw [hsends.conn] at hflag
          simp only [velyCheckc, hsends.conn, hc] at hcheck
          refine ⟨?_, Or.inl hflag, ?_, hmade⟩
          · intro hlite
            simp [hlite] at hcheck
          · rw [← hx]
            by_contra hlost
            have halive : s.alive c = true := by
              by_contra hdead
              exact hlost (hsends.dead (by simpa using hdead))
            rw [hsends.alive, if_neg hlost, halive] at hcheck
            split at hcheck
            · cases hcheck
            · cases hcheck
        · exact Or.inl hfree
    · intro a ha
      unfold velyRetryDb
      apply Triple.bind (Q := fun _ s => Executing d sql s₀.log False s ∧
        (att.again.connect = .made → Free d sql s₀.log))
      · apply Triple.modify
        rintro s ⟨⟨⟨hex, hstayed⟩, hflag⟩, hcheck⟩
        have hex : Executing d sql s₀.log False s := by
          simpa [ha] using hex
        refine ⟨hex.velyEndConnection, ?_⟩
        intro hmade
        rcases hstayed with hfree | hnot
        · exact hfree
        · exact absurd hmade (hnot hflag hcheck)
      · intro _
        apply (velyGetDbConnection_executing _ _).mono
        · intro s hs
          exact hs
        · rintro _ s ⟨hex, hsome, -⟩
          exact ⟨hex, hsome, trivial⟩
        · intro s hs
          exact hs
        · intro s hs
          exact hs.1
        · intro s hs _ hmade
          exact hs.2 hmade
    · rintro s ⟨hex, hsome, -⟩
      obtain ⟨c, hc⟩ := Option.isSome_iff_exists.mp hsome
      obtain ⟨x, hsends, hx⟩ := sends_velyExec sql att.again hc
      rw [← hx]
      exact hex.sends hc hsends
    · rintro a s - (⟨hex, -⟩ | hex)
      · exact hex.steady
      · exact hex.steady
  have h := hrule s₀ rfl
  revert h
  cases velyExecuteSql d sql erract att s₀ with
  | ok ok s =>
    rintro ⟨a, ⟨hex, -⟩ | hex, -⟩
    · exact hex.steady
    · exact hex.steady
  | error e s =>
    intro h
    exact h

end Executing

section Run

variable {d : Nat} {att : Attempt} {s s' : Dbs} {home : Nat → Nat} {totDbs : Nat}

/-- The flag of a database is set or cleared. -/
theorem steady_setBegin {P : Dbs → Prop} {R : Dbs → Prop} (b : Bool) (h : ∀ s, P s → Steady s) :
  Triple P (setBegin d b) (fun _ => Steady) R
  := by
  apply Triple.modify
  intro s hs
  apply (h s hs).setConn
  rfl

/-- A rollback needs no connection. -/
theorem steady_velyRollback (erract : OnError) :
  Triple Steady (velyRollback d erract att) (fun _ => Steady) Steady
  := by
  apply Triple.bind (steady_setBegin false (fun _ h => h))
  intro _
  apply (steady_velyExecuteSql erract).pre
  intro s hs
  exact ⟨hs, Or.inl (Or.inl rfl)⟩

/-- The end of a request. -/
theorem steady_velyCheckTransaction (checkMode : Nat) (atEnd : Nat → Attempt) :
  Triple Steady (velyCheckTransaction totDbs checkMode atEnd) (fun _ => Steady) Steady
  := by
  apply velyCheckTransaction_rule (I := fun _ => Steady)
  · intro _ _ s hs _
    exact hs
  · intro _ i
    apply steady_velyRollback
  · intro _ s hs
    exact hs

/-- What a call does. -/
theorem steady_body (c : Call) (env : Env) :
  Triple (fun s => Steady s ∧ c.Stays home env s) (c.body home totDbs env) (fun _ => Steady) Steady
  := by
  have hdone : ∀ {α : Type} {a : α}, Triple Steady (pure a : M α) (fun _ => Steady) Steady := by
    intro α a
    apply Triple.pure
    intro s hs
    exact hs
  cases c with
  | execute d sql erract =>
    apply Triple.bind (Q := fun _ => Steady) _ (fun _ => hdone)
    cases sql with
    | begin =>
      apply Triple.bind (steady_velyExecuteSql erract)
      intro ok
      apply Triple.bind (steady_setBegin ok (fun _ h => h))
      intro _
      exact hdone
    | commit =>
      apply Triple.bind (Q := fun _ s => Steady s ∧ StaysOn d .commit env.own s)
      · apply Triple.modify
        rintro s ⟨hs, hstays⟩
        have hdb : ({ s.conn d with isBeginTransaction := false } : OneDb).dbc = (s.conn d).dbc := rfl
        refine ⟨hs.setConn hdb, ?_⟩
        apply StaysOn.congr hstays (setConn_dbc hdb d)
        · simp [Dbs.setConn]
        · rfl
        · rfl
        · rfl
        · rfl
        · exact Or.inr rfl
      · intro _
        exact steady_velyExecuteSql erract
    | rollback =>
      apply (steady_velyRollback erract).pre
      intro s hs
      exact hs.1
    | statement prep => apply steady_velyExecuteSql erract
  | prepared p erract =>
    apply Triple.bind (Q := fun _ s => Steady s ∧ StaysOn (home p) (.statement (some p)) env.own s)
    · apply Triple.modify
      rintro s ⟨hs, hstays⟩
      split
      · exact ⟨hs, hstays⟩
      · constructor
        · apply hs.congr
          · intro d
            rfl
          · rfl
          · rfl
          · rfl
          · rfl
        · apply StaysOn.congr hstays
          · rfl
          · rfl
          · rfl
          · rfl
          · rfl
          · rfl
          · exact Or.inl rfl
    · intro _
      apply Triple.bind (steady_velyExecuteSql erract)
      intro _
      exact hdone
  | onError d exit =>
    apply Triple.modify
    rintro s ⟨hs, -⟩
    apply hs.setConn
    rfl
  | reportError =>
    apply Triple.throw
    rintro s ⟨hs, -⟩
    exact hs
  | endRequest =>
    apply Triple.bind
    · apply (steady_velyCheckTransaction 0 env.atEnd).pre
      rintro s ⟨hs, -⟩
      exact hs
    · intro _
      apply Triple.modify
      intro s hs
      apply hs.congr
      · intro d
        rfl
      · rfl
      · rfl
      · rfl
      · rfl

/-- A call that makes no connection in an open transaction leaves the connections steady. -/
theorem Steady.exec (h : Steady s) {c : Call} {env : Env} (hstays : c.Stays home env s) :
  Steady (c.exec home totDbs env s)
  := by
  have hflags : ∀ {s : Dbs} (a b : Bool), Steady s → Steady { s with inRequest := a, exited := b } := by
    intro s a b hs
    apply hs.congr
    · intro d
      rfl
    · rfl
    · rfl
    · rfl
    · rfl
  apply exec_rule (steady_body c env) (steady_velyCheckTransaction 1 env.atEnd)
  · intro _
    exact h
  · intro _
    refine ⟨hflags true s.exited h, ?_⟩
    have hstays' : ∀ d sql, StaysOn d sql env.own s →
        StaysOn d sql env.own { s with inRequest := true } :=
      fun d sql h => h.congr rfl rfl rfl rfl rfl rfl (Or.inl rfl)
    cases c with
    | execute d sql erract =>
      cases sql with
      | begin => exact hstays' _ _ hstays
      | commit => exact hstays' _ _ hstays
      | rollback => exact hstays' _ _ hstays
      | statement prep => exact hstays' _ _ hstays
    | prepared p erract => exact hstays' _ _ hstays
    | onError d exit => trivial
    | reportError => trivial
    | endRequest => trivial
  · intro s hs
    exact hflags false s.exited hs
  · intro s hs
    exact hflags s.inRequest true hs

theorem steady_start (types : Nat → Vendor) :
  Steady (start types)
  := by
  constructor
  · apply fresh_start
  · trivial
  · intro d c c' hopen
    cases hopen

/-- The connections are steady after a run that makes no connection in an open transaction. -/
theorem Steady.run (h : Steady s) {calls : List (Call × Env)} (hstays : Stays home totDbs calls s) :
  Steady (run home totDbs calls s)
  := by
  induction calls generalizing s with
  | nil => exact h
  | cons x calls ih =>
    obtain ⟨c, env⟩ := x
    apply ih (h.exec hstays.1)
    exact hstays.2

/-- In a run that makes no connection in an open transaction, what is executed in a transaction is
executed on the connection of its begin. -/
theorem oneConnection_run (types : Nat → Vendor) (calls : List (Call × Env))
    (hstays : Stays home totDbs calls (start types)) :
  OneConnection (run home totDbs calls (start types)).log
  := ((steady_start types).run hstays).kept

end Run

instance (d : Nat) (sql : Sql) (att : Attempt) (s : Dbs) : Decidable (Remakes d sql att s) :=
  match hc : (s.conn d).dbc with
  | none => decidable_of_iff (att.first.connect = .made) (by simp [Remakes, hc])
  | some _ =>
    decidable_of_iff
      ((s.conn d).dbType ≠ .sqlite ∧ ((s.conn d).isBeginTransaction = false ∨ sql = .commit) ∧
        (velyExec d sql att.first s).1 = .lost ∧ att.again.connect = .made)
      (by simp [Remakes, hc])

/-- A transaction whose connection is lost at a statement, which is answered with an error, and
which is then rolled back. -/
theorem oneConnection_run_lost :
  OneConnection (run id 1
    [(.execute 0 .begin .okay, allOk), (.execute 0 (.statement none) .onErrorContinue, lostOnce),
      (.execute 0 .rollback .okay, allOk)]
    (start fun _ => .postgres)).log
  := by
  apply oneConnection_run
  refine ⟨Or.inl (Or.inr ?_), Or.inr (by decide), Or.inl (Or.inl rfl), trivial⟩
  intro c h
  cases h

/-- A transaction whose connection is lost when it is committed: the commit is executed on a new
connection and succeeds. -/
theorem not_oneConnection_commit :
  ¬ OneConnection (run id 1
    [(.execute 0 .begin .okay, allOk), (.execute 0 (.statement none) .okay, allOk),
      (.execute 0 .commit .okay, lostOnce)]
    (start fun _ => .postgres)).log
  := by
  intro h
  have hlog : (run id 1
      [(.execute 0 .begin .okay, allOk), (.execute 0 (.statement none) .okay, allOk),
        (.execute 0 .commit .okay, lostOnce)]
      (start fun _ => .postgres)).log
    = [⟨0, .commit, true, [⟨0, .lost, true, none, false⟩, ⟨1, .ok, false, none, false⟩]⟩,
      ⟨0, .statement none, true, [⟨0, .ok, true, none, false⟩]⟩,
      ⟨0, .begin, true, [⟨0, .ok, false, none, false⟩]⟩] := rfl
  rw [hlog] at h
  have hbegun : Open 0 0 [(⟨0, .begin, true, [⟨0, .ok, false, none, false⟩]⟩ : Entry)] :=
    Open.begun rfl rfl _ (List.mem_singleton_self _) rfl rfl
  have hcommit := h.1 0 (hbegun.later (by simp)) ⟨1, .ok, false, none, false⟩ (by simp) rfl
  exact absurd hcommit (by decide)

end Db

end Vely
