import Vely.Db.Model

/-!
# Executing a statement

Everything a program does with a database goes through `vely_execute_SQL`.  Its rule says what has
to be shown of the making of a connection, of one statement that is sent, and of the connection that
is made when one was lost.
-/

namespace Vely

namespace Db

section Rule

variable {d : Nat} {sql : Sql} {erract : OnError} {att : Attempt} {k : Connect}
  {P B C R : Dbs → Prop} {S : Answer → Dbs → Prop}

/-- A database that is connected. -/
def connected (d : Nat) (s : Dbs) : Dbs :=
  let s := newConnection d true s
  s.setConn d { s.conn d with hasConnected := true, isBeginTransaction := false }

/-- A connection is there, or it is made, or its making ends in one of three ways. -/
theorem velyGetDbConnection_rule
    (hcached : ∀ s c, P s → (s.conn d).dbc = some c → C s)
    (hmade : ∀ s, P s → (s.conn d).dbc = none → k = .made → C (connected d s))
    (hreport : ∀ s, P s → (s.conn d).dbc = none → R s)
    (hbad : ∀ s, P s → (s.conn d).dbc = none → R (newConnection d false s))
    (hgone : ∀ s, P s → (s.conn d).dbc = none →
      R (velyEndConnection d (newConnection d true s))) :
  Triple P (velyGetDbConnection k d) (fun _ => C) R
  := by
  unfold velyGetDbConnection
  apply Triple.get_bind
  intro s hs
  cases hdbc : (s.conn d).dbc with
  | some c =>
    apply Triple.pure
    rintro _ rfl
    apply hcached _ c hs hdbc
  | none =>
    apply Triple.ite
    · intro _
      apply Triple.throw
      rintro _ rfl
      apply hreport _ hs hdbc
    · rintro - _ rfl
      cases k with
      | made => apply hmade _ hs hdbc rfl
      | bad => apply hbad _ hs hdbc
      | gone => apply hgone _ hs hdbc

/-- An error is answered, or the connection was lost and is made again. -/
theorem velyHandleError_rule {retry : Bool}
    (hretry : retry = true → Triple (fun s => P s ∧ velyCheckc d s = false) (velyRetryDb k d)
      (fun _ => C) R)
    (hfail : ∀ s, P s → R s) :
  Triple P (velyHandleError d retry k erract)
    (fun again s => if again = true then C s ∧ retry = true
      else P s ∧ (s.conn d).reperr erract = false) R
  := by
  unfold velyHandleError
  apply Triple.get_bind
  intro s hs
  apply Triple.ite
  · rintro ⟨hc, hr⟩
    apply Triple.bind
    · apply (hretry hr).pre
      rintro _ rfl
      exact ⟨hs, hc⟩
    · intro _
      apply Triple.pure
      intro s' hs'
      exact ⟨hs', hr⟩
  · intro _
    apply Triple.ite
    · intro _
      apply Triple.throw
      rintro _ rfl
      apply hfail _ hs
    · intro hrep
      apply Triple.pure
      rintro _ rfl
      exact ⟨hs, by simpa using hrep⟩

/-- What is shown of the connections and of the statements that are sent holds of an execution. -/
theorem velyExecuteSql_rule {D : Dbs → Prop} {T : Answer → Dbs → Prop}
    (hpush : ∀ s, P s → B { s with log := ⟨d, sql, (s.conn d).reperr erract, []⟩ :: s.log })
    (hget : Triple B (velyGetDbConnection att.first.connect d) (fun _ => C) R)
    (hexec : ∀ s, C s → S (velyExec d sql att.first s).1 (velyExec d sql att.first s).2)
    (hretry : ∀ a, a ≠ .ok → Triple
      (fun s => (S a s ∧ (s.conn d).isBeginTransaction = false) ∧ velyCheckc d s = false)
      (velyRetryDb att.again.connect d) (fun _ => D) R)
    (hexec' : ∀ s, D s → T (velyExec d sql att.again s).1 (velyExec d sql att.again s).2)
    (hfail : ∀ a s, a ≠ .ok → S a s ∨ T a s → R s) :
  Triple P (velyExecuteSql d sql erract att)
    (fun ok s => ∃ a, (S a s ∨ T a s) ∧ (ok = true ↔ a = .ok) ∧
      (ok = false → (s.conn d).reperr erract = false)) R
  := by
  have hsend : Triple C (modifyGet (velyExec d sql att.first) : M Answer) S R :=
    fun s hs => hexec s hs
  have hsend' : Triple D (modifyGet (velyExec d sql att.again) : M Answer) T R :=
    fun s hs => hexec' s hs
  have herror : ∀ a, a ≠ .ok → Triple (fun s => S a s ∨ T a s)
      (velyHandleError d false att.again.connect erract)
      (fun ok s => ∃ a, (S a s ∨ T a s) ∧ (ok = true ↔ a = .ok) ∧
        (ok = false → (s.conn d).reperr erract = false)) R := by
    intro a ha
    apply (velyHandleError_rule (C := C) ?_ (fun s => hfail a s ha)).mono
    · intro s hs
      exact hs
    · intro ok s hs
      cases ok with
      | true => exact absurd hs.2 (by simp)
      | false => exact ⟨a, hs.1, by simp [ha], fun _ => hs.2⟩
    · intro s hs
      exact hs
    · intro h
      cases h
  unfold velyExecuteSql
  apply Triple.bind (Q := fun _ => B)
  · apply Triple.modify
    exact hpush
  intro _
  apply Triple.bind hget
  intro _
  apply Triple.bind hsend
  intro a
  apply Triple.ite
  · rintro rfl
    apply Triple.pure
    intro s hs
    exact ⟨.ok, Or.inl hs, by simp, by simp⟩
  intro ha
  apply Triple.get_bind
  intro s hs
  apply Triple.ite
  · intro hflag
    apply Triple.bind
    · apply (velyHandleError_rule (fun _ => hretry a ha)
        (fun s hs => hfail a s ha (Or.inl hs.1))).pre
      rintro _ rfl
      exact ⟨hs, hflag⟩
    · intro again
      apply Triple.ite
      · rintro rfl
        apply Triple.bind (Q := T)
        · apply hsend'.pre
          intro s hs
          exact hs.1
        · intro a'
          apply Triple.ite
          · rintro rfl
            apply Triple.pure
            intro s hs
            exact ⟨.ok, Or.inr hs, by simp, by simp⟩
          · intro ha'
            apply (herror a' ha').pre
            intro s hs
            exact Or.inr hs
      · intro hagain
        apply Triple.pure
        intro s hs
        rw [if_neg hagain] at hs
        exact ⟨a, Or.inl hs.1.1, by simp [ha], fun _ => hs.2⟩
  · intro _
    apply (herror a ha).pre
    rintro _ rfl
    exact Or.inl hs

end Rule

section Fields

variable {s : Dbs} {d : Nat}

@[simp]
theorem closeStmt_fields (p : Nat) :
  (closeStmt d p s).conn = s.conn ∧ (closeStmt d p s).prep = s.prep ∧
    (closeStmt d p s).allpreps = s.allpreps ∧ (closeStmt d p s).next = s.next ∧
    (closeStmt d p s).alive = s.alive ∧ (closeStmt d p s).opened = s.opened ∧
    (closeStmt d p s).log = s.log ∧ (closeStmt d p s).made = s.made ∧
    (closeStmt d p s).inRequest = s.inRequest
  := by
  unfold closeStmt
  split
  · simp
  · simp

/-- Resetting variables leaves the rest as it is. -/
theorem resetPreps_fields (preps : List (Nat × Vendor)) (s : Dbs) :
  (resetPreps d preps s).conn = s.conn ∧ (resetPreps d preps s).allpreps = s.allpreps ∧
    (resetPreps d preps s).next = s.next ∧ (resetPreps d preps s).alive = s.alive ∧
    (resetPreps d preps s).opened = s.opened ∧ (resetPreps d preps s).log = s.log ∧
    (resetPreps d preps s).made = s.made ∧ (resetPreps d preps s).inRequest = s.inRequest
  := by
  induction preps generalizing s with
  | nil => simp [resetPreps]
  | cons x preps ih =>
    obtain ⟨p, v⟩ := x
    simp only [resetPreps]
    split
    · simpa using ih { closeStmt d p s with prep := Function.update (closeStmt d p s).prep p none }
    · exact ih s

/-- A new connection is the one of its database. -/
theorem newConnection_fields (up : Bool) (s : Dbs) :
  (newConnection d up s).conn = Function.update s.conn d { s.conn d with dbc := some s.next } ∧
    (newConnection d up s).allpreps = s.allpreps ∧ (newConnection d up s).next = s.next + 1 ∧
    (newConnection d up s).alive = Function.update s.alive s.next up ∧
    (newConnection d up s).opened = s.opened ∧ (newConnection d up s).log = s.log ∧
    (newConnection d up s).made = ⟨d, s.othersHeld d⟩ :: s.made ∧
    (newConnection d up s).inRequest = s.inRequest
  := by
  obtain ⟨hconn, hpreps, hnext, halive, hopened, hlog, hmade, hreq⟩ :=
    resetPreps_fields (d := d) s.allpreps { s with made := ⟨d, s.othersHeld d⟩ :: s.made }
  simp only [newConnection, hconn, hpreps, hnext, halive, hopened, hlog, hmade, hreq, and_self]

end Fields

/-- What a statement that is sent on the connection `c` changes, with what is recorded of it. -/
structure Sends (s : Dbs) (sql : Sql) (c : Nat) (x : Sent) (s' : Dbs) : Prop where
  conn : s'.conn = s.conn
  allpreps : s'.allpreps = s.allpreps
  next : s'.next = s.next
  made : s'.made = s.made
  inRequest : s'.inRequest = s.inRequest
  log : s'.log = (s.record x).log
  sentOn : x.conn = c
  inTransaction : x.inTransaction = s.opened c
  dead : s.alive c = false → x.answer = .lost
  alive : s'.alive = if x.answer = .lost then Function.update s.alive c false else s.alive
  opened : s'.opened = Function.update s.opened c (sql.leaves x.answer (s.opened c))

section Sends

variable {s : Dbs} {d c : Nat} {sql : Sql} {t : Try}

@[simp]
theorem record_fields (x : Sent) :
  (s.record x).conn = s.conn ∧ (s.record x).prep = s.prep ∧
    (s.record x).allpreps = s.allpreps ∧ (s.record x).next = s.next ∧
    (s.record x).alive = s.alive ∧ (s.record x).opened = s.opened ∧
    (s.record x).prepared = s.prepared ∧ (s.record x).made = s.made ∧
    (s.record x).inRequest = s.inRequest
  := by
  unfold Dbs.record
  split
  · simp
  · simp

theorem sends_send {a : Answer} (handle : Option Nat) (clash : Bool)
    (hdead : s.alive c = false → a = .lost) :
  Sends s sql c ⟨c, a, s.opened c, handle, clash⟩ (s.send sql c a handle clash)
  := by
  constructor
  all_goals simp [Dbs.send]
  exact hdead

theorem reply_dead {a : Answer} (h : s.alive c = false) :
  s.reply c a = .lost
  := by
  simp [Dbs.reply, h]

/-- The variables and the names that are prepared are no part of what a statement changes. -/
theorem Sends.of_prep {s' : Dbs} {x : Sent} {prep : Nat → Option Nat} {prepared : Nat → List Nat}
    (h : Sends { s with prep := prep, prepared := prepared } sql c x s') :
  Sends s sql c x s'
  := by
  obtain ⟨hconn, hpreps, hnext, hmade, hreq, hlog, hon, hin, hdead, halive, hopened⟩ := h
  constructor
  all_goals try assumption
  rw [hlog]
  cases hl : s.log with
  | nil => simp [Dbs.record, hl]
  | cons e log => simp [Dbs.record, hl]

/-- A prepared statement is sent, or the request to prepare it. -/
theorem sends_execPrepared (p : Nat) :
  ∃ x, Sends s (.statement (some p)) c x (execPrepared d p c t s).2 ∧
    x.answer = (execPrepared d p c t s).1
  := by
  unfold execPrepared
  cases hp : s.prep p with
  | some h => exact ⟨_, sends_send _ _ reply_dead, rfl⟩
  | none =>
    simp only
    split
    · rename_i hclash
      refine ⟨_, sends_send _ _ ?_, rfl⟩
      intro hdead
      simp [Dbs.clashes, hdead] at hclash
    · split
      · exact ⟨_, (sends_send _ _ reply_dead).of_prep, rfl⟩
      · rename_i hnot
        refine ⟨_, sends_send _ _ reply_dead, rfl⟩

/-- A statement is sent on the connection of the database. -/
theorem sends_velyExec (sql : Sql) (t : Try) (hc : (s.conn d).dbc = some c) :
  ∃ x, Sends s sql c x (velyExec d sql t s).2 ∧ x.answer = (velyExec d sql t s).1
  := by
  unfold velyExec
  rw [hc]
  cases sql with
  | begin => exact ⟨_, sends_send _ _ reply_dead, rfl⟩
  | commit => exact ⟨_, sends_send _ _ reply_dead, rfl⟩
  | rollback => exact ⟨_, sends_send _ _ reply_dead, rfl⟩
  | statement prep =>
    cases prep with
    | none => exact ⟨_, sends_send _ _ reply_dead, rfl⟩
    | some p => apply sends_execPrepared

end Sends

/-- Connections have numbers below the next one, one belongs to one database, and a transaction is
open on a connection that is alive. -/
structure Fresh (s : Dbs) : Prop where
  conn : ∀ d c, (s.conn d).dbc = some c → c < s.next
  alive : ∀ c, s.alive c = true → c < s.next
  opened : ∀ c, s.opened c = true → s.alive c = true
  apart : ∀ d d' c, (s.conn d).dbc = some c → (s.conn d').dbc = some c → d = d'

section Fresh

variable {s s' : Dbs} {d : Nat}

theorem fresh_start (types : Nat → Vendor) :
  Fresh (start types)
  := by
  constructor
  all_goals simp [start]

/-- What is said of connections depends on the connections. -/
theorem Fresh.congr (h : Fresh s) (hconn : ∀ d, (s'.conn d).dbc = (s.conn d).dbc)
    (hnext : s'.next = s.next) (halive : s'.alive = s.alive) (hopened : s'.opened = s.opened) :
  Fresh s'
  := by
  obtain ⟨h₁, h₂, h₃, h₄⟩ := h
  constructor
  · simp only [hconn, hnext]
    exact h₁
  · simp only [halive, hnext]
    exact h₂
  · simp only [halive, hopened]
    exact h₃
  · simp only [hconn]
    exact h₄

/-- A database is changed without its connection. -/
theorem setConn_dbc {db : OneDb} (h : db.dbc = (s.conn d).dbc) (d' : Nat) :
  ((s.setConn d db).conn d').dbc = (s.conn d').dbc
  := by
  simp only [Dbs.setConn]
  by_cases hd : d' = d
  · rw [hd, Function.update_self, h]
  · rw [Function.update_of_ne hd]

theorem Fresh.setConn (hs : Fresh s) {db : OneDb} (h : db.dbc = (s.conn d).dbc) :
  Fresh (s.setConn d db)
  := by
  apply hs.congr (setConn_dbc h)
  · rfl
  · rfl
  · rfl

/-- The connections of the databases after one is made. -/
theorem newConnection_dbc (d : Nat) (up : Bool) (s : Dbs) (d' : Nat) :
  ((newConnection d up s).conn d').dbc = if d' = d then some s.next else (s.conn d').dbc
  := by
  rw [(newConnection_fields up s).1]
  split
  · rename_i hd
    rw [hd, Function.update_self]
  · rename_i hd
    rw [Function.update_of_ne hd]

theorem Fresh.newConnection (h : Fresh s) (d : Nat) (up : Bool) :
  Fresh (newConnection d up s)
  := by
  obtain ⟨-, -, hnext, halive, hopened, -⟩ := newConnection_fields (d := d) up s
  have hlive : ∀ c, Function.update s.alive s.next up c = true →
      c < s.next ∧ s.alive c = true ∨ c = s.next := by
    intro c hc
    by_cases hn : c = s.next
    · exact Or.inr hn
    · rw [Function.update_of_ne hn] at hc
      exact Or.inl ⟨h.alive c hc, hc⟩
  constructor
  · intro d' c hc
    rw [newConnection_dbc] at hc
    rw [hnext]
    split at hc
    · cases hc
      exact Nat.lt_succ_self _
    · exact Nat.lt_succ_of_lt (h.conn d' c hc)
  · intro c hc
    rw [halive] at hc
    rw [hnext]
    rcases hlive c hc with ⟨hlt, -⟩ | rfl
    · exact Nat.lt_succ_of_lt hlt
    · exact Nat.lt_succ_self _
  · intro c hc
    rw [hopened] at hc
    have hne : c ≠ s.next := by
      rintro rfl
      exact absurd (h.alive _ (h.opened _ hc)) (Nat.lt_irrefl _)
    rw [halive, Function.update_of_ne hne]
    exact h.opened c hc
  · intro d₁ d₂ c h₁ h₂
    rw [newConnection_dbc] at h₁ h₂
    split at h₁
    · cases h₁
      split at h₂
      · rename_i hd₁ hd₂
        rw [hd₁, hd₂]
      · exact absurd (h.conn _ _ h₂) (Nat.lt_irrefl _)
    · split at h₂
      · cases h₂
        exact absurd (h.conn _ _ h₁) (Nat.lt_irrefl _)
      · exact h.apart _ _ _ h₁ h₂

/-- The connections of the databases after one is closed. -/
theorem velyEndConnection_dbc (d : Nat) (s : Dbs) (d' : Nat) :
  ((velyEndConnection d s).conn d').dbc = if d' = d then none else (s.conn d').dbc
  := by
  unfold velyEndConnection
  split
  · rename_i hnone
    split
    · rename_i hd
      rw [hd, hnone]
    · rfl
  · split
    · rename_i hd
      simp [hd]
    · rename_i hd
      simp [Function.update_of_ne hd]

/-- Closing a connection leaves the other ones. -/
theorem velyEndConnection_fields (d : Nat) (s : Dbs) :
  (velyEndConnection d s).next = s.next ∧ (velyEndConnection d s).log = s.log ∧
    (velyEndConnection d s).inRequest = s.inRequest ∧
    (∀ d' ≠ d, (velyEndConnection d s).conn d' = s.conn d') ∧
    ((velyEndConnection d s).conn d).dbType = (s.conn d).dbType ∧
    (∀ c, (velyEndConnection d s).alive c = true ↔
      s.alive c = true ∧ (s.conn d).dbc ≠ some c) ∧
    (∀ c, (velyEndConnection d s).opened c = true ↔
      s.opened c = true ∧ (s.conn d).dbc ≠ some c)
  := by
  unfold velyEndConnection
  split
  · rename_i hnone
    simp [hnone]
  · rename_i c hc
    refine ⟨rfl, rfl, rfl, ?_, ?_, ?_, ?_⟩
    · intro d' hd
      apply Function.update_of_ne hd
    · simp
    · intro c'
      rw [hc]
      by_cases hcc : c' = c
      · simp [hcc]
      · simp [Function.update_of_ne hcc, Ne.symm hcc]
    · intro c'
      rw [hc]
      by_cases hcc : c' = c
      · simp [hcc]
      · simp [Function.update_of_ne hcc, Ne.symm hcc]

theorem Fresh.velyEndConnection (h : Fresh s) (d : Nat) :
  Fresh (velyEndConnection d s)
  := by
  obtain ⟨hnext, -, -, -, -, halive, hopened⟩ := velyEndConnection_fields d s
  constructor
  · intro d' c hc
    rw [velyEndConnection_dbc] at hc
    split at hc
    · cases hc
    · rw [hnext]
      exact h.conn d' c hc
  · intro c hc
    rw [hnext]
    exact h.alive c ((halive c).mp hc).1
  · intro c hc
    obtain ⟨ho, hd⟩ := (hopened c).mp hc
    exact (halive c).mpr ⟨h.opened c ho, hd⟩
  · intro d₁ d₂ c h₁ h₂
    rw [velyEndConnection_dbc] at h₁ h₂
    split at h₁
    · cases h₁
    · split at h₂
      · cases h₂
      · exact h.apart _ _ _ h₁ h₂

/-- A connection that is alive after a statement was sent was so before. -/
theorem Sends.alive_of {sql : Sql} {c : Nat} {x : Sent} (hs : Sends s sql c x s') {c' : Nat}
    (h : s'.alive c' = true) :
  s.alive c' = true
  := by
  rw [hs.alive] at h
  split at h
  · by_cases hc : c' = c
    · rw [hc, Function.update_self] at h
      cases h
    · rwa [Function.update_of_ne hc] at h
  · exact h

theorem Fresh.sends {sql : Sql} {c : Nat} {x : Sent} (h : Fresh s) (hs : Sends s sql c x s') :
  Fresh s'
  := by
  constructor
  · rw [hs.conn, hs.next]
    exact h.conn
  · intro c' hc'
    rw [hs.next]
    exact h.alive c' (hs.alive_of hc')
  · intro c' hc'
    rw [hs.opened] at hc'
    rw [hs.alive]
    by_cases hcc : c' = c
    · subst hcc
      rw [Function.update_self] at hc'
      have hnot : x.answer ≠ .lost := by
        intro hlost
        rw [hlost] at hc'
        cases hc'
      rw [if_neg hnot]
      by_contra hdead
      exact hnot (hs.dead (by simpa using hdead))
    · rw [Function.update_of_ne hcc] at hc'
      have halive := h.opened c' hc'
      split
      · rw [Function.update_of_ne hcc, halive]
      · exact halive
  · rw [hs.conn]
    exact h.apart

end Fresh

end Db

end Vely
