import Vely.Db.Calls

/-!
# The cache of prepared statements

A variable holds the handle of its statement until a connection is made to a database of the same
type, which resets it.  A reset for another database loses the handle of a connection that is alive,
and PostgreSQL knows the name of its statement still.
-/

namespace Vely

namespace Db

/-- A handle that is used is one of the connection that it is sent on, and no statement is prepared
under a name that its connection has. -/
def PreparedOk (log : List Entry) : Prop :=
  ∀ e ∈ log, ∀ x ∈ e.sent, (∀ h, x.handle = some h → h = x.conn) ∧ x.clash = false

/-- When a connection to a PostgreSQL database is made, no variable of a statement of PostgreSQL has
a handle of a live connection. -/
def Apart (types : Nat → Vendor) (made : List Made) : Prop :=
  ∀ m ∈ made, types m.db = .postgres → m.others = false

/-- The handles of variables, with the types of databases: a handle is that of the connection of its
database, or there is none; if nothing was lost by resets, a name that a live connection has is that
of a handle. -/
structure Cached (home : Nat → Nat) (types : Nat → Vendor) (s : Dbs) : Prop where
  fresh : Fresh s
  typed : ∀ d, (s.conn d).dbType = types d
  listed : ∀ x ∈ s.allpreps, x.2 = types (home x.1)
  registered : ∀ p c, s.prep p = some c → (p, types (home p)) ∈ s.allpreps
  current : ∀ p c, s.prep p = some c →
    (s.conn (home p)).dbc = some c ∨ (s.conn (home p)).dbc = none
  names : ∀ c, s.next ≤ c → s.prepared c = []
  named : Apart types s.made → ∀ p c, s.alive c = true → types (home p) = .postgres →
    p ∈ s.prepared c → s.prep p = some c
  log : ∀ e ∈ s.log, ∀ x ∈ e.sent,
    (∀ h, x.handle = some h → h = x.conn) ∧ (Apart types s.made → x.clash = false)

section Cached

variable {home : Nat → Nat} {types : Nat → Vendor} {d c p : Nat} {s s' : Dbs} {sql : Sql} {t : Try}

/-- Flags and settings are no part of the cache. -/
theorem Cached.congr (h : Cached home types s) (hfresh : Fresh s')
    (htyped : ∀ d, (s'.conn d).dbType = (s.conn d).dbType)
    (hconn : ∀ d, (s'.conn d).dbc = (s.conn d).dbc ∨ (s'.conn d).dbc = none)
    (hprep : s'.prep = s.prep) (hpreps : s'.allpreps = s.allpreps) (hnext : s'.next = s.next)
    (halive : ∀ c, s'.alive c = true → s.alive c = true) (hnames : s'.prepared = s.prepared)
    (hmade : s'.made = s.made)
    (hlog : ∀ e ∈ s'.log, ∀ x ∈ e.sent,
      (∀ h, x.handle = some h → h = x.conn) ∧ (Apart types s.made → x.clash = false)) :
  Cached home types s'
  := by
  constructor
  · exact hfresh
  · intro d
    rw [htyped, h.typed]
  · rw [hpreps]
    exact h.listed
  · rw [hprep, hpreps]
    exact h.registered
  · intro p c hp
    rw [hprep] at hp
    rcases hconn (home p) with hsame | hnone
    · rw [hsame]
      exact h.current p c hp
    · exact Or.inr hnone
  · rw [hnext, hnames]
    exact h.names
  · rw [hmade, hnames, hprep]
    intro happart p c hc
    exact h.named happart p c (halive c hc)
  · rw [hmade]
    exact hlog

theorem Cached.setConn (h : Cached home types s) {db : OneDb} (hdbc : db.dbc = (s.conn d).dbc)
    (htype : db.dbType = (s.conn d).dbType) :
  Cached home types (s.setConn d db)
  := by
  apply h.congr (h.fresh.setConn hdbc)
  · intro d'
    simp only [Dbs.setConn]
    by_cases hd : d' = d
    · rw [hd, Function.update_self, htype]
    · rw [Function.update_of_ne hd]
  · intro d'
    exact Or.inl (setConn_dbc hdbc d')
  · rfl
  · rfl
  · rfl
  · intro c hc
    exact hc
  · rfl
  · rfl
  · exact h.log

/-- A statement is sent with a handle of its connection, or with none. -/
theorem Cached.send (h : Cached home types s) {a : Answer} {handle : Option Nat} {clash : Bool}
    (hdead : s.alive c = false → a = .lost) (hhandle : ∀ k, handle = some k → k = c)
    (hclash : Apart types s.made → clash = false) :
  Cached home types (s.send sql c a handle clash)
  := by
  have hs : Sends s sql c _ (s.send sql c a handle clash) := sends_send handle clash hdead
  apply h.congr (h.fresh.sends hs)
  · intro d
    rw [hs.conn]
  · intro d
    rw [hs.conn]
    exact Or.inl rfl
  · simp [Dbs.send]
  · exact hs.allpreps
  · exact hs.next
  · intro c' hc'
    exact hs.alive_of hc'
  · simp [Dbs.send]
  · exact hs.made
  · rw [hs.log]
    unfold Dbs.record
    split
    · rename_i e log hlog
      intro e' he' x hx
      rcases List.mem_cons.mp he' with rfl | he'
      · rcases List.mem_append.mp hx with hx | hx
        · apply h.log e _ x hx
          rw [hlog]
          exact List.mem_cons_self
        · rw [List.mem_singleton.mp hx]
          exact ⟨hhandle, hclash⟩
      · apply h.log e' _ x hx
        rw [hlog]
        exact List.mem_cons_of_mem _ he'
    · exact h.log

/-- A statement is prepared on the connection of its database. -/
theorem Cached.prepare (h : Cached home types s) (hp : s.prep p = none)
    (hc : (s.conn (home p)).dbc = some c) (hreg : (p, types (home p)) ∈ s.allpreps) :
  Cached home types { s with
    prepared := Function.update s.prepared c (p :: s.prepared c)
    prep := Function.update s.prep p (some c) }
  := by
  constructor
  · apply h.fresh.congr
    · intro d
      rfl
    · rfl
    · rfl
    · rfl
  · exact h.typed
  · exact h.listed
  · intro q k hq
    by_cases hqp : q = p
    · rw [hqp]
      exact hreg
    · simp only [Function.update_of_ne hqp] at hq
      exact h.registered q k hq
  · intro q k hq
    by_cases hqp : q = p
    · subst hqp
      simp only [Function.update_self] at hq
      cases hq
      exact Or.inl hc
    · simp only [Function.update_of_ne hqp] at hq
      exact h.current q k hq
  · intro k hk
    have hne : k ≠ c := by
      rintro rfl
      exact absurd (h.fresh.conn _ _ hc) (Nat.not_lt.mpr hk)
    simp only [Function.update_of_ne hne]
    exact h.names k hk
  · intro happart q k hk htype hq
    by_cases hqp : q = p
    · subst hqp
      simp only [Function.update_self]
      by_cases hkc : k = c
      · rw [hkc]
      · simp only [Function.update_of_ne hkc] at hq
        rw [h.named happart q k hk htype hq] at hp
        cases hp
    · simp only [Function.update_of_ne hqp]
      apply h.named happart q k hk htype
      by_cases hkc : k = c
      · subst hkc
        simpa [hqp] using hq
      · simpa only [Function.update_of_ne hkc] using hq
  · exact h.log

/-- A prepared statement is executed on the connection of its database. -/
theorem Cached.execPrepared (h : Cached home types s) (hc : (s.conn (home p)).dbc = some c)
    (hreg : (p, types (home p)) ∈ s.allpreps) :
  Cached home types (execPrepared (home p) p c t s).2
  := by
  unfold Db.execPrepared
  cases hp : s.prep p with
  | some k =>
    apply h.send reply_dead
    · intro k' hk'
      cases hk'
      rcases h.current p k hp with hk | hk
      · rw [hc] at hk
        cases hk
        rfl
      · rw [hc] at hk
        cases hk
    · intro _
      rfl
  | none =>
    simp only
    split
    · rename_i hclash
      simp only [Dbs.clashes, Bool.and_eq_true, decide_eq_true_eq, h.typed] at hclash
      obtain ⟨⟨halive, htype⟩, hname⟩ := hclash
      apply h.send
      · intro hdead
        rw [halive] at hdead
        cases hdead
      · intro k hk
        cases hk
      · intro happart
        rw [h.named happart p c halive htype hname] at hp
        cases hp
    · split
      · have hprepared := h.prepare hp hc hreg
        apply hprepared.send
        · exact reply_dead
        · intro k hk
          cases hk
          rfl
        · intro _
          rfl
      · apply h.send reply_dead
        · intro k hk
          cases hk
        · intro _
          rfl

/-- A statement is executed; one that is prepared has its database and is in the list. -/
theorem Cached.velyExec (h : Cached home types s)
    (hsql : ∀ p, sql = .statement (some p) → d = home p ∧ (p, types (home p)) ∈ s.allpreps) :
  Cached home types (velyExec d sql t s).2
  := by
  have hplain : ∀ sql c, Cached home types (s.send sql c (s.reply c t.run) none false) := by
    intro sql c
    apply h.send reply_dead
    · intro k hk
      cases hk
    · intro _
      rfl
  unfold Db.velyExec
  split
  · exact h
  · rename_i c hc
    split
    · rename_i p
      obtain ⟨rfl, hreg⟩ := hsql p rfl
      exact h.execPrepared hc hreg
    · apply hplain

/-- Without a connection the variables of the type of the database are reset, and no statement is
closed. -/
theorem resetPreps_prep (preps : List (Nat × Vendor)) (hnone : (s.conn d).dbc = none) :
  (resetPreps d preps s).prepared = s.prepared ∧
    ∀ p, (resetPreps d preps s).prep p = if (p, (s.conn d).dbType) ∈ preps then none else s.prep p
  := by
  induction preps generalizing s with
  | nil => simp [resetPreps]
  | cons x preps ih =>
    obtain ⟨q, v⟩ := x
    have hclose : closeStmt d q s = s := by
      unfold closeStmt
      rw [hnone]
      split
      · rename_i h
        cases h
      · rfl
    simp only [resetPreps, hclose]
    split
    · rename_i hv
      obtain ⟨hnames, hprep⟩ := @ih { s with prep := Function.update s.prep q none } hnone
      refine ⟨hnames, ?_⟩
      intro p
      rw [hprep]
      by_cases hpq : p = q
      · subst hpq
        simp [hv]
      · simp [hpq]
    · rename_i hv
      obtain ⟨hnames, hprep⟩ := @ih s hnone
      refine ⟨hnames, ?_⟩
      intro p
      rw [hprep]
      have hne : ¬ (p, (s.conn d).dbType) = (q, v) := by
        rintro ⟨⟩
        exact hv rfl
      simp only [List.mem_cons, hne, false_or]

/-- A new connection resets the handles of its type; those of other databases are lost only with the
names they stand for on live connections. -/
theorem Cached.newConnection (h : Cached home types s) (up : Bool) (hnone : (s.conn d).dbc = none) :
  Cached home types (newConnection d up s)
  := by
  obtain ⟨hconn, hpreps, hnext, halive, -, hlog, hmade, -⟩ := newConnection_fields (d := d) up s
  obtain ⟨hnames, hprep⟩ := resetPreps_prep (d := d)
    (s := { s with made := ⟨d, s.othersHeld d⟩ :: s.made }) s.allpreps hnone
  have hprep' : ∀ p, (Db.newConnection d up s).prep p
      = if (p, types d) ∈ s.allpreps then none else s.prep p := by
    intro p
    rw [← h.typed d]
    exact hprep p
  have hnames' : (Db.newConnection d up s).prepared = s.prepared := hnames
  have hkept : ∀ p c, (Db.newConnection d up s).prep p = some c →
      s.prep p = some c ∧ (p, types d) ∉ s.allpreps := by
    intro p c hp
    rw [hprep'] at hp
    split at hp
    · cases hp
    · rename_i hnot
      exact ⟨hp, hnot⟩
  constructor
  · exact h.fresh.newConnection d up
  · intro d'
    rw [hconn]
    by_cases hd : d' = d
    · rw [hd, Function.update_self]
      exact h.typed d
    · rw [Function.update_of_ne hd]
      exact h.typed d'
  · rw [hpreps]
    exact h.listed
  · intro p c hp
    rw [hpreps]
    exact h.registered p c (hkept p c hp).1
  · intro p c hp
    obtain ⟨hp', hnot⟩ := hkept p c hp
    rw [newConnection_dbc, if_neg]
    · exact h.current p c hp'
    · rintro rfl
      exact hnot (h.registered p c hp')
  · intro c hc
    rw [hnext] at hc
    rw [hnames']
    exact h.names c (Nat.le_of_succ_le hc)
  · intro happart p c hc htype hname
    rw [hmade] at happart
    rw [hnames'] at hname
    have hne : c ≠ s.next := by
      rintro rfl
      rw [h.names _ (Nat.le_refl _)] at hname
      cases hname
    rw [halive, Function.update_of_ne hne] at hc
    have hp := h.named (fun m hm => happart m (List.mem_cons_of_mem _ hm)) p c hc htype hname
    rw [hprep', if_neg, hp]
    intro hmem
    -- the variable would be one whose handle of a live connection is lost
    have hsame : types (home p) = types d := (h.listed _ hmem).symm
    have hothers := happart ⟨d, s.othersHeld d⟩ List.mem_cons_self (hsame ▸ htype)
    have hheld : s.othersHeld d = true := by
      unfold Dbs.othersHeld
      rw [List.any_eq_true]
      refine ⟨_, hmem, ?_⟩
      simp [h.typed, hp, hc]
    simp only at hothers
    rw [hheld] at hothers
    cases hothers
  · rw [hlog, hmade]
    intro e he x hx
    obtain ⟨hhandle, hclash⟩ := h.log e he x hx
    exact ⟨hhandle, fun happart => hclash (fun m hm => happart m (List.mem_cons_of_mem _ hm))⟩

theorem Cached.velyEndConnection (h : Cached home types s) :
  Cached home types (velyEndConnection d s)
  := by
  obtain ⟨hnext, hlog, -, hconn, htype, halive, -⟩ := velyEndConnection_fields d s
  have hprep : (Db.velyEndConnection d s).prep = s.prep ∧
      (Db.velyEndConnection d s).allpreps = s.allpreps ∧
      (Db.velyEndConnection d s).prepared = s.prepared ∧
      (Db.velyEndConnection d s).made = s.made := by
    unfold Db.velyEndConnection
    split
    · simp
    · simp
  obtain ⟨hprep, hpreps, hnames, hmade⟩ := hprep
  apply h.congr (h.fresh.velyEndConnection d)
  · intro d'
    by_cases hd : d' = d
    · rw [hd, htype]
    · rw [hconn d' hd]
  · intro d'
    by_cases hd : d' = d
    · right
      rw [hd, velyEndConnection_dbc, if_pos rfl]
    · left
      rw [hconn d' hd]
  · exact hprep
  · exact hpreps
  · exact hnext
  · intro c hc
    exact ((halive c).mp hc).1
  · exact hnames
  · exact hmade
  · rw [hlog]
    exact h.log

/-- The cache, with the variable of the statement that is executed in the list. -/
def Listed (home : Nat → Nat) (types : Nat → Vendor) (d : Nat) (sql : Sql) (s : Dbs) : Prop :=
  Cached home types s ∧
    ∀ p, sql = .statement (some p) → d = home p ∧ (p, types (home p)) ∈ s.allpreps

theorem listed_velyGetDbConnection {P : Dbs → Prop} {k : Connect}
    (hP : ∀ s, P s → Listed home types d sql s) :
  Triple P (velyGetDbConnection k d) (fun _ => Listed home types d sql) (Cached home types)
  := by
  apply velyGetDbConnection_rule
  · intro s c hs _
    exact hP s hs
  · intro s hs hnone _
    obtain ⟨hcached, hlisted⟩ := hP s hs
    constructor
    · apply (hcached.newConnection true hnone).setConn
      · rfl
      · rfl
    · intro p hp
      change d = home p ∧ _ ∈ (newConnection d true s).allpreps
      rw [(newConnection_fields true s).2.1]
      exact hlisted p hp
  · intro s hs _
    exact (hP s hs).1
  · intro s hs hnone
    exact (hP s hs).1.newConnection false hnone
  · intro s hs hnone
    exact ((hP s hs).1.newConnection true hnone).velyEndConnection

/-- An execution keeps the cache right. -/
theorem listed_velyExecuteSql (erract : OnError) {att : Attempt} :
  Triple (Listed home types d sql) (velyExecuteSql d sql erract att)
    (fun _ => Cached home types) (Cached home types)
  := by
  have hsend : ∀ t s, Listed home types d sql s → Listed home types d sql (velyExec d sql t s).2 := by
    rintro t s ⟨hcached, hlisted⟩
    refine ⟨hcached.velyExec hlisted, ?_⟩
    cases hc : (s.conn d).dbc with
    | none =>
      have hsame : (velyExec d sql t s).2 = s := by
        unfold Db.velyExec
        rw [hc]
      rw [hsame]
      exact hlisted
    | some c =>
      obtain ⟨x, hs, -⟩ := sends_velyExec sql t hc
      rw [hs.allpreps]
      exact hlisted
  have hrule : Triple (Listed home types d sql) (velyExecuteSql d sql erract att)
      (fun ok s => ∃ a : Answer, (Listed home types d sql s ∨ Listed home types d sql s) ∧
        (ok = true ↔ a = .ok) ∧ (ok = false → (s.conn d).reperr erract = false))
      (Cached home types) := by
    apply velyExecuteSql_rule (B := Listed home types d sql) (C := Listed home types d sql)
      (D := Listed home types d sql) (S := fun _ => Listed home types d sql)
      (T := fun _ => Listed home types d sql)
    · rintro s ⟨hcached, hlisted⟩
      refine ⟨?_, hlisted⟩
      apply hcached.congr
      · apply hcached.fresh.congr
        · intro d'
          rfl
        · rfl
        · rfl
        · rfl
      · intro d'
        rfl
      · intro d'
        exact Or.inl rfl
      · rfl
      · rfl
      · rfl
      · intro c hc
        exact hc
      · rfl
      · rfl
      · intro e he x hx
        rcases List.mem_cons.mp he with rfl | he
        · cases hx
        · exact hcached.log e he x hx
    · apply listed_velyGetDbConnection
      intro s hs
      exact hs
    · exact hsend att.first
    · intro a _
      apply Triple.bind (Q := fun _ => Listed home types d sql)
      · apply Triple.modify
        rintro s ⟨⟨⟨hcached, hlisted⟩, -⟩, -⟩
        refine ⟨hcached.velyEndConnection, ?_⟩
        have hpreps : (Db.velyEndConnection d s).allpreps = s.allpreps := by
          unfold Db.velyEndConnection
          split
          · rfl
          · rfl
        rw [hpreps]
        exact hlisted
      · intro _
        apply listed_velyGetDbConnection
        intro s hs
        exact hs
    · exact hsend att.again
    · rintro a s - (hs | hs)
      · exact hs.1
      · exact hs.1
  apply hrule.mono
  · intro s hs
    exact hs
  · rintro ok s ⟨a, hs | hs, -⟩
    · exact hs.1
    · exact hs.1
  · intro s hs
    exact hs

end Cached

section Run

variable {home : Nat → Nat} {types : Nat → Vendor} {totDbs : Nat} {d : Nat} {att : Attempt} {s : Dbs}

/-- A flag of a request or of the process is no part of the cache. -/
theorem Cached.flags (h : Cached home types s) (a b : Bool) :
  Cached home types { s with inRequest := a, exited := b }
  := by
  apply h.congr
  · apply h.fresh.congr
    · intro d
      rfl
    · rfl
    · rfl
    · rfl
  · intro d
    rfl
  · intro d
    exact Or.inl rfl
  · rfl
  · rfl
  · rfl
  · intro c hc
    exact hc
  · rfl
  · rfl
  · exact h.log

/-- What is not a prepared statement is executed. -/
theorem cached_velyExecuteSql {sql : Sql} (hsql : ∀ p, sql ≠ .statement (some p))
    (erract : OnError) :
  Triple (Cached home types) (velyExecuteSql d sql erract att) (fun _ => Cached home types)
    (Cached home types)
  := by
  apply (listed_velyExecuteSql erract).pre
  intro s hs
  exact ⟨hs, fun p hp => absurd hp (hsql p)⟩

theorem cached_setBegin (b : Bool) :
  Triple (Cached home types) (setBegin d b) (fun _ => Cached home types) (Cached home types)
  := by
  apply Triple.modify
  intro s hs
  apply hs.setConn
  · rfl
  · rfl

theorem cached_velyCheckTransaction (checkMode : Nat) (atEnd : Nat → Attempt) :
  Triple (Cached home types) (velyCheckTransaction totDbs checkMode atEnd)
    (fun _ => Cached home types) (Cached home types)
  := by
  apply velyCheckTransaction_rule (I := fun _ => Cached home types)
  · intro _ _ s hs _
    exact hs
  · intro _ i
    apply Triple.bind (cached_setBegin false)
    intro _
    apply cached_velyExecuteSql
    intro p h
    cases h
  · intro _ s hs
    exact hs

/-- What a call does. -/
theorem cached_body (c : Call) (env : Env) :
  Triple (Cached home types) (c.body home totDbs env) (fun _ => Cached home types)
    (Cached home types)
  := by
  have hdone : ∀ {α : Type} {a : α},
      Triple (Cached home types) (pure a : M α) (fun _ => Cached home types)
        (Cached home types) := by
    intro α a
    apply Triple.pure
    intro s hs
    exact hs
  cases c with
  | execute d sql erract =>
    apply Triple.bind (Q := fun _ => Cached home types) _ (fun _ => hdone)
    cases sql with
    | begin =>
      apply Triple.bind (cached_velyExecuteSql (by simp) erract)
      intro ok
      apply Triple.bind (cached_setBegin ok)
      intro _
      exact hdone
    | commit =>
      apply Triple.bind (cached_setBegin false)
      intro _
      exact cached_velyExecuteSql (by simp) erract
    | rollback =>
      apply Triple.bind (cached_setBegin false)
      intro _
      exact cached_velyExecuteSql (by simp) erract
    | statement p => exact cached_velyExecuteSql (by simp) erract
  | prepared p erract =>
    apply Triple.bind (Q := fun _ => Listed home types (home p) (.statement (some p)))
    · apply Triple.modify
      intro s hs
      have hlisted : ∀ s : Dbs, Cached home types s → p ∈ s.allpreps.map Prod.fst →
          Listed home types (home p) (.statement (some p)) s := by
        intro s hs hmem
        obtain ⟨⟨q, v⟩, hx, hq⟩ := List.mem_map.mp hmem
        simp only at hq
        subst hq
        have hv := hs.listed _ hx
        simp only at hv
        refine ⟨hs, ?_⟩
        intro p hp
        cases hp
        exact ⟨rfl, hv ▸ hx⟩
      split
      · rename_i hmem
        exact hlisted s hs hmem
      · apply hlisted
        · constructor
          · apply hs.fresh.congr
            · intro d
              rfl
            · rfl
            · rfl
            · rfl
          · exact hs.typed
          · intro x hx
            rcases List.mem_append.mp hx with hx | hx
            · exact hs.listed x hx
            · rw [List.mem_singleton.mp hx]
              exact hs.typed (home p)
          · intro q c hq
            exact List.mem_append_left _ (hs.registered q c hq)
          · exact hs.current
          · exact hs.names
          · exact hs.named
          · exact hs.log
        · simp [velyDbPrep]
    · intro _
      apply Triple.bind (listed_velyExecuteSql erract)
      intro _
      exact hdone
  | onError d exit =>
    apply Triple.modify
    intro s hs
    apply hs.setConn
    · rfl
    · rfl
  | reportError =>
    apply Triple.throw
    intro s hs
    exact hs
  | endRequest =>
    apply Triple.bind (cached_velyCheckTransaction 0 env.atEnd)
    intro _
    apply Triple.modify
    intro s hs
    exact hs.flags false s.exited

theorem Cached.exec (h : Cached home types s) (c : Call) (env : Env) :
  Cached home types (c.exec home totDbs env s)
  := by
  apply exec_rule (cached_body c env) (cached_velyCheckTransaction 1 env.atEnd)
  · intro _
    exact h
  · intro _
    exact h.flags true s.exited
  · intro s hs
    exact hs.flags false s.exited
  · intro s hs
    exact hs.flags s.inRequest true

theorem cached_start (home : Nat → Nat) (types : Nat → Vendor) :
  Cached home types (start types)
  := by
  constructor
  · apply fresh_start
  all_goals simp [start]

theorem Cached.run (h : Cached home types s) (calls : List (Call × Env)) :
  Cached home types (run home totDbs calls s)
  := by
  induction calls generalizing s with
  | nil => exact h
  | cons x calls ih =>
    obtain ⟨c, env⟩ := x
    apply ih (h.exec c env)

/-- In a run that makes no connection to PostgreSQL while the handle of a live connection of
PostgreSQL is held, handles are used on their connections, and no name is prepared twice on one. -/
theorem preparedOk_run (calls : List (Call × Env))
    (happart : Apart types (run home totDbs calls (start types)).made) :
  PreparedOk (run home totDbs calls (start types)).log
  := by
  intro e he x hx
  obtain ⟨hhandle, hclash⟩ := ((cached_start home types).run calls).log e he x hx
  exact ⟨hhandle, hclash happart⟩

end Run

instance (types : Nat → Vendor) (made : List Made) : Decidable (Apart types made) :=
  inferInstanceAs (Decidable (∀ m ∈ made, types m.db = .postgres → m.others = false))

/-- Prepared queries on a PostgreSQL and an SQLite database, with the connection to PostgreSQL lost
once. -/
theorem preparedOk_run_two :
  PreparedOk (run id 2
    [(.prepared 0 .okay, allOk), (.prepared 1 .okay, allOk), (.prepared 0 .okay, lostOnce),
      (.prepared 1 .okay, allOk), (.prepared 0 .okay, allOk)]
    (start fun d => if d = 0 then .postgres else .sqlite)).log
  := preparedOk_run _ (by decide)

/-- Prepared queries on two PostgreSQL databases: making the connection to the second resets the
variable of the first, whose statement is then prepared again on the same connection. -/
theorem not_preparedOk_two :
  ¬ PreparedOk (run id 2
    [(.prepared 0 .okay, allOk), (.prepared 1 .okay, allOk), (.prepared 0 .okay, allOk)]
    (start fun _ => .postgres)).log
  := by
  intro h
  have hlog : (run id 2
      [(.prepared 0 .okay, allOk), (.prepared 1 .okay, allOk), (.prepared 0 .okay, allOk)]
      (start fun _ => .postgres)).log
    = [⟨0, .statement (some 0), true, [⟨0, .refused, false, none, true⟩]⟩,
      ⟨1, .statement (some 1), true, [⟨1, .ok, false, some 1, false⟩]⟩,
      ⟨0, .statement (some 0), true, [⟨0, .ok, false, some 0, false⟩]⟩] := rfl
  rw [hlog] at h
  have hclash := (h _ List.mem_cons_self _ (List.mem_singleton_self _)).2
  exact absurd hclash (by decide)

end Db

end Vely
