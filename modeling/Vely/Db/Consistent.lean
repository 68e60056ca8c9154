import Vely.Db.Fetch

/-!
# The results of a query on return

The counts and the error that a query returns with fit the array and what went wrong, unless a
result cannot be kept or read after counts were set, or before any were.
-/

namespace Vely

namespace Select

section Whole

variable {c : Call} {o : Outputs} {p : Point}

/-- An error that is not of a lost connection that is made again is told, or it is reported. -/
theorem velyHandleError_cases {retry : Bool} (h : (c.lost p && retry) = false) :
  (c.reperr = true ∧ velyHandleError c p retry = .reported) ∨
    (c.reperr = false ∧ velyHandleError c p retry = .told (c.told p))
  := by
  rw [velyHandleError, h]
  cases c.reperr with
  | true => exact Or.inl ⟨rfl, rfl⟩
  | false => exact Or.inr ⟨rfl, rfl⟩

/-- A statement is executed, or what went wrong is reported or told. -/
theorem velyExecuteSQL_cases (c : Call) :
  (c.executes = true ∧ velyExecuteSQL c = .done) ∨
    (c.executes = false ∧ (velyExecuteSQL c = .reported ∨
      ∃ p, velyExecuteSQL c = .told (c.told p) ∧ ∀ p', c.Fails p' → p' = p))
  := by
  rw [Call.executes, velyExecuteSQL]
  cases hres : c.execres with
  | false => exact Or.inl ⟨rfl, rfl⟩
  | true =>
    cases hlost : (c.lost .execute && !c.inTransaction) with
    | false =>
      right
      constructor
      · rfl
      obtain ⟨-, hr⟩ | ⟨-, ht⟩ := velyHandleError_cases hlost
      · left
        rw [hr]
        rfl
      · right
        use .execute
        constructor
        · rw [ht]
          rfl
        · intro p hp
          cases p with
          | execute => rfl
          | again => exact absurd hp.2.1 (by rw [hlost]; exact Bool.false_ne_true)
          | store => exact absurd hp.1 (by simp [Call.executes, hres, hlost])
          | fetch r => exact absurd hp.1 (by simp [Call.executes, hres, hlost])
    | true =>
      have hretry : velyHandleError c .execute (!c.inTransaction)
          = if c.reconnects = true then .again else .reported := by
        rw [velyHandleError, hlost]
        rfl
      rw [hretry]
      cases hrec : c.reconnects with
      | false => exact Or.inr ⟨rfl, Or.inl rfl⟩
      | true =>
        cases hagain : c.refusedAgain with
        | false => exact Or.inl ⟨rfl, rfl⟩
        | true =>
          right
          constructor
          · rfl
          obtain ⟨-, hr⟩ | ⟨-, ht⟩ := @velyHandleError_cases c .again false
            (Bool.and_false _)
          · left
            simp [hr]
          · right
            use .again
            constructor
            · simp [ht]
            · intro p hp
              cases p with
              | execute => exact absurd hp.2 (by rw [hlost]; exact Bool.noConfusion)
              | again => rfl
              | store => exact absurd hp.1 (by simp [Call.executes, hres, hlost, hagain])
              | fetch r => exact absurd hp.1 (by simp [Call.executes, hres, hlost, hagain])

/-- A statement that is executed does not fail before that. -/
theorem not_fails_of_executes (h : c.executes = true) :
  ¬ c.Fails .execute ∧ ¬ c.Fails .again
  := by
  rw [Call.executes] at h
  constructor
  · rintro ⟨hres, hlost⟩
    simp [hres, hlost] at h
  · rintro ⟨hres, -, hagain⟩
    simp [hres, hagain] at h

/-- A statement that SQLite executes is prepared, and gives its rows. -/
theorem velyLiteExec_of_executes {stmt : Option LiteStmt} {s : Lite}
    (hsource : c.source = .sqlite stmt s) (h : c.executes = true) :
  ∃ stmt', stmt = some stmt' ∧ (Lite.velyLiteExec stmt s).1 = true
  := by
  simp only [Call.executes, Call.execres, Call.lost, hsource, Bool.false_and, Bool.or_false,
    Bool.not_not] at h
  cases stmt with
  | none => cases h
  | some stmt' => exact ⟨stmt', rfl, h⟩

/-- The names of a list are all there. -/
theorem isSome_mapM_id (names : List (Option CString)) :
  (names.mapM id).isSome = true ↔ ∀ name ∈ names, name.isSome = true
  := by
  induction names with
  | nil => simp
  | cons name names ih =>
    rw [List.forall_mem_cons, ← ih]
    cases name with
    | none => simp
    | some name =>
      cases hnames : names.mapM id with
      | none => simp [hnames]
      | some names => simp [hnames]

/-- The names of columns that are asked for are there, or one is a null pointer. -/
theorem isSome_fieldnames (hexec : c.executes = true) (hnames : c.names = true) :
  (c.fieldnames.mapM id).isSome = true ↔ c.NamesThere
  := by
  rw [isSome_mapM_id, Call.fieldnames, Call.NamesThere]
  cases hsource : c.source with
  | mariadb refused result => simp
  | postgres refused result => simp
  | sqlite stmt s =>
    obtain ⟨stmt, rfl, hok⟩ := velyLiteExec_of_executes hsource hexec
    have hcol : (lite (some stmt) s).qcolid = 0 := by
      have hrows := @Lite.getRows_ok stmt { s with qrows := none, qnumrows := 0 } stmt.rows
      simp only [lite, Lite.velyLiteExec, Lite.velyLiteGetData] at hok ⊢
      generalize Lite.getRows stmt stmt.rows { s with qrows := none, qnumrows := 0 } = x
        at hok hrows ⊢
      obtain ⟨ok, s'⟩ := x
      cases ok with
      | false => cases hok
      | true => exact (hrows rfl).2.1
    have hcount := Lite.velyLiteExec_qnumfields (some stmt) s
    have hnum : c.numFields = (lite (some stmt) s).qnumfields := by
      rw [Call.numFields, hsource]
      rfl
    have hthere : (∀ name ∈ (Lite.fieldnames stmt c.numFields (lite (some stmt) s)).1,
        name.isSome = true) ↔ c.numFields ≤ stmt.columns.length := by
      rw [Lite.fieldnames_eq, hcol, List.forall_mem_map]
      constructor
      · intro h
        by_contra hlt
        have hlast := h (c.numFields - 1) (List.mem_range'_1.mpr (by omega))
        rw [List.getElem?_eq_none (by omega)] at hlast
        cases hlast
      · intro h i hi
        rw [List.mem_range'_1] at hi
        rw [List.getElem?_eq_getElem (by omega)]
        rfl
    apply hthere.trans
    simp only [hnum, lite, hcount, hnames, true_implies]
    split
    · rename_i hempty
      simp [hempty]
    · rename_i hrows
      simp [hrows]

/-- An element before a place is among those up to it. -/
theorem mem_take {α : Type} {l : List α} {i n : Nat} {a : α} (hi : i < n) (h : l[i]? = some a) :
  a ∈ l.take n
  := by
  apply List.mem_of_getElem? (i := i)
  rw [List.getElem?_take_of_lt hi, h]

/-- A row of a prepared statement of MariaDB that cannot be read is the only one. -/
theorem unreadable_unique {r r' : Nat} (h : c.Unreadable r) (h' : c.Unreadable r') :
  r = r'
  := by
  rw [Call.Unreadable] at h h'
  split at h
  · rename_i result hsource
    simp only [hsource] at h'
    obtain ⟨-, ⟨row, hrow, hbad⟩, hbefore⟩ := h
    obtain ⟨-, ⟨row', hrow', hbad'⟩, hbefore'⟩ := h'
    obtain hlt | heq | hgt := Nat.lt_trichotomy r r'
    · exact absurd (hbefore' row (mem_take hlt hrow)) hbad
    · exact heq
    · exact absurd (hbefore row' (mem_take hgt hrow')) hbad'
  · cases h

/-- The error of a call that fails once is told when it returns. -/
theorem consistent_fail (hdescribes : c.reperr = false → Describes o)
    (hfails : ∀ p', c.Fails p' → p' = p) :
  Consistent c (c.fail p o)
  := by
  rw [Call.fail]
  obtain ⟨-, hr⟩ | ⟨hrep, ht⟩ := @velyHandleError_cases c p false
    (Bool.and_false _)
  · rw [hr]
    trivial
  · rw [ht]
    constructor
    · exact hdescribes hrep
    · intro p' hp'
      rw [hfails p' hp']

/-- The counts of a call that fails and returns describe the array. -/
theorem describes_of_consistent_fail (h : Consistent c (c.fail p o)) (hrep : c.reperr = false) :
  Describes o
  := by
  rw [Call.fail] at h
  obtain ⟨hrep', -⟩ | ⟨-, ht⟩ := @velyHandleError_cases c p false
    (Bool.and_false _)
  · rw [hrep] at hrep'
    cases hrep'
  · rw [ht] at h
    exact h.1

/-- Every row that is counted can be read, and its columns are strings, unless it is one of a
prepared statement of MariaDB. -/
theorem row_opened (hexec : c.executes = true)
    (hsource : ∀ refused result, c.source = .mariadb refused result → c.isPrep = false) {r : Nat}
    (hr : r < c.nrows) :
  ∃ row, c.opened.row r = some row ∧ ∀ i < c.numFields, row.Given i
  := by
  rw [Call.nrows] at hr
  rw [Call.opened, Call.numFields]
  cases hs : c.source with
  | mariadb refused result =>
    simp only [hs] at hr ⊢
    rw [hsource refused result hs, row_mariadb, List.getElem?_eq_getElem hr]
    refine ⟨_, rfl, ?_⟩
    intro i hi
    rw [← result.rows_length _ (List.getElem_mem hr)] at hi
    obtain ⟨row, hrow, hgiven⟩ := given_velyMariaRows result.rows[r] hi
    obtain rfl := Option.some.inj hrow
    exact hgiven
  | postgres refused result =>
    simp only [hs] at hr ⊢
    rw [row_postgres, List.getElem?_eq_getElem hr]
    refine ⟨_, rfl, ?_⟩
    intro i hi
    apply given_velyPgRows
    rw [result.rows_length _ (List.getElem_mem hr)]
    exact hi
  | sqlite stmt s =>
    obtain ⟨stmt, rfl, hok⟩ := velyLiteExec_of_executes hs hexec
    simp only [hs] at hr ⊢
    exact row_sqlite hok hr

/-- A row of a prepared statement of MariaDB. -/
theorem row_prepared {refused : Bool} {result : MariaResult} (hs : c.source = .mariadb refused result)
    (hprep : c.isPrep = true) (r : Nat) :
  c.opened.row r = result.rows[r]?.bind velyMariaStmtRows
  := by
  simp only [Call.opened, hs, hprep, row_mariadb]
  rfl

/-- A row that cannot be read stops the loop. -/
theorem row_of_unreadable {r : Nat} (h : c.Unreadable r) :
  r < c.nrows ∧ c.opened.row r = none
  := by
  rw [Call.Unreadable] at h
  split at h
  · rename_i result hs
    obtain ⟨hprep, ⟨row, hrow, hbad⟩, -⟩ := h
    constructor
    · simp only [Call.nrows, hs]
      exact (List.getElem?_eq_some_iff.mp hrow).1
    · rw [row_prepared hs hprep, hrow]
      exact (velyMariaStmtRows_eq_none row).mpr hbad
  · cases h

/-- The first row that stops the loop is one of a prepared statement of MariaDB that cannot be read.
-/
theorem unreadable_of_row {r : Nat} (hexec : c.executes = true) (hr : r < c.nrows)
    (hrow : c.opened.row r = none) (hbefore : ∀ r' < r, c.opened.row r' ≠ none) :
  c.Unreadable r
  := by
  by_cases hsource : ∀ refused result, c.source = .mariadb refused result → c.isPrep = false
  · obtain ⟨row, hsome, -⟩ := row_opened hexec hsource hr
    rw [hrow] at hsome
    cases hsome
  · simp only [not_forall, Bool.not_eq_false] at hsource
    obtain ⟨refused, result, hs, hprep⟩ := hsource
    simp only [Call.nrows, hs] at hr
    simp only [row_prepared hs hprep] at hrow hbefore
    simp only [Call.Unreadable, hs]
    refine ⟨hprep, ⟨result.rows[r], List.getElem?_eq_getElem hr, ?_⟩, ?_⟩
    · rw [List.getElem?_eq_getElem hr] at hrow
      exact (velyMariaStmtRows_eq_none _).mp hrow
    · intro row hmem
      obtain ⟨r', hr', hget⟩ := List.getElem_of_mem hmem
      rw [List.length_take] at hr'
      have hne := hbefore r' (by omega)
      rw [List.getElem?_eq_getElem (by omega)] at hne
      rw [List.getElem_take] at hget
      by_contra hbad
      apply hne
      rw [Option.bind_some, hget]
      exact (velyMariaStmtRows_eq_none row).mpr hbad

/-- Rows that are all read make the counts describe the array when each has a column with bytes, for
a prepared statement of MariaDB. -/
theorem given_iff_rowsSound (hexec : c.executes = true)
    (hread : ∀ r < c.nrows, c.opened.row r ≠ none) :
  (∀ r < c.nrows, ∀ row, c.opened.row r = some row → ∀ i < c.numFields, row.Given i) ↔ c.RowsSound
  := by
  by_cases hsource : ∀ refused result, c.source = .mariadb refused result → c.isPrep = false
  · apply iff_of_true
    · intro r hr row hrow i hi
      obtain ⟨row', hrow', hgiven⟩ := row_opened hexec hsource hr
      rw [hrow] at hrow'
      obtain rfl := Option.some.inj hrow'
      exact hgiven i hi
    · rw [Call.RowsSound]
      split
      · rename_i refused result hs
        intro hprep
        rw [hsource refused result hs] at hprep
        cases hprep
      · trivial
  · simp only [not_forall, Bool.not_eq_false] at hsource
    obtain ⟨refused, result, hs, hprep⟩ := hsource
    simp only [Call.nrows, hs, row_prepared hs hprep] at hread
    simp only [Call.nrows, Call.numFields, Call.RowsSound, hs, row_prepared hs hprep, hprep,
      true_implies]
    have hreadable : ∀ row ∈ result.rows, row.Readable := by
      intro row hmem
      obtain ⟨r, hr, rfl⟩ := List.getElem_of_mem hmem
      by_contra hbad
      apply hread r hr
      rw [List.getElem?_eq_getElem hr]
      exact (velyMariaStmtRows_eq_none _).mpr hbad
    constructor
    · intro hgiven hne
      left
      intro row hmem
      refine ⟨hreadable row hmem, ?_⟩
      obtain ⟨r, hr, rfl⟩ := List.getElem_of_mem hmem
      obtain ⟨row', hrow'⟩ := Option.ne_none_iff_exists'.mp (hread r hr)
      have hfirst := hgiven r hr row' hrow' 0 (List.length_pos_of_ne_nil hne)
      rw [List.getElem?_eq_getElem hr] at hrow'
      apply (given_velyMariaStmtRows hrow' (i := 0) _).mp hfirst
      rw [result.rows_length _ hmem]
      exact List.length_pos_of_ne_nil hne
    · intro h r hr row hrow i hi
      have hmem := List.getElem_mem hr
      rw [List.getElem?_eq_getElem hr] at hrow
      apply (given_velyMariaStmtRows hrow (by rw [result.rows_length _ hmem]; exact hi)).mpr
      obtain hall | ⟨-, row', hmem', hbad⟩ := h (List.ne_nil_of_length_pos (by omega))
      · exact (hall _ hmem).2
      · exact absurd (hreadable row' hmem') hbad

/-- Of a statement that is executed and a result that is kept, only a row can fail. -/
theorem fetch_of_fails (hexec : c.executes = true) (hkeeps : c.keeps = true) (h : c.Fails p) :
  c.data = true ∧ ∃ r, p = .fetch r ∧ c.Unreadable r
  := by
  cases p with
  | execute => exact absurd h (not_fails_of_executes hexec).1
  | again => exact absurd h (not_fails_of_executes hexec).2
  | store => exact absurd h.2 (by simp [hkeeps])
  | fetch r => exact ⟨h.2.2.2.1, r, rfl, h.2.2.2.2⟩

/-- What is returned with the data is consistent exactly when the rows can be read. -/
theorem consistent_getData_iff (hexec : c.executes = true) (hkeeps : c.keeps = true)
    (hncol : o.ncol = c.numFields) :
  Consistent c (c.getData o) ↔ c.RowsSound
  := by
  have hloop := readRows_filled (m := c.nrows) (filled_calloc c.opened c.numFields)
  obtain ⟨arow, nrow, ncol, colNames, data, dlen, er, errm⟩ := o
  obtain rfl : ncol = c.numFields := hncol
  rw [Call.getData]
  simp only [Open.after, Nat.zero_add] at hloop
  generalize readRows c.numFields c.nrows 0 c.opened (Table.calloc c.numFields) = x at hloop ⊢
  obtain ⟨bad, t⟩ := x
  obtain ⟨hnone, hfilled⟩ | ⟨r, hbad, hlt, hrow, hfilled⟩ := hloop
  · obtain rfl := hnone
    have hread : ∀ r < c.nrows, c.opened.row r ≠ none := by
      intro r hr hnone
      obtain ⟨row, hsome, -⟩ := hfilled.entries r hr
      rw [hnone] at hsome
      cases hsome
    have hno : ∀ p, ¬ c.Fails p := by
      intro p hp
      obtain ⟨-, r, rfl, hunreadable⟩ := fetch_of_fails hexec hkeeps hp
      obtain ⟨hr, hnone⟩ := row_of_unreadable hunreadable
      exact hread r hr hnone
    rw [← given_iff_rowsSound hexec hread]
    have hiff := @Filled.describes_iff _ t
      ⟨arow, c.nrows, c.numFields, colNames, t.data, t.dlen, er, errm⟩ hfilled rfl rfl
    rw [← hiff]
    constructor
    · intro h
      exact h.1
    · intro h
      exact ⟨h, fun p hp => absurd hp (hno p)⟩
  · obtain rfl := hbad
    have hbefore : ∀ r' < r, c.opened.row r' ≠ none := by
      intro r' hr' hnone
      obtain ⟨row, hsome, -⟩ := hfilled.entries r' hr'
      rw [hnone] at hsome
      cases hsome
    have hunreadable := unreadable_of_row hexec hlt hrow hbefore
    have hiff := @Filled.describes_stop _ r t
      ⟨arow, c.nrows, c.numFields, colNames, t.data, t.dlen, er, errm⟩ hfilled rfl hlt
    have hsound : c.RowsSound ↔ (c.reperr = false → c.numFields = 0) := by
      rw [Call.Unreadable] at hunreadable
      split at hunreadable
      · rename_i refused result hs
        obtain ⟨hprep, ⟨row, hget, hbad⟩, -⟩ := hunreadable
        have hmem := List.mem_of_getElem? hget
        simp only [Call.RowsSound, Call.numFields, hs, hprep, true_implies, List.length_eq_zero_iff]
        constructor
        · intro h hrep
          by_contra hne
          obtain hall | ⟨hrep', -⟩ := h hne
          · exact hbad (hall row hmem).1
          · rw [hrep] at hrep'
            cases hrep'
        · intro h hne
          right
          refine ⟨?_, row, hmem, hbad⟩
          by_contra hrep
          exact hne (h (Bool.not_eq_true _ ▸ hrep))
      · cases hunreadable
    rw [hsound, ← hiff]
    constructor
    · intro h hrep
      exact describes_of_consistent_fail h hrep
    · intro h
      apply consistent_fail h
      intro p hp
      obtain ⟨-, r', rfl, hr'⟩ := fetch_of_fails hexec hkeeps hp
      rw [unreadable_unique hr' hunreadable]

/-- Every return of a query is consistent exactly when a result that cannot be kept meets variables
that describe their array, the description and the names of a result are there, and the rows of a
prepared statement of MariaDB can be read and are not without bytes. -/
theorem consistent_iff (c : Call) (o : Outputs) :
  Consistent c (velySelectTable c o) ↔ c.Sound o
  := by
  rw [velySelectTable, Call.Sound]
  obtain ⟨hexec, hdone⟩ | ⟨hexec, hreported | ⟨p, htold, hfails⟩⟩ := velyExecuteSQL_cases c
  · rw [hdone]
    simp only [hexec, true_implies]
    cases hkeeps : c.keeps with
    | false =>
      have hfails : ∀ p, c.Fails p → p = .store := by
        intro p hp
        cases p with
        | execute => exact absurd hp (not_fails_of_executes hexec).1
        | again => exact absurd hp (not_fails_of_executes hexec).2
        | store => rfl
        | fetch r => exact absurd hp.2.1 (by simp [hkeeps])
      simp only [Bool.not_false, if_true, Bool.false_eq_true, if_false]
      constructor
      · intro h
        cases hrep : c.reperr with
        | true => exact Or.inl rfl
        | false => exact Or.inr (describes_of_consistent_fail h hrep)
      · intro h
        apply consistent_fail _ hfails
        intro hrep
        obtain hrep' | hd := h
        · rw [hrep] at hrep'
          cases hrep'
        · exact hd
    | true =>
      simp only [Bool.not_true, Bool.false_eq_true, if_false, if_true]
      cases hcounts : c.counts with
      | false => simp [Consistent]
      | true =>
        simp only [Bool.not_true, Bool.false_eq_true, if_false, true_and]
        have hrest : ∀ o : Outputs, o.ncol = c.numFields →
            (Consistent c (if c.data = true then c.getData o else .returned { o with nrow := 0 })
              ↔ (c.data = true → c.RowsSound)) := by
          intro o hncol
          cases hdata : c.data with
          | true =>
            simp only [if_true, true_implies]
            apply consistent_getData_iff hexec hkeeps hncol
          | false =>
            simp only [Bool.false_eq_true, if_false, false_implies, iff_true]
            constructor
            · intro r hr
              cases hr
            · intro p hp
              have hwant := (fetch_of_fails hexec hkeeps hp).1
              rw [hdata] at hwant
              cases hwant
        cases hnames : c.names with
        | false =>
          have hthere : c.NamesThere := by
            rw [Call.NamesThere]
            split
            · simp [hnames]
            · trivial
          simp only [Bool.false_eq_true, if_false, hthere, true_and]
          apply hrest
          rfl
        | true =>
          have hiff := isSome_fieldnames hexec hnames
          simp only [if_true, ← hiff]
          cases c.fieldnames.mapM id with
          | none => simp [Consistent]
          | some names =>
            simp only [Option.isSome_some, true_and]
            apply hrest
            rfl
  · rw [hreported]
    simp [Consistent, hexec]
  · rw [htold]
    simp only [hexec, Bool.false_eq_true, false_implies, iff_true]
    constructor
    · intro r hr
      cases hr
    · intro p' hp'
      rw [hfails p' hp']

end Whole

/-- The variables of a program before its query runs. -/
def unset : Outputs := ⟨0, 0, 0, [], [], [], CString.empty, CString.empty⟩

/-- A prepared statement of MariaDB that gives two rows of one column, of which the second cannot be
fetched; errors are told to the program. -/
def secondFails : Call where
  source := .mariadb false
    { columns := [⟨ascii "a", by decide⟩]
      rows := [⟨[some (ascii "x")], true, true, fun _ => true⟩,
        ⟨[some (ascii "y")], true, false, fun _ => true⟩]
      described := true
      kept := true
      rows_length := by decide }
  names := false
  data := true
  isPrep := true
  exitOnError := false
  erract := .okay
  inTransaction := false
  reconnects := true
  refusedAgain := false
  affected := 0
  fault _ := ⟨false, ⟨ascii "2013", by decide⟩, fun _ => ⟨ascii "Cannot fetch row", by decide⟩⟩

/-- Two rows are reported, and nothing is there for the second. -/
theorem not_consistent_secondFails :
  ¬ Consistent secondFails (velySelectTable secondFails unset)
  := by
  intro h
  obtain ⟨bytes, htext, -⟩ := h.1 1 (by decide) 0 (by decide)
  have hnull : some Field.null = some (.text bytes) := htext
  cases hnull

end Select

end Vely
