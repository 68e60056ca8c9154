import Vely.Db.Select

/-!
# Filling the arrays of a query

The loop over the rows keeps the rows before the current one in their places, and no string behind
them. What it puts there depends on the driver: only the rows of a prepared statement of MariaDB can
fail to be read, or be read without bytes that last.
-/

namespace Vely

namespace Select

section Fill

/-- Entries that are set one after the other. -/
theorem getElem?_foldl_set {α : Type} (l : List α) (base : Nat) (f : Nat → α) (m k : Nat) :
  ((List.range m).foldl (fun l i => l.set (base + i) (f i)) l)[k]?
    = if base ≤ k ∧ k < base + m ∧ k < l.length then some (f (k - base)) else l[k]?
  := by
  induction m with
  | zero => rw [if_neg (by omega)]; rfl
  | succ m ih =>
    have hlength : ∀ m, ((List.range m).foldl (fun l i => l.set (base + i) (f i)) l).length
        = l.length := by
      intro m
      induction m with
      | zero => rfl
      | succ m ih => simp [List.range_succ, ih]
    rw [List.range_succ, List.foldl_append, List.foldl_cons, List.foldl_nil, List.getElem?_set, ih,
      hlength]
    by_cases hk : base + m = k
    · rw [if_pos hk]
      by_cases hl : base + m < l.length
      · rw [if_pos hl, if_pos (by omega), ← hk, Nat.add_sub_cancel_left]
      · rw [if_neg hl, if_neg (by omega), List.getElem?_eq_none (by omega)]
    · rw [if_neg hk]
      by_cases hin : base ≤ k ∧ k < base + m ∧ k < l.length
      · rw [if_pos hin, if_pos (by omega)]
      · rw [if_neg hin, if_neg (by omega)]

variable {n r : Nat} {row : Row} {t : Table}

/-- The data after a row is put in its place. -/
theorem data_fill :
  (t.fill n r row).data
    = (List.range n).foldl (fun l i => l.set (r * n + i) (row.entry i).1) t.data
  := by
  have h : ∀ m, ((List.range m).foldl (Table.put n r row) t).data
      = (List.range m).foldl (fun l i => l.set (r * n + i) (row.entry i).1) t.data := by
    intro m
    induction m with
    | zero => rfl
    | succ m ih => simp [List.range_succ, ih, Table.put]
  apply h

/-- The lengths after a row is put in its place. -/
theorem dlen_fill :
  (t.fill n r row).dlen
    = (List.range n).foldl (fun l i => l.set (r * n + i) (some (row.entry i).2)) t.dlen
  := by
  have h : ∀ m, ((List.range m).foldl (Table.put n r row) t).dlen
      = (List.range m).foldl (fun l i => l.set (r * n + i) (some (row.entry i).2)) t.dlen := by
    intro m
    induction m with
    | zero => rfl
    | succ m ih => simp [List.range_succ, ih, Table.put]
  apply h

/-- There is still room for as many rows. -/
theorem queryBatch_fill :
  (t.fill n r row).queryBatch = t.queryBatch
  := by
  have h : ∀ m, ((List.range m).foldl (Table.put n r row) t).queryBatch = t.queryBatch := by
    intro m
    induction m with
    | zero => rfl
    | succ m ih => simp [List.range_succ, ih, Table.put]
  apply h

end Fill

section Loop

/-- The result after `r` rows of it are read. -/
def Open.after (rows : Open) : Nat → Open
  | 0 => rows
  | r + 1 => ((rows.after r).fetch r).2

/-- What the reading of the row `r` gives. -/
def Open.row (rows : Open) (r : Nat) : Option Row := ((rows.after r).fetch r).1

/-- The rows before `r` are in the arrays, and behind them there is no string. -/
structure Filled (rows : Open) (n r : Nat) (t : Table) : Prop where
  data_length : t.data.length = t.queryBatch * n
  dlen_length : t.dlen.length = t.queryBatch * n
  room : r ≤ t.queryBatch
  entries : ∀ r' < r, ∃ row, rows.row r' = some row ∧ ∀ i < n,
    t.data[r' * n + i]? = some (row.entry i).1 ∧ t.dlen[r' * n + i]? = some (some (row.entry i).2)
  rest : ∀ k, r * n ≤ k → ∀ bytes, t.data[k]? ≠ some (.text bytes)

variable {rows : Open} {n r : Nat} {t : Table}

/-- Nothing is in the arrays as they are allocated. -/
theorem filled_calloc (rows : Open) (n : Nat) :
  Filled rows n 0 (Table.calloc n)
  := by
  constructor
  · apply List.length_replicate
  · apply List.length_replicate
  · apply Nat.zero_le
  · intro r' hr'
    omega
  · intro k _ bytes h
    have hmem := List.mem_of_getElem? h
    cases List.eq_of_mem_replicate hmem

/-- The arrays grow before the next row is put in them. -/
theorem Filled.grow (h : Filled rows n r t) :
  Filled rows n r (t.room n r) ∧ r < (t.room n r).queryBatch
  := by
  rw [Table.room]
  split
  · rename_i hfull
    have hr : r = t.queryBatch := Nat.le_antisymm h.room hfull
    constructor
    · constructor
      · simp only [List.length_append, List.length_replicate, h.data_length, Nat.add_mul]
      · simp only [List.length_append, List.length_replicate, h.dlen_length, Nat.add_mul]
      · apply Nat.le_trans h.room
        apply Nat.le_add_right
      · intro r' hr'
        obtain ⟨row, hrow, hentries⟩ := h.entries r' hr'
        refine ⟨row, hrow, ?_⟩
        intro i hi
        obtain ⟨hdata, hdlen⟩ := hentries i hi
        constructor
        · rw [List.getElem?_append_left (List.getElem?_eq_some_iff.mp hdata).1, hdata]
        · rw [List.getElem?_append_left (List.getElem?_eq_some_iff.mp hdlen).1, hdlen]
      · intro k hk bytes htext
        rw [List.getElem?_append_right (by rw [h.data_length, ← hr]; exact hk)] at htext
        have hmem := List.mem_of_getElem? htext
        cases List.eq_of_mem_replicate hmem
    · show r < t.queryBatch + initialQueryBatch
      rw [← hr, initialQueryBatch]
      omega
  · rename_i hroom
    exact ⟨h, Nat.lt_of_not_le hroom⟩

/-- A row that is read is put behind those before it. -/
theorem Filled.next (h : Filled rows n r t) {row : Row} (hrow : rows.row r = some row) :
  Filled rows n (r + 1) ((t.room n r).fill n r row)
  := by
  obtain ⟨hgrow, hlt⟩ := h.grow
  generalize t.room n r = t' at hgrow hlt
  have hbelow : (r + 1) * n ≤ t'.queryBatch * n := Nat.mul_le_mul_right n hlt
  have hend : (r + 1) * n = r * n + n := Nat.succ_mul r n
  have hlength : ∀ {α : Type} (l : List α) (f : Nat → α),
      ((List.range n).foldl (fun l i => l.set (r * n + i) (f i)) l).length = l.length := by
    intro α l f
    induction List.range n generalizing l with
    | nil => rfl
    | cons i is ih => rw [List.foldl_cons, ih, List.length_set]
  constructor
  · rw [data_fill, hlength, queryBatch_fill, hgrow.data_length]
  · rw [dlen_fill, hlength, queryBatch_fill, hgrow.dlen_length]
  · rw [queryBatch_fill]
    exact hlt
  · intro r' hr'
    rw [data_fill, dlen_fill]
    by_cases heq : r' = r
    · subst heq
      refine ⟨row, hrow, ?_⟩
      intro i hi
      have hdata : r' * n + i < t'.data.length := by rw [hgrow.data_length]; omega
      have hdlen : r' * n + i < t'.dlen.length := by rw [hgrow.dlen_length]; omega
      rw [getElem?_foldl_set, getElem?_foldl_set, if_pos ⟨by omega, by omega, hdata⟩,
        if_pos ⟨by omega, by omega, hdlen⟩, Nat.add_sub_cancel_left]
      exact ⟨rfl, rfl⟩
    · obtain ⟨row', hrow', hentries⟩ := hgrow.entries r' (by omega)
      refine ⟨row', hrow', ?_⟩
      intro i hi
      have hbefore : (r' + 1) * n ≤ r * n := Nat.mul_le_mul_right n (by omega)
      have hend' : (r' + 1) * n = r' * n + n := Nat.succ_mul r' n
      rw [getElem?_foldl_set, getElem?_foldl_set, if_neg (by omega), if_neg (by omega)]
      apply hentries i hi
  · intro k hk bytes
    rw [data_fill, getElem?_foldl_set, if_neg (by omega)]
    apply hgrow.rest
    omega

/-- The loop fills the arrays with all rows, or up to one that cannot be read. -/
theorem readRows_filled {m : Nat} (h : Filled rows n r t) :
  ((readRows n m r (rows.after r) t).1 = none ∧
      Filled rows n (r + m) (readRows n m r (rows.after r) t).2) ∨
    ∃ r', (readRows n m r (rows.after r) t).1 = some r' ∧ r' < r + m ∧ rows.row r' = none ∧
      Filled rows n r' (readRows n m r (rows.after r) t).2
  := by
  induction m generalizing r t with
  | zero => exact Or.inl ⟨rfl, h⟩
  | succ m ih =>
    have hafter : rows.after (r + 1) = ((rows.after r).fetch r).2 := rfl
    have hat : rows.row r = ((rows.after r).fetch r).1 := rfl
    rw [readRows]
    cases hfetch : (rows.after r).fetch r with
    | mk fetched rest =>
      rw [hfetch] at hafter hat
      cases fetched with
      | none => exact Or.inr ⟨r, rfl, by omega, hat, h⟩
      | some row =>
        obtain ⟨hnone, hfilled⟩ | ⟨r', hbad, hlt, hrow, hfilled⟩ := ih (h.next hat)
        · rw [hafter] at hnone hfilled
          refine Or.inl ⟨hnone, ?_⟩
          rw [← Nat.add_assoc, Nat.add_right_comm]
          exact hfilled
        · rw [hafter] at hbad hfilled
          exact Or.inr ⟨r', hbad, by omega, hrow, hfilled⟩

end Loop

section Entries

/-- What is put in the data for a column is a string, with its length. -/
def Row.Given (row : Row) (i : Nat) : Prop :=
  ∃ bytes, row.entry i = (.text bytes, bytes.length)

variable {rows : Open} {n r : Nat} {t : Table} {o : Outputs}

/-- The counts describe the arrays that hold all rows when each of their columns is a string. -/
theorem Filled.describes_iff (h : Filled rows o.ncol o.nrow t) (hdata : o.data = t.data)
    (hdlen : o.dlen = t.dlen) :
  Describes o ↔ ∀ r < o.nrow, ∀ row, rows.row r = some row → ∀ i < o.ncol, row.Given i
  := by
  constructor
  · intro hd r hr row hrow i hi
    obtain ⟨bytes, htext, hlen⟩ := hd r hr i hi
    obtain ⟨row', hrow', hentries⟩ := h.entries r hr
    rw [hrow] at hrow'
    obtain rfl := Option.some.inj hrow'
    obtain ⟨hfst, hsnd⟩ := hentries i hi
    rw [hdata, hfst] at htext
    rw [hdlen, hsnd] at hlen
    use bytes
    apply Prod.ext
    · exact Option.some.inj htext
    · exact Option.some.inj (Option.some.inj hlen)
  · intro hgiven r hr i hi
    obtain ⟨row, hrow, hentries⟩ := h.entries r hr
    obtain ⟨hfst, hsnd⟩ := hentries i hi
    obtain ⟨bytes, hentry⟩ := hgiven r hr row hrow i hi
    use bytes
    rw [hdata, hdlen, hfst, hsnd, hentry]
    exact ⟨rfl, rfl⟩

/-- The counts do not describe arrays that hold fewer rows, unless there are no columns. -/
theorem Filled.describes_stop (h : Filled rows o.ncol r t) (hdata : o.data = t.data)
    (hr : r < o.nrow) :
  Describes o ↔ o.ncol = 0
  := by
  constructor
  · intro hd
    by_contra hne
    obtain ⟨bytes, htext, -⟩ := hd r hr 0 (Nat.pos_of_ne_zero hne)
    rw [hdata] at htext
    exact h.rest _ (Nat.le_add_right _ _) bytes htext
  · intro hzero r' _ i hi
    omega

/-- A column of which the bytes and their count are given. -/
theorem given_of_text {row : Row} {i : Nat} {bytes : List UInt8}
    (hfield : row.fields[i]? = some (.text bytes)) (hlen : row.lens[i]? = some bytes.length) :
  row.Given i
  := by
  use bytes
  simp only [Row.entry, List.getD_eq_getElem?_getD, hfield, hlen, Option.getD_some, List.take_length]

/-- The rows of a result of MariaDB that are left after some were read. -/
theorem after_mariadb (isPrep : Bool) (rows : List MariaRow) (r : Nat) :
  (Open.mariadb isPrep rows).after r = .mariadb isPrep (rows.drop r)
  := by
  induction r with
  | zero => rfl
  | succ r ih =>
    rw [Open.after, ih, ← List.tail_drop]
    cases rows.drop r with
    | nil => rfl
    | cons row rows => rfl

/-- A row of a result of MariaDB. -/
theorem row_mariadb (isPrep : Bool) (rows : List MariaRow) (r : Nat) :
  (Open.mariadb isPrep rows).row r = rows[r]?.bind (velyMariaRows isPrep)
  := by
  rw [Open.row, after_mariadb, ← List.head?_drop]
  cases rows.drop r with
  | nil => rfl
  | cons row rows => rfl

/-- A row of a result of PostgreSQL. -/
theorem row_postgres (rows : List (List (Option (List UInt8)))) (r : Nat) :
  (Open.postgres rows).row r = rows[r]?.map velyPgRows
  := by
  have hafter : (Open.postgres rows).after r = .postgres rows := by
    induction r with
    | zero => rfl
    | succ r ih => rw [Open.after, ih]; rfl
  rw [Open.row, hafter]
  rfl

/-- What SQLite keeps after some rows were read. -/
theorem after_sqlite (s : Lite) (r : Nat) (h : s.qrows.isSome = true) :
  (Open.sqlite s).after r = .sqlite { s with qrownow := s.qrownow + r }
  := by
  obtain ⟨qrows, hq⟩ := Option.isSome_iff_exists.mp h
  induction r with
  | zero => rfl
  | succ r ih =>
    rw [Open.after, ih]
    simp only [Open.fetch, velyLiteRows, Lite.velyLiteRows, hq]
    rfl

/-- A part of a list of lists of one length. -/
theorem take_drop_flatten {α : Type} {l : List (List α)} {n r : Nat} (hl : ∀ x ∈ l, x.length = n)
    (hr : r < l.length) :
  (l.flatten.drop (n * r)).take n = l[r]
  := by
  induction l generalizing r with
  | nil => cases hr
  | cons x l ih =>
    have hx : x.length = n := hl x List.mem_cons_self
    cases r with
    | zero =>
      rw [Nat.mul_zero, List.drop_zero, List.flatten_cons, ← hx, List.take_left]
      rfl
    | succ r =>
      rw [Nat.mul_succ, Nat.add_comm, ← List.drop_drop, List.flatten_cons, ← hx, List.drop_left, hx]
      apply ih
      · intro y hy
        apply hl y (List.mem_cons_of_mem _ hy)

/-- Every row that SQLite counts can be read, and its columns are strings. -/
theorem row_sqlite {stmt : LiteStmt} {s : Lite} (h : (Lite.velyLiteExec (some stmt) s).1 = true)
    (hr : r < (lite (some stmt) s).qnumrows) :
  ∃ row, (Open.sqlite (lite (some stmt) s)).row r = some row ∧
    ∀ i < (lite (some stmt) s).qnumfields, row.Given i
  := by
  have hok := @Lite.getRows_ok stmt { s with qrows := none, qnumrows := 0 } stmt.rows
  have hcount := @Lite.getRows_qnumfields stmt { s with qrows := none, qnumrows := 0 } stmt.rows rfl
  simp only [lite, Lite.velyLiteExec, Lite.velyLiteGetData] at h hr ⊢
  generalize Lite.getRows stmt stmt.rows { s with qrows := none, qnumrows := 0 } = x
    at h hr hok hcount ⊢
  obtain ⟨ok, s'⟩ := x
  cases ok with
  | false => cases h
  | true =>
    obtain ⟨-, -, hnum, data, hdata, hq⟩ := hok rfl
    simp only at hnum hcount hq hr ⊢
    have hlength : data.length = stmt.rows.length := hdata.length_eq.symm
    have hlt : r < data.length := by omega
    have hne : stmt.rows ≠ [] := by
      intro hnil
      rw [hnil] at hlength
      rw [hlength] at hlt
      exact Nat.not_lt_zero _ hlt
    rw [if_neg hne] at hcount
    have hrows : ∀ x ∈ data, x.length = s'.qnumfields := by
      intro x hx
      obtain ⟨i, hi, rfl⟩ := List.getElem_of_mem hx
      have hcells := hdata.get (hlength ▸ hi) hi
      simp only [List.get_eq_getElem] at hcells
      rw [← hcells.length_eq, hcount]
      apply stmt.rows_length
      apply List.getElem_mem
    refine ⟨⟨false, data[r].map .text, data[r].map List.length⟩, ?_, ?_⟩
    · rw [Open.row, after_sqlite _ _ (by rw [hq hne]; rfl)]
      simp only [Open.fetch, velyLiteRows, Lite.velyLiteRows, hq hne, Nat.zero_add, Option.getD_none,
        List.nil_append, take_drop_flatten hrows hlt, Option.map_some]
    · intro i hi
      have hi' : i < data[r].length := by
        rw [hrows _ (List.getElem_mem _)]
        exact hi
      apply @given_of_text _ _ data[r][i]
      · simp [hi']
      · simp [hi']

/-- The columns of a row of PostgreSQL are strings. -/
theorem given_velyPgRows (row : List (Option (List UInt8))) {i : Nat} (hi : i < row.length) :
  (velyPgRows row).Given i
  := by
  apply @given_of_text _ _ (bytesOf row[i])
  · simp [velyPgRows, hi]
  · simp [velyPgRows, hi]

/-- The columns of a row of MariaDB that is copied are strings. -/
theorem given_velyMariaRows (row : MariaRow) {i : Nat} (hi : i < row.fields.length) :
  ∃ row', velyMariaRows false row = some row' ∧ row'.Given i
  := by
  refine ⟨_, rfl, ?_⟩
  cases hf : row.fields[i] with
  | some bytes =>
    apply @given_of_text _ _ bytes
    · simp [hi, hf]
    · simp [hi, hf, bytesOf]
  | none =>
    use []
    simp [Row.entry, hi, hf, bytesOf]

/-- A row of a prepared statement of MariaDB is read when every step of its reading succeeds. -/
theorem velyMariaStmtRows_eq_none (row : MariaRow) :
  velyMariaStmtRows row = none ↔ ¬ row.Readable
  := by
  have hany : (row.fields.any fun f => bytesOf f ≠ []) = true ↔ ∃ f ∈ row.fields, bytesOf f ≠ [] := by
    simp
  have hall : (List.range row.fields.length).all row.column = true
      ↔ ∀ i < row.fields.length, row.column i = true := by simp
  rw [velyMariaStmtRows, MariaRow.Readable, ← hany, ← hall]
  generalize (row.fields.any fun f => bytesOf f ≠ []) = bytes
  generalize (List.range row.fields.length).all row.column = columns
  cases row.bound with
  | false => simp
  | true =>
    cases row.fetched with
    | false => simp
    | true =>
      cases bytes with
      | false => simp
      | true =>
        cases columns with
        | false => simp
        | true => simp

/-- The columns of a row of a prepared statement are strings when one has bytes, and none is when
none has. -/
theorem given_velyMariaStmtRows {row : MariaRow} {row' : Row} (h : velyMariaStmtRows row = some row')
    {i : Nat} (hi : i < row.fields.length) :
  row'.Given i ↔ row.HasBytes
  := by
  have hany : (row.fields.any fun f => bytesOf f ≠ []) = true ↔ row.HasBytes := by
    simp [MariaRow.HasBytes]
  rw [velyMariaStmtRows] at h
  split at h
  · cases h
  split at h
  · cases h
  split at h
  · rename_i hbytes
    split at h
    · obtain rfl := Option.some.inj h
      apply iff_of_true
      · apply @given_of_text _ _ (bytesOf row.fields[i])
        · simp [hi]
        · simp [hi]
      · exact hany.mp hbytes
    · cases h
  · rename_i hbytes
    obtain rfl := Option.some.inj h
    apply iff_of_false
    · rintro ⟨bytes, hentry⟩
      simp [Row.entry, hi] at hentry
    · exact fun hh => hbytes (hany.mpr hh)

end Entries

end Select

end Vely
