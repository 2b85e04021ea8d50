import BatchWriter.Strings

/-!
# Rows and pending records

What a transaction does to the validity bitmaps, and how `commit` pairs the pending
records with the columns.

A write call that returns either leaves its column's validity bits alone and queues
nothing, or succeeds, appends `to_insert` bits and queues one record
(`BatchWriter.WriteCall.apply_valid`). So between the calls of a transaction every
column has `initial_rows` or `initial_rows + to_insert` bits, a column has a record
exactly when it has the longer bitmap, and, since `column_mut` refuses a column whose
bitmap has grown, no column has two records once `to_insert ≥ 1`
(`BatchWriter.Writer.Pending`).

That is what `commit` needs: sorted by position, the records meet the columns in
the order of its walk, which completes and merges into each column the record of
its position, whatever order the columns were written in
(`BatchWriter.commit_merges_pending`), as long as `initial_rows + to_insert` stays
within `usize::MAX`. Between transactions every column has one validity bit per row
(`BatchWriter.reachable_rowsOk`).
-/

namespace BatchWriter

/-! ### The validity bits of one call -/

section Resolved

variable {α : Type} {n : Nat} {valid_mask : Option (List UInt8)}
  {wrap : StatValues α → Statistics}
  {body : ColumnData → Option (Except Exit Unit × ColumnData × StatValues α)}
  {col col' : Column} {r : Except Exit Unit} {st : Option Statistics}

/-- A write that returns either left the validity bits alone and queued nothing, or
succeeded, appended the bits of the mask and queued a record. -/
theorem writeResolved_valid (h : writeResolved n valid_mask wrap body col = (r, col', st))
    (hr : returned r = true) :
    (col'.valid = col.valid ∧ st = none) ∨
      (r = .ok () ∧ col'.valid = col.valid ++ validBits valid_mask n ∧ st.isSome) := by
  rcases writeResolved_cases h with ⟨-, rfl, -, -⟩ | ⟨r₀, data, stats, -, hcase⟩
  · simp [returned] at hr
  · rcases hcase with ⟨⟨rfl, -⟩ | ⟨-, rfl⟩, rfl, rfl⟩ | ⟨-, rfl, ⟨-, rfl, rfl⟩ | ⟨rfl, -⟩⟩
    · exact .inl ⟨rfl, rfl⟩
    · simp [returned] at hr
    · exact .inr ⟨rfl, rfl, rfl⟩
    · simp [returned] at hr

end Resolved

/-- **The validity bits of a call that returns**: unchanged with no record, or the
call succeeded, appended the first `to_insert` bits of its mask and queued a record. -/
theorem WriteCall.apply_valid (c : WriteCall) {i n : Nat} {col : Column}
    (hr : returned (c.apply i n col).1 = true) :
    ((c.apply i n col).2.1.valid = col.valid ∧ (c.apply i n col).2.2 = none) ∨
      ((c.apply i n col).1 = .ok () ∧
        (c.apply i n col).2.1.valid = col.valid ++ validBits c.validMask n ∧
        (c.apply i n col).2.2.isSome) := by
  obtain ⟨α, wrap, body, he⟩ := c.apply_eq i n
  rw [he] at hr ⊢
  exact writeResolved_valid rfl hr

/-! ### One call, position by position -/

namespace Writer

variable {w w' : Writer} {c : WriteCall} {r : Except Exit Unit}

/-- **A write call, position by position.** Either it changed nothing, or it resolved
the column at one position (an existing one, or a new one at the end) and changed
only that position, to what its column-level part made of it, queueing that part's
record. -/
theorem write_index (hn : w.batch.NamesOk) (hw : w.write c = (r, w')) :
    (w' = w ∧ r ≠ .ok ()) ∨
    ∃ idx col, (w.batch.columns[idx]? = some col ∨
        (idx = w.batch.columns.length ∧ col = Column.new w.initialRows c.influxType)) ∧
      col.influxType = c.influxType ∧ col.valid.length = w.initialRows ∧
      r = (c.apply w.initialRows w.toInsert col).1 ∧
      (∀ j, w'.batch.columns[j]? =
        if j = idx then some (c.apply w.initialRows w.toInsert col).2.1
        else w.batch.columns[j]?) ∧
      w'.statistics =
        w.statistics ++ (c.apply w.initialRows w.toInsert col).2.2.toList.map (idx, ·) := by
  rw [write_eq] at hw
  rcases writeColumn_cases hn hw with
    ⟨rfl, e, he | he⟩ | ⟨idx, col, w₁, hcol, -, hw₁, hty, hlen, hr, rfl⟩
  · exact .inl ⟨rfl, by simp [he]⟩
  · exact .inl ⟨rfl, by simp [he]⟩
  · rcases hw₁ with rfl | ⟨-, rfl, rfl, rfl⟩
    · have hlt := (List.getElem?_eq_some_iff.mp hcol).1
      refine .inr ⟨idx, col, .inl hcol, hty, hlen, hr, fun j => ?_, rfl⟩
      simp only [setColumn_columns, List.getElem?_set, hlt, if_true]
      by_cases hj : j = idx
      · simp [hj]
      · simp [hj, Ne.symm hj]
    · refine .inr ⟨_, _, .inr ⟨rfl, rfl⟩, hty, hlen, hr, fun j => ?_, by simp⟩
      simp only [setColumn_columns, register_columns, register_initialRows, register_toInsert,
        List.set_append_right _ _ (le_refl _), Nat.sub_self, List.set_cons_zero]
      rcases lt_trichotomy j w.batch.columns.length with hj | rfl | hj
      · simp [List.getElem?_append_left hj, hj.ne]
      · simp
      · simp [List.getElem?_eq_none (show w.batch.columns.length ≤ j by omega),
          List.getElem?_append_right (show w.batch.columns.length ≤ j by omega), hj.ne']
        omega

/-- The column a write resolved is the one its position held, if it held one. -/
theorem eq_of_write_index {idx : Nat} {col x : Column} {ty : InfluxColumnType}
    (hcol : w.batch.columns[idx]? = some col ∨
      (idx = w.batch.columns.length ∧ col = Column.new w.initialRows ty))
    (hx : w.batch.columns[idx]? = some x) : x = col := by
  rcases hcol with h | ⟨rfl, -⟩
  · exact Option.some.inj (hx.symm.trans h)
  · simp at hx

end Writer

/-! ### Between the calls of a transaction -/

/-- What a live writer keeps between its calls: it has not committed, every column has
`initial_rows` or `initial_rows + to_insert` validity bits, a column with the longer
bitmap has a record, every record is for a column with the longer bitmap, and with
`to_insert ≥ 1` no column has two. -/
structure Writer.Pending (w : Writer) : Prop where
  rows : w.initialRows = w.batch.rowCount
  not_success : w.success = false
  valid : ∀ col ∈ w.batch.columns,
    col.valid.length = w.initialRows ∨ col.valid.length = w.initialRows + w.toInsert
  written : ∀ j col, w.batch.columns[j]? = some col → col.valid.length ≠ w.initialRows →
    j ∈ w.statistics.map Prod.fst
  recorded : ∀ p ∈ w.statistics, ∃ col, w.batch.columns[p.1]? = some col ∧
    col.valid.length = w.initialRows + w.toInsert
  nodup : 0 < w.toInsert → (w.statistics.map Prod.fst).Nodup

namespace Writer

variable {w w' : Writer} {c : WriteCall} {r : Except Exit Unit}

theorem pending_new {b : MutableBatch} (n : Nat)
    (hb : ∀ col ∈ b.columns, col.valid.length = b.rowCount) : (Writer.new b n).Pending where
  rows := rfl
  not_success := rfl
  valid col hcol := .inl (hb col hcol)
  written _ col hcol hne := absurd (hb col (List.getElem?_mem hcol)) hne
  recorded p hp := by simp [Writer.new] at hp
  nodup _ := List.nodup_nil

/-- **A write call that returns keeps a writer pending.** -/
theorem pending_write (hn : w.batch.NamesOk) (hp : w.Pending) (hw : w.write c = (r, w'))
    (hr : returned r = true) : w'.Pending := by
  obtain ⟨hi, ht, hs, hrow, -, -⟩ := write_frame hn hw
  rcases write_index hn hw with ⟨rfl, -⟩ | ⟨idx, col, hcol, -, hlen, rfl, hget, hstats⟩
  · exact hp
  have hv := c.apply_valid hr
  have hlen' : (c.apply w.initialRows w.toInsert col).2.1.valid.length = w.initialRows ∨
      (c.apply w.initialRows w.toInsert col).2.1.valid.length = w.initialRows + w.toInsert := by
    rcases hv with ⟨h, -⟩ | ⟨-, h, -⟩ <;> simp [h, hlen]
  refine ⟨by rw [hi, hrow]; exact hp.rows, by rw [hs]; exact hp.not_success, ?_, ?_, ?_, ?_⟩
  · intro x hx
    obtain ⟨j, hj⟩ := List.mem_iff_getElem?.mp hx
    rw [hget] at hj
    rw [hi, ht]
    split_ifs at hj
    · cases hj
      exact hlen'
    · exact hp.valid x (List.getElem?_mem hj)
  · intro j x hx hne
    rw [hget] at hx
    rw [hi] at hne
    rw [hstats, List.map_append, List.mem_append]
    split_ifs at hx with hji
    · cases hx
      rcases hv with ⟨h, -⟩ | ⟨-, -, hsome⟩
      · exact absurd (by rw [h, hlen]) hne
      · obtain ⟨rec, hrec⟩ := Option.isSome_iff_exists.mp hsome
        exact .inr (by simp [hrec, hji])
    · exact .inl (hp.written j x hx hne)
  · intro p hp'
    rw [hstats, List.mem_append] at hp'
    rw [hi, ht]
    rcases hp' with hp' | hp'
    · obtain ⟨x, hx, hxl⟩ := hp.recorded p hp'
      by_cases hpi : p.1 = idx
      · obtain rfl := eq_of_write_index hcol (hpi ▸ hx)
        refine ⟨_, by rw [hget, if_pos hpi], ?_⟩
        rcases hlen' with h | h <;> omega
      · exact ⟨x, by rw [hget, if_neg hpi, hx], hxl⟩
    · obtain ⟨rec, hrec, rfl⟩ := List.mem_map.mp hp'
      rcases hv with ⟨-, h⟩ | ⟨-, h, -⟩
      · simp [h] at hrec
      · exact ⟨_, by rw [hget, if_pos rfl], by simp [h, hlen]⟩
  · intro hpos
    rw [ht] at hpos
    rw [hstats, List.map_append, List.nodup_append]
    refine ⟨hp.nodup hpos, ?_, fun a ha hb => ?_⟩
    · cases (c.apply w.initialRows w.toInsert col).2.2 <;> simp
    · obtain ⟨p, hp', rfl⟩ := List.mem_map.mp ha
      have hpi : p.1 = idx := (by simpa using hb : _ ∧ p.1 = idx).2
      obtain ⟨x, hx, hxl⟩ := hp.recorded p hp'
      rw [hpi] at hx
      rw [eq_of_write_index hcol hx, hlen] at hxl
      omega

end Writer

/-! ### Runs -/

/-- The row invariant of a state: between transactions, one validity bit per row in
every column; a live writer is pending. -/
def Sys.RowsOk : Sys → Prop
  | .idle b => ∀ col ∈ b.columns, col.valid.length = b.rowCount
  | .busy w => w.Pending

/-- Every step keeps the row invariant, on a state of the right shape. -/
theorem Step.rowsOk {s t : Sys} (h : Step s t) (hshape : s.ShapeOk) (hs : s.RowsOk) :
    t.RowsOk := by
  cases h with
  | new b n => exact Writer.pending_new n hs
  | write c hw hr => exact Writer.pending_write hshape.1 hs hw hr
  | commit hw =>
    obtain ⟨hc, -, hrow⟩ := Writer.commit_eq_ok hw
    show ∀ col ∈ _, _ = _
    rw [hrow]
    exact commitColumns_ok_valid (Nat.le_add_right _ _) hc
  | drop w =>
    show ∀ col ∈ w.drop.columns, col.valid.length = w.drop.rowCount
    rw [Writer.drop_columns_of_not_success hs.not_success, Writer.drop_rowCount, ← hs.rows]
    intro col hcol
    obtain ⟨x, hx, rfl⟩ := List.mem_map.mp hcol
    have := hs.valid x hx
    simp only [Column.valid_truncate, List.length_take]
    omega

theorem reachable_rowsOk {s : Sys} (h : Reachable s) : s.RowsOk := by
  induction h with
  | refl => exact fun _ h => by cases h
  | tail hr hstep ih => exact hstep.rowsOk (reachable_shapeOk hr) ih

/-! ### What `commit` merges -/

/-- Records with distinct positions, sorted by position, are strictly increasing. -/
theorem pairwise_insertionSort_lt {recs : List (Nat × Statistics)}
    (h : (recs.map Prod.fst).Nodup) :
    (recs.insertionSort fun a b => a.1 ≤ b.1).Pairwise fun a b => a.1 < b.1 := by
  have hs := @List.sorted_insertionSort _ (fun a b : Nat × Statistics => a.1 ≤ b.1) _
    ⟨fun a b => le_total a.1 b.1⟩ ⟨fun _ _ _ => le_trans⟩ recs
  have hn := ((List.perm_insertionSort (fun a b : Nat × Statistics => a.1 ≤ b.1) recs).map
    Prod.fst).nodup_iff.mpr h
  rw [List.Nodup, List.pairwise_map] at hn
  exact (hs.and hn).imp fun h => lt_of_le_of_ne h.1 h.2

/-- What `commit` does to a pending writer whose records fit, with `to_insert ≥ 1` and
`initial_rows + to_insert` within `usize::MAX`: it completes, keeps the number of columns,
and leaves at each position what `BatchWriter.commitColumn` makes of the column there; a
column has no record exactly when it kept `initial_rows` validity bits. -/
theorem Writer.commit_of_pending {w : Writer} (hp : w.Pending) (hf : w.RecordsFit)
    (hn : 0 < w.toInsert) (hb : w.initialRows + w.toInsert ≤ usizeMax) :
    ∃ w', w.commit = (.ok (), w') ∧ w'.batch.columns.length = w.batch.columns.length ∧
      ∀ j col, w.batch.columns[j]? = some col →
        (w.statistics.lookup j = none ↔ col.valid.length = w.initialRows) ∧
        commitColumn (w.initialRows + w.toInsert) w.statistics j col = w'.batch.columns[j]? := by
  have hnd := hp.nodup hn
  have hlook := lookup_eq_of_perm (List.perm_insertionSort (fun a b => a.1 ≤ b.1) w.statistics) hnd
  have hnone : ∀ j col, w.batch.columns[j]? = some col →
      (w.statistics.lookup j = none ↔ col.valid.length = w.initialRows) := by
    intro j col hcol
    refine ⟨fun h => by_contra fun hne => ?_, fun h => lookup_eq_none_iff_not_mem.mpr ?_⟩
    · exact lookup_eq_none_iff_not_mem.mp h (hp.written j col hcol hne)
    · intro hj
      obtain ⟨p, hp', rfl⟩ := List.mem_map.mp hj
      obtain ⟨x, hx, hxl⟩ := hp.recorded p hp'
      rw [hcol] at hx
      cases hx
      omega
  have hready : WalkReady w.initialRows (w.initialRows + w.toInsert) 0 w.batch.columns
      (w.statistics.insertionSort fun a b => a.1 ≤ b.1) := by
    intro k col hcol
    rw [Nat.zero_add, hlook]
    by_cases hk : col.valid.length = w.initialRows
    · exact .inl ⟨hk, (hnone k col hcol).mpr hk⟩
    · obtain ⟨rec, hrec⟩ := Option.ne_none_iff_exists'.mp (mt (hnone k col hcol).mp hk)
      obtain ⟨x, hx, hfit⟩ := hf (k, rec) (mem_of_lookup_eq_some hrec)
      rw [hcol] at hx
      cases hx
      exact .inr ⟨(hp.valid col (List.getElem?_mem hcol)).resolve_left hk, rec, hrec, hfit⟩
  obtain ⟨cols', hc, hlen, hk⟩ := commitColumns_eq_ok (by omega) (pairwise_insertionSort_lt hnd)
    (fun _ _ => Nat.zero_le _) hready
  have hcommit : w.commit = (.ok (),
      { w with batch := { w.batch with columns := cols', rowCount := w.initialRows + w.toInsert },
               success := true }) := by
    simp only [Writer.commit_of_le hb, Writer.commitRows, hc]
  refine ⟨_, hcommit, hlen, fun j col hcol => ⟨hnone j col hcol, ?_⟩⟩
  rw [← hk j col hcol, Nat.zero_add, commitColumn, commitColumn, hlook]

end BatchWriter
