import BatchWriter.Cover

/-!
# The statistics of every column account for its rows

Between transactions, the statistics of every column count its rows, count its unset
validity bits as nulls, and cover the value of every set row
(`BatchWriter.reachable_sound`). They have a least and a greatest value exactly when a
row is set, and each of the two is the value of a set row. During a transaction the
account is split in two: a column's own statistics account for its first
`initial_rows` rows, which no typed write touches, and the pending record of its
successful write accounts for the rows that write appended. `commit` merges the two
halves, or pads a column that has no record with nulls, which both halves count the
same way.

Covering is an order fact, so it is claimed for integers, unsigned integers, strings
and the strings of tag columns, and not for floats or booleans. The booleans fail it,
and fail to hold their least and greatest values, for a reason of their own:
`write_bool` grows its store with `append_unset` instead of `resize`, so a write that
failed leaves its `true` bits behind it, and a retry in the same transaction does not
overwrite them with its `false`s. The retry's record then says `max = false` for a row
that holds `true`.
-/

namespace BatchWriter

/-! ### The account of a column -/

/-- The statistics of a column account for its first `R` rows: they count `R` rows,
the unset validity bits among them as nulls, and cover the value of every set row; they
have a least and a greatest value exactly when one of the rows is set, and, but for a
boolean column, each of the two is the value of a set row. -/
structure Column.Sound (R : Nat) (col : Column) : Prop where
  total : col.data.statistics.totalCount = R
  nulls : col.data.statistics.nullCount = (col.valid.take R).count false
  bounds : ∀ r < R, col.valid[r]? = some true → col.data.statistics.Bounds col.data r
  present : col.data.statistics.HasBoundsIff (true ∈ col.valid.take R)
  attained : col.data.storage ≠ .bool → ∀ v, col.data.statistics.Extreme v →
    ∃ r < R, col.valid[r]? = some true ∧ col.data.value? r = some v

/-- A pending record accounts for the rows of the column `x` from row `i` on, as the
statistics of a column account for its first rows. -/
structure Statistics.Sound (i n : Nat) (rec : Statistics) (x : Column) : Prop where
  total : rec.totalCount = n
  nulls : rec.nullCount = (x.valid.drop i).count false
  bounds : ∀ r, i ≤ r → x.valid[r]? = some true → rec.Bounds x.data r
  present : rec.HasBoundsIff (true ∈ x.valid.drop i)
  attained : x.data.storage ≠ .bool → ∀ v, rec.Extreme v →
    ∃ r, i ≤ r ∧ x.valid[r]? = some true ∧ x.data.value? r = some v

namespace Column

variable {i n : Nat} {col col' : Column} {rec : Statistics}

theorem sound_new (n : Nat) (t : InfluxColumnType) : (Column.new n t).Sound n where
  total := by simp
  nulls := by simp [List.count_replicate_self]
  bounds r _ h := by simp [List.getElem?_replicate] at h
  present := by simp [Statistics.HasBoundsIff, List.mem_replicate]
  attained _ v hv := by simp [Statistics.Extreme] at hv

/-- **Padding with nulls extends the account** of a column of `i` rows to the new rows. -/
theorem Sound.pushNullsToLen (h : col.Sound i) (hf : col.Filled) (hv : col.valid.length = i)
    (n : Nat) : (col.pushNullsToLen (i + n)).Sound (i + n) where
  total := by simp [h.total, hv]
  nulls := by
    rw [valid_pushNullsToLen, data_pushNullsToLen, ColumnData.nullCount_statistics_pushNulls,
      h.nulls, hv, Nat.add_sub_cancel_left, List.take_of_length_le hv.le,
      List.take_of_length_le (l := col.valid ++ List.replicate n false) (by simp [hv]),
      List.count_append, List.count_replicate_self]
  bounds r _ hset v hval := by
    have hset' := getElem?_of_append_replicate_false hset
    obtain ⟨v₀, hv₀⟩ := Option.isSome_iff_exists.mp (hf.values r hset')
    rw [data_pushNullsToLen, ColumnData.value?_pushNulls _ hv₀, Option.some.injEq] at hval
    subst hval
    exact (ColumnData.covers_statistics_pushNulls _).mpr
      (h.bounds r (hv ▸ (List.getElem?_eq_some_iff.mp hset').1) hset' _ hv₀)
  present := by
    have e : true ∈ col.valid.take i ↔ true ∈ (col.valid ++ List.replicate n false).take (i + n) := by
      simp [List.take_of_length_le, hv, List.mem_replicate]
    simpa [Statistics.HasBoundsIff, hv, e] using h.present
  attained hs v hext := by
    simp only [data_pushNullsToLen, ColumnData.storage_pushNulls] at hs
    simp only [Statistics.Extreme, data_pushNullsToLen, ColumnData.min?_statistics_pushNulls,
      ColumnData.max?_statistics_pushNulls] at hext
    obtain ⟨r, hr, hset, hval⟩ := h.attained hs v hext
    refine ⟨r, by omega, ?_, ColumnData.value?_pushNulls _ hval⟩
    rw [valid_pushNullsToLen, List.getElem?_append_left (by omega), hset]

/-- **Merging the pending record joins the two halves of the account**: the column's
own for its first `i` rows, the record's for the `n` rows after them. -/
theorem Sound.mergeStatistics (h : col.Sound i) (hr : rec.Sound i n col)
    (hv : col.valid.length = i + n) (hm : col.mergeStatistics rec = some col') :
    col'.Sound (i + n) := by
  obtain ⟨-, hvalid, hsto, -⟩ := mergeStatistics_shape hm
  obtain ⟨ht, hn⟩ := counts_mergeStatistics hm
  have hall : col.valid.take (i + n) = col.valid := List.take_of_length_le hv.le
  refine ⟨by rw [ht, h.total, hr.total], ?_, fun r _ hset v hval => ?_, ?_, fun hs v hext => ?_⟩
  · rw [hn, h.nulls, hr.nulls, hvalid, ← List.count_append, List.take_append_drop, hall]
  · rw [hvalid] at hset
    rw [value?_mergeStatistics hm] at hval
    refine covers_mergeStatistics hm ?_
    rcases Nat.lt_or_ge r i with hri | hri
    · exact .inl (h.bounds r hri hset v hval)
    · exact .inr (hr.bounds r hri hset v hval)
  · refine (hasBoundsIff_mergeStatistics hm h.present hr.present).of_iff ?_
    rw [hvalid, hall, ← List.mem_append, List.take_append_drop]
  · rw [hsto] at hs
    simp only [hvalid, value?_mergeStatistics hm]
    rcases (extremes_mergeStatistics hm).1 v hext with hext | hext
    · obtain ⟨r, hr', hset, hval⟩ := h.attained hs v hext
      exact ⟨r, by omega, hset, hval⟩
    · obtain ⟨r, hr', hset, hval⟩ := hr.attained hs v hext
      exact ⟨r, hv ▸ (List.getElem?_eq_some_iff.mp hset).1, hset, hval⟩

/-- Cutting a column back to `i` rows keeps its account of them. -/
theorem Sound.truncate (h : col.Sound i) : (col.truncate i).Sound i where
  total := by simpa using h.total
  nulls := by simpa [List.take_take] using h.nulls
  bounds r hr hset v hval := by
    rw [valid_truncate, List.getElem?_take, if_pos hr] at hset
    rw [data_truncate, ColumnData.value?_truncate _ hr] at hval
    simpa using h.bounds r hr hset v hval
  present := by simpa [Statistics.HasBoundsIff, List.take_take] using h.present
  attained hs v hext := by
    simp only [data_truncate, ColumnData.storage_truncate] at hs
    simp only [Statistics.Extreme, data_truncate, ColumnData.statistics_truncate] at hext
    obtain ⟨r, hr, hset, hval⟩ := h.attained hs v hext
    refine ⟨r, hr, ?_, ?_⟩
    · rw [valid_truncate, List.getElem?_take, if_pos hr, hset]
    · rw [data_truncate, ColumnData.value?_truncate _ hr, hval]

/-- **A write call keeps the account of the first `i` rows** of the column it works on,
whatever it returns: it keeps their validity bits, their values and the statistics. -/
theorem Sound.apply (h : col.Sound i) (hf : col.Filled) (hv : col.valid.length = i)
    (c : WriteCall) (n : Nat) : (c.apply i n col).2.1.Sound i := by
  obtain ⟨-, hvalid, hdata⟩ : col.Keeps i (c.apply i n col).2.1 := c.apply_keeps
  have htake : (c.apply i n col).2.1.valid.take i = col.valid := by
    rw [List.take_of_length_le hv.le, List.prefix_iff_eq_take, hv] at hvalid
    exact hvalid.symm
  refine ⟨by rw [hdata.statistics, h.total], by rw [hdata.statistics, h.nulls, htake,
    List.take_of_length_le hv.le], fun r hr hset v hval => ?_, ?_, fun hs v hext => ?_⟩
  · rw [← List.getElem?_take_of_lt hr, htake] at hset
    obtain ⟨v₀, hv₀⟩ := Option.isSome_iff_exists.mp (hf.values r hset)
    rw [hdata.value? hr hv₀, Option.some.injEq] at hval
    rw [hdata.statistics, ← hval]
    exact h.bounds r hr hset _ hv₀
  · rw [hdata.statistics]
    exact h.present.of_iff (by rw [htake, List.take_of_length_le hv.le])
  · rw [hdata.storage] at hs
    rw [hdata.statistics] at hext
    obtain ⟨r, hr, hset, hval⟩ := h.attained hs v hext
    exact ⟨r, hr, by rw [← List.getElem?_take_of_lt hr, htake, hset], hdata.value? hr hval⟩

end Column

/-- A record accounts for no rows of a column that has none past row `i`. -/
theorem Statistics.Sound.of_length_le {i n : Nat} {rec : Statistics} {x y : Column}
    (h : rec.Sound i n x) (hx : x.valid.length ≤ i) (hy : y.valid.length ≤ i) : rec.Sound i n y where
  total := h.total
  nulls := by rw [h.nulls, List.drop_eq_nil_of_le hx, List.drop_eq_nil_of_le hy]
  bounds r hr hset := absurd (List.getElem?_eq_some_iff.mp hset).1 (by omega)
  present := h.present.of_iff (by rw [List.drop_eq_nil_of_le hx, List.drop_eq_nil_of_le hy])
  attained _ v hext := by
    have hx' : true ∉ x.valid.drop i := by simp [List.drop_eq_nil_of_le hx]
    rcases hext with hext | hext
    · exact absurd (h.present.1.mp (by simp [hext])) hx'
    · exact absurd (h.present.2.mp (by simp [hext])) hx'

/-- A call that succeeds appended the validity bits of its mask. -/
theorem WriteCall.valid_apply_of_ok (c : WriteCall) {i n : Nat} {col : Column}
    (h : (c.apply i n col).1 = .ok ()) :
    (c.apply i n col).2.1.valid = col.valid ++ validBits c.validMask n := by
  obtain ⟨α, wrap, body, he⟩ := c.apply_eq i n
  rw [he] at h ⊢
  obtain ⟨_, _, -, heq⟩ := writeResolved_eq_ok h
  rw [heq]

/-- **A call that succeeds queues a record that accounts for the rows it appended.** -/
theorem WriteCall.sound_record (c : WriteCall) {i n : Nat} {col : Column}
    (hv : col.valid.length = i) (h : (c.apply i n col).1 = .ok ()) :
    (c.record n).Sound i n (c.apply i n col).2.1 where
  total := ((c.apply_folds i n).2 col h).2.1
  nulls := by
    rw [((c.apply_folds i n).2 col h).2.2, c.valid_apply_of_ok h, List.drop_left' hv]
    have := List.count_true_add_count_false (validBits c.validMask n)
    rw [length_validBits] at this
    omega
  bounds := (c.apply_rows hv h).bounds
  present := (c.extremes_record n).2.of_iff (by
    rw [c.valid_apply_of_ok h, List.drop_left' hv, ← List.count_pos_iff,
      ← (c.apply_rows hv h).length, List.length_pos])
  attained hs v hext := by
    have hsto := (c.apply_shape i n col).2.1.trans (c.storage_of_apply_ok h)
    exact (c.apply_rows hv h).stored (fun hc => hs (by rw [hsto, hc]; rfl)) v
      ((c.extremes_record n).1 v hext)

/-! ### Commit with nothing to insert -/

/-- A walk over columns that all kept `initial_rows` validity bits pads each of them. -/
theorem commitColumns_of_initial {initial_rows final_rows i : Nat} {cols : List Column}
    (recs : List (Nat × Statistics)) (h : ∀ col ∈ cols, col.valid.length = initial_rows) :
    commitColumns initial_rows final_rows i cols recs =
      (.ok (), cols.map (·.pushNullsToLen final_rows)) := by
  induction cols generalizing i with
  | nil => rfl
  | cons col cols ih =>
    rw [List.forall_mem_cons] at h
    simp only [commitColumns, h.1, if_true, ih h.2, List.map_cons]

/-! ### The account of a writer -/

/-- The account of a live writer: every column accounts for its first `initial_rows`
rows, and every pending record for the rows of its column from there on. -/
structure Writer.Sound (w : Writer) : Prop where
  columns : ∀ col ∈ w.batch.columns, col.Sound w.initialRows
  records : ∀ p ∈ w.statistics, ∃ x, w.batch.columns[p.1]? = some x ∧
    p.2.Sound w.initialRows w.toInsert x

namespace Writer

variable {w w' : Writer} {c : WriteCall} {r : Except Exit Unit}

theorem sound_new {b : MutableBatch} (h : ∀ col ∈ b.columns, col.Sound b.rowCount) (n : Nat) :
    (Writer.new b n).Sound :=
  ⟨h, fun p hp => by simp [Writer.new] at hp⟩

/-- **A write call that returns keeps the account of a pending writer.** The column it
resolved keeps the account of its first rows; a record queued before for that column
is one of no rows; and the record it queues accounts for the rows it appended. -/
theorem sound_write (hn : w.batch.NamesOk) (hp : w.Pending)
    (hf : ∀ col ∈ w.batch.columns, col.Filled) (hs : w.Sound) (hw : w.write c = (r, w'))
    (hr : returned r = true) : w'.Sound := by
  obtain ⟨hi, ht, -, -, -, -⟩ := write_frame hn hw
  rcases write_index hn hw with ⟨rfl, -⟩ | ⟨idx, col, hcol, -, hlen, rfl, hget, hstats⟩
  · exact hs
  have hsc : col.Sound w.initialRows ∧ col.Filled := by
    rcases hcol with hcol | ⟨-, rfl⟩
    · exact ⟨hs.columns col (List.getElem?_mem hcol), hf col (List.getElem?_mem hcol)⟩
    · exact ⟨Column.sound_new _ _, Column.filled_new _ _⟩
  have hsc' := hsc.1.apply hsc.2 hlen c w.toInsert
  refine ⟨fun x hx => ?_, fun p hp' => ?_⟩
  · obtain ⟨j, hj⟩ := List.mem_iff_getElem?.mp hx
    rw [hget] at hj
    rw [hi]
    split_ifs at hj
    · cases hj
      exact hsc'
    · exact hs.columns x (List.getElem?_mem hj)
  rw [hstats, List.mem_append] at hp'
  rw [hi, ht]
  rcases hp' with hp' | hp'
  · obtain ⟨x, hx, hxs⟩ := hs.records p hp'
    by_cases hpi : p.1 = idx
    · -- a record queued before for the resolved column: then nothing is inserted
      obtain rfl := eq_of_write_index hcol (hpi ▸ hx)
      obtain ⟨y, hy, hyl⟩ := hp.recorded p hp'
      obtain rfl : y = x := Option.some.inj (hy.symm.trans hx)
      have hlen' : (c.apply w.initialRows w.toInsert y).2.1.valid.length ≤ w.initialRows := by
        rcases c.apply_valid hr with ⟨h, -⟩ | ⟨-, h, -⟩ <;> simp [h] <;> omega
      exact ⟨_, by rw [hget, if_pos hpi], hxs.of_length_le hlen.le hlen'⟩
    · exact ⟨x, by rw [hget, if_neg hpi, hx], hxs⟩
  · obtain ⟨rec, hrec, rfl⟩ := List.mem_map.mp hp'
    rcases c.apply_valid hr with ⟨-, h⟩ | ⟨hok, -⟩
    · simp [h] at hrec
    · rw [((c.apply_folds _ _).2 col hok).1, Option.mem_toList, Option.mem_def,
        Option.some.injEq] at hrec
      exact ⟨_, by rw [hget, if_pos rfl], hrec ▸ c.sound_record hlen hok⟩

/-- With no row to insert, every column of a live writer still has `initial_rows` bits:
`commit` pads them all, to no new row, and reads none of the pending records. -/
theorem commit_of_toInsert_zero (hp : w.Pending) (h0 : w.toInsert = 0)
    (hb : w.initialRows + w.toInsert ≤ usizeMax) :
    w.commit = (.ok (), { w with
      batch := { w.batch with
        columns := w.batch.columns.map (·.pushNullsToLen (w.initialRows + w.toInsert)),
        rowCount := w.initialRows + w.toInsert }
      success := true }) := by
  have hv : ∀ col ∈ w.batch.columns, col.valid.length = w.initialRows := fun col hc => by
    rcases hp.valid col hc with h | h <;> omega
  simp only [commit_of_le hb, commitRows, commitColumns_of_initial _ hv]

/-- **A commit that completes closes the account**: every column of a pending writer
whose records fit accounts for all `initial_rows + to_insert` rows. -/
theorem sound_commit (hp : w.Pending) (hfit : w.RecordsFit)
    (hf : ∀ col ∈ w.batch.columns, col.Filled) (hs : w.Sound) (hw : w.commit = (.ok (), w')) :
    ∀ col ∈ w'.batch.columns, col.Sound w'.batch.rowCount := by
  obtain ⟨hc, -, hrow⟩ := commit_eq_ok hw
  rw [hrow]
  rcases Nat.eq_zero_or_pos w.toInsert with hn | hn
  · -- nothing to insert: every column kept `initial_rows` bits, and is padded
    have hv : ∀ col ∈ w.batch.columns, col.valid.length = w.initialRows := fun col hcol => by
      simpa [hn] using hp.valid col hcol
    rw [commitColumns_of_initial _ hv, Prod.mk.injEq] at hc
    rw [← hc.2]
    intro x hx
    obtain ⟨col, hcol, rfl⟩ := List.mem_map.mp hx
    exact (hs.columns col hcol).pushNullsToLen (hf col hcol) (hv col hcol) _
  · obtain ⟨w₁, hw₁, hlen, hj⟩ := commit_of_pending hp hfit hn (le_usizeMax_of_commit hw)
    obtain rfl : w₁ = w' := (Prod.mk.inj (hw₁.symm.trans hw)).2
    intro x hx
    obtain ⟨j, hx⟩ := List.mem_iff_getElem?.mp hx
    obtain ⟨col, hcol⟩ := Option.isSome_iff_exists.mp (isSome_getElem?_iff.mpr
      (hlen ▸ isSome_getElem?_iff.mp (by rw [hx]; rfl)))
    obtain ⟨hnone, hcommit⟩ := hj j col hcol
    have hsc := hs.columns col (List.getElem?_mem hcol)
    rw [hx, commitColumn] at hcommit
    split at hcommit
    · rename_i rec hrec
      have hv : col.valid.length = w.initialRows + w.toInsert :=
        (hp.valid col (List.getElem?_mem hcol)).resolve_left (fun h => by simp [hnone.mpr h] at hrec)
      obtain ⟨y, hy, hys⟩ := hs.records (j, rec) (mem_of_lookup_eq_some hrec)
      obtain rfl : y = col := Option.some.inj (hy.symm.trans hcol)
      exact hsc.mergeStatistics hys hv hcommit
    · rename_i hrec
      obtain rfl := Option.some.inj hcommit
      exact hsc.pushNullsToLen (hf col (List.getElem?_mem hcol)) (hnone.mp hrec) _

/-- A dropped writer leaves every column accounting for its first `initial_rows` rows. -/
theorem sound_drop (hp : w.Pending) (hs : w.Sound) :
    ∀ col ∈ w.drop.columns, col.Sound w.drop.rowCount := by
  rw [drop_columns_of_not_success hp.not_success, drop_rowCount, ← hp.rows]
  intro x hx
  obtain ⟨col, hcol, rfl⟩ := List.mem_map.mp hx
  exact (hs.columns col hcol).truncate

end Writer

/-! ### Every reachable state -/

/-- The account of a state: between transactions every column accounts for all its
rows; a live writer keeps the split account. -/
def Sys.Sound : Sys → Prop
  | .idle b => ∀ col ∈ b.columns, col.Sound b.rowCount
  | .busy w => w.Sound

/-- Every step keeps the account, on a state of the right shape, rows and values. -/
theorem Step.sound {s t : Sys} (h : Step s t) (hshape : s.ShapeOk) (hrows : s.RowsOk)
    (hfill : s.FilledOk) (hs : s.Sound) : t.Sound := by
  cases h with
  | new b n => exact Writer.sound_new hs n
  | write c hw hr => exact Writer.sound_write hshape.1 hrows hfill hs hw hr
  | commit hw => exact Writer.sound_commit hrows hshape.2.2 hfill hs hw
  | drop w => exact Writer.sound_drop hrows hs

theorem reachable_sound {s : Sys} (h : Reachable s) : s.Sound := by
  induction h with
  | refl => exact fun _ h => by cases h
  | tail hr hstep ih =>
    exact hstep.sound (reachable_shapeOk hr) (reachable_rowsOk hr) (reachable_filled hr) ih

/-- **Between transactions, the statistics of every column count its rows.** In every
state between the transactions of a run from the empty batch, the statistics of each
column count `row_count` rows, and as nulls exactly its unset validity bits. -/
theorem reachable_statistics_counts {b : MutableBatch} (hb : Reachable (.idle b)) :
    ∀ col ∈ b.columns, col.data.statistics.totalCount = b.rowCount ∧
      col.data.statistics.nullCount = col.valid.count false := by
  intro col hcol
  have hs : col.Sound b.rowCount := reachable_sound hb col hcol
  rw [hs.total, hs.nulls, List.take_of_length_le (reachable_rowsOk hb col hcol).le]
  exact ⟨rfl, rfl⟩

/-- The counts after one masked `write_i64` on a fresh batch: rows `0` and `2` of three
are set. -/
theorem reachable_statistics_counts_after_write_i64 :
    let b := ((Writer.new MutableBatch.new 3).write
      (.i64 "x" (some [0b101]) [7, 9])).2.commit.2.batch
    Reachable (.idle b) ∧ ∀ col ∈ b.columns, col.data.statistics.totalCount = b.rowCount ∧
      col.data.statistics.nullCount = col.valid.count false :=
  have h : Reachable (.idle ((Writer.new MutableBatch.new 3).write
      (.i64 "x" (some [0b101]) [7, 9])).2.commit.2.batch) :=
    .tail (.tail (.single (.new _ 3)) (.write (.i64 "x" (some [0b101]) [7, 9]) (Prod.ext rfl rfl)
      (by rfl))) (.commit (Prod.ext rfl rfl))
  ⟨h, reachable_statistics_counts h⟩

/-- **Between transactions, the statistics of every column bound its values.** In every
state between the transactions of a run from the empty batch, every set row of a column
holds a value, and the column's statistics cover it: an integer, an unsigned integer, a
string, or the string a tag row's code decodes to, lies between their least and their
greatest value. -/
theorem reachable_statistics_bounds {b : MutableBatch} (hb : Reachable (.idle b)) :
    ∀ col ∈ b.columns, ∀ r, col.valid[r]? = some true →
      ∃ v, col.data.value? r = some v ∧ col.data.statistics.Covers v := by
  intro col hcol r hset
  have hs : col.Sound b.rowCount := reachable_sound hb col hcol
  have hr : r < b.rowCount :=
    reachable_rowsOk hb col hcol ▸ (List.getElem?_eq_some_iff.mp hset).1
  obtain ⟨v, hv⟩ := Option.isSome_iff_exists.mp ((reachable_filled hb col hcol).values r hset)
  exact ⟨v, hv, hs.bounds r hr hset v hv⟩

/-- The bounds after one masked `write_i64` on a fresh batch. -/
theorem reachable_statistics_bounds_after_write_i64 :
    let b := ((Writer.new MutableBatch.new 3).write
      (.i64 "x" (some [0b101]) [7, 9])).2.commit.2.batch
    Reachable (.idle b) ∧ ∀ col ∈ b.columns, ∀ r, col.valid[r]? = some true →
      ∃ v, col.data.value? r = some v ∧ col.data.statistics.Covers v :=
  have h : Reachable (.idle ((Writer.new MutableBatch.new 3).write
      (.i64 "x" (some [0b101]) [7, 9])).2.commit.2.batch) :=
    .tail (.tail (.single (.new _ 3)) (.write (.i64 "x" (some [0b101]) [7, 9]) (Prod.ext rfl rfl)
      (by rfl))) (.commit (Prod.ext rfl rfl))
  ⟨h, reachable_statistics_bounds h⟩

/-- **Between transactions, the statistics of a column have a least and a greatest value
exactly when one of its rows is set.** In every state between the transactions of a run
from the empty batch, for a column of any type. -/
theorem reachable_statistics_present {b : MutableBatch} (hb : Reachable (.idle b)) :
    ∀ col ∈ b.columns, (col.data.statistics.min?.isSome ↔ true ∈ col.valid) ∧
      (col.data.statistics.max?.isSome ↔ true ∈ col.valid) := by
  intro col hcol
  have hs : col.Sound b.rowCount := reachable_sound hb col hcol
  exact hs.present.of_iff (by rw [List.take_of_length_le (reachable_rowsOk hb col hcol).le])

/-- The statistics after one masked `write_i64` on a fresh batch. -/
theorem reachable_statistics_present_after_write_i64 :
    let b := ((Writer.new MutableBatch.new 3).write
      (.i64 "x" (some [0b101]) [7, 9])).2.commit.2.batch
    Reachable (.idle b) ∧ ∀ col ∈ b.columns, (col.data.statistics.min?.isSome ↔ true ∈ col.valid) ∧
      (col.data.statistics.max?.isSome ↔ true ∈ col.valid) :=
  have h : Reachable (.idle ((Writer.new MutableBatch.new 3).write
      (.i64 "x" (some [0b101]) [7, 9])).2.commit.2.batch) :=
    .tail (.tail (.single (.new _ 3)) (.write (.i64 "x" (some [0b101]) [7, 9]) (Prod.ext rfl rfl)
      (by rfl))) (.commit (Prod.ext rfl rfl))
  ⟨h, reachable_statistics_present h⟩

/-- **Between transactions, the least and the greatest value in the statistics of a
column are values of its rows.** In every state between the transactions of a run from
the empty batch, each of the two is the value of a set row of the column: a float, an
integer, an unsigned integer, a string, or the string a tag row's code decodes to. A
boolean column is left out, for the reason the example below shows. -/
theorem reachable_statistics_attained {b : MutableBatch} (hb : Reachable (.idle b)) :
    ∀ col ∈ b.columns, col.data.storage ≠ .bool → ∀ v,
      col.data.statistics.min? = some v ∨ col.data.statistics.max? = some v →
        ∃ r, col.valid[r]? = some true ∧ col.data.value? r = some v := by
  intro col hcol hbool v hv
  obtain ⟨r, -, hr⟩ := (reachable_sound hb col hcol : col.Sound b.rowCount).attained hbool v hv
  exact ⟨r, hr⟩

/-- The least and greatest values after a masked `write_tag` that follows a failed one
on a fresh batch. -/
theorem reachable_statistics_attained_after_retry :
    let b := (((Writer.new MutableBatch.new 3).write (.tag "t" none ["a"])).2.write
      (.tag "t" (some [0b110]) ["c", "b"])).2.commit.2.batch
    Reachable (.idle b) ∧ ∀ col ∈ b.columns, col.data.storage ≠ .bool → ∀ v,
      col.data.statistics.min? = some v ∨ col.data.statistics.max? = some v →
        ∃ r, col.valid[r]? = some true ∧ col.data.value? r = some v :=
  have h : Reachable (.idle (((Writer.new MutableBatch.new 3).write (.tag "t" none ["a"])).2.write
      (.tag "t" (some [0b110]) ["c", "b"])).2.commit.2.batch) :=
    .tail (.tail (.tail (.single (.new _ 3)) (.write (.tag "t" none ["a"]) (Prod.ext rfl rfl)
      (by rfl))) (.write (.tag "t" (some [0b110]) ["c", "b"]) (Prod.ext rfl rfl) (by rfl)))
      (.commit (Prod.ext rfl rfl))
  ⟨h, reachable_statistics_attained h⟩

/-- Why booleans are left out: a `write_bool` of one `true` over two rows
fails after setting its bit, the retry sets only row `0`, to `false`, and succeeds.
After the commit row `0` is set and holds `true`, row `1` is null, and the column's
statistics say `min = max = false`: they bound no value of a set row, and no set row
holds either of them. -/
example :
    let b := (((Writer.new MutableBatch.new 2).write (.bool "b" none [true])).2.write
      (.bool "b" (some [0b01]) [false])).2.commit.2.batch
    Reachable (.idle b) ∧
      b.columns.map (fun col => (col.valid, col.data.value? 0, col.data.statistics.min?,
        col.data.statistics.max?)) =
        [([true, false], some (.inr (.inr (.inr (.inr true)))),
          some (.inr (.inr (.inr (.inr false)))), some (.inr (.inr (.inr (.inr false)))))] :=
  ⟨.tail (.tail (.tail (.single (.new _ 2)) (.write (.bool "b" none [true]) (Prod.ext rfl rfl)
    (by rfl))) (.write (.bool "b" (some [0b01]) [false]) (Prod.ext rfl rfl) (by rfl)))
    (.commit (Prod.ext rfl rfl)), rfl⟩

/-- **Between the calls of a transaction, every pending record is exact.** In every state
of a run from the empty batch that has a writer on it, every pending record is for a
column of the batch, counts `to_insert` rows, counts as nulls exactly the unset validity
bits its column appended, and covers the value of every row its column appended and
set. -/
theorem reachable_pending_records {w : Writer} (hw : Reachable (.busy w)) :
    ∀ p ∈ w.statistics, ∃ x, w.batch.columns[p.1]? = some x ∧ p.2.totalCount = w.toInsert ∧
      p.2.nullCount = (x.valid.drop w.initialRows).count false ∧
      ∀ r, w.initialRows ≤ r → x.valid[r]? = some true →
        ∀ v, x.data.value? r = some v → p.2.Covers v := by
  intro p hp
  obtain ⟨x, hx, hs⟩ := (reachable_sound hw : w.Sound).records p hp
  exact ⟨x, hx, hs.total, hs.nulls, hs.bounds⟩

/-- The record of a masked `write_i64` that follows a failed one on a fresh batch. -/
theorem reachable_pending_records_after_retry :
    let w := (((Writer.new MutableBatch.new 3).write (.i64 "x" none [1])).2.write
      (.i64 "x" (some [0b101]) [7, 9])).2
    Reachable (.busy w) ∧
      ∀ p ∈ w.statistics, ∃ x, w.batch.columns[p.1]? = some x ∧ p.2.totalCount = w.toInsert ∧
        p.2.nullCount = (x.valid.drop w.initialRows).count false ∧
        ∀ r, w.initialRows ≤ r → x.valid[r]? = some true →
          ∀ v, x.data.value? r = some v → p.2.Covers v :=
  have h : Reachable (.busy (((Writer.new MutableBatch.new 3).write (.i64 "x" none [1])).2.write
      (.i64 "x" (some [0b101]) [7, 9])).2) :=
    .tail (.tail (.single (.new _ 3)) (.write (.i64 "x" none [1]) (Prod.ext rfl rfl) (by rfl)))
      (.write (.i64 "x" (some [0b101]) [7, 9]) (Prod.ext rfl rfl) (by rfl))
  ⟨h, reachable_pending_records h⟩

/-- A live writer of a run commits once its row sum is within `usize::MAX`, whatever the
number of rows to insert and whichever calls failed before. -/
theorem Writer.commit_ok_of_reachable {w : Writer} (hw : Reachable (.busy w))
    (hb : w.initialRows + w.toInsert ≤ usizeMax) : ∃ w', w.commit = (.ok (), w') := by
  have hp : w.Pending := reachable_rowsOk hw
  rcases Nat.eq_zero_or_pos w.toInsert with hn | hn
  · exact ⟨_, Writer.commit_of_toInsert_zero hp hn hb⟩
  · obtain ⟨w', h, -⟩ := Writer.commit_of_pending hp (reachable_shapeOk hw).2.2 hn hb
    exact ⟨w', h⟩

/-- **Every live writer of a run can commit, up to `usize::MAX` rows.** From every state
of a run from the empty batch that has a writer on it, whatever the number of rows to
insert and whichever calls failed before, `commit` completes and leaves
`initial_rows + to_insert` rows when that sum is within `usize::MAX`; past it, `commit`
panics on the addition before it changes anything. -/
theorem reachable_commit_completes {w : Writer} (hw : Reachable (.busy w)) :
    (w.initialRows + w.toInsert ≤ usizeMax →
      ∃ w', w.commit = (.ok (), w') ∧ w'.batch.rowCount = w.initialRows + w.toInsert) ∧
      (usizeMax < w.initialRows + w.toInsert → w.commit = (.error (.panic .addOverflow), w)) := by
  refine ⟨fun hb => ?_, Writer.commit_of_overflow⟩
  obtain ⟨w', h⟩ := Writer.commit_ok_of_reachable hw hb
  exact ⟨w', h, (Writer.commit_eq_ok h).2.2⟩

/-- A writer with no rows to insert commits after a `write_tag`. -/
theorem reachable_commit_completes_no_rows :
    let w := ((Writer.new MutableBatch.new 0).write (.tag "t" none [])).2
    Reachable (.busy w) ∧ w.initialRows + w.toInsert ≤ usizeMax ∧
      ∃ w', w.commit = (.ok (), w') ∧ w'.batch.rowCount = w.initialRows + w.toInsert :=
  have h : Reachable (.busy ((Writer.new MutableBatch.new 0).write (.tag "t" none [])).2) :=
    .tail (.single (.new _ 0)) (.write (.tag "t" none []) (Prod.ext rfl rfl) (by rfl))
  ⟨h, by decide, (reachable_commit_completes h).1 (by decide)⟩

/-! ### The statistics a rollback leaves -/

/-- **A dropped transaction gives back the validity bits and the statistics of every
column**, whatever its calls did. Take a batch with a well-formed name index in which
every column has `row_count` validity bits, open a writer on it, make any calls, each
of which may succeed, fail or panic (the calls after a panic are not made), and drop
it. Every old column keeps its type and comes back with its validity bits and its
cumulative statistics, and every column the transaction created has `row_count` null
rows and the statistics of a fresh column. Unlike a tag dictionary, which comes back
only when it held exactly the strings of its non-null rows, these need no condition. -/
theorem drop_restores_statistics {b : MutableBatch} (hn : b.NamesOk)
    (hb : ∀ col ∈ b.columns, col.valid.length = b.rowCount) (n : Nat) (calls : List WriteCall) :
    (∀ (j : Nat) (col : Column), b.columns[j]? = some col →
      ∃ col' : Column, ((Writer.new b n).writeAll calls).drop.columns[j]? = some col' ∧
        col'.influxType = col.influxType ∧ col'.valid = col.valid ∧
        col'.data.statistics = col.data.statistics) ∧
    ∀ (j : Nat) (col' : Column), ((Writer.new b n).writeAll calls).drop.columns[j]? = some col' →
      b.columns.length ≤ j → col'.valid = List.replicate b.rowCount false ∧
        col'.data.statistics = (ColumnData.new b.rowCount col'.influxType).statistics := by
  have h := Writer.rollback_writeAll (Writer.rollback_new hn n) calls
  have hcols : ((Writer.new b n).writeAll calls).drop.columns =
      ((Writer.new b n).writeAll calls).batch.columns.map (·.truncate b.rowCount) := by
    rw [Writer.drop_columns_of_not_success h.success, h.initialRows]
  -- a kept prefix of `row_count` bits is all that `truncate` leaves
  have hvalid : ∀ {c c' : Column}, c.valid.length = b.rowCount →
      c.valid.take b.rowCount <+: c'.valid → (c'.truncate b.rowCount).valid = c.valid :=
    fun hl hp => by
      rw [List.take_of_length_le hl.le, List.prefix_iff_eq_take, hl] at hp
      exact hp.symm
  refine ⟨fun j col hj => ?_, fun j x hj hle => ?_⟩
  · obtain ⟨c, hc, hty, hv, hd⟩ := h.old j col hj
    exact ⟨c.truncate b.rowCount, by rw [hcols, List.getElem?_map, hc]; rfl, hty,
      hvalid (hb col (List.getElem?_mem hj)) hv, by simp [hd.statistics]⟩
  · rw [hcols, List.getElem?_map] at hj
    obtain ⟨c, hc, rfl⟩ := Option.map_eq_some'.mp hj
    obtain ⟨-, hv, hd⟩ := h.new j c hc hle
    exact ⟨hvalid (by simp) hv, by simp [hd.statistics]⟩

/-- A dropped `write_tag` on a batch of one committed tag row. -/
theorem drop_restores_statistics_after_write_tag :
    let b := ((Writer.new MutableBatch.new 1).write (.tag "t" none ["a"])).2.commit.2.batch
    b.NamesOk ∧ (∀ col ∈ b.columns, col.valid.length = b.rowCount) ∧
    (∀ (j : Nat) (col : Column), b.columns[j]? = some col →
      ∃ col' : Column, ((Writer.new b 1).writeAll [.tag "t" none ["b"], .i64 "x" none [1]]).drop.columns[j]? =
          some col' ∧
        col'.influxType = col.influxType ∧ col'.valid = col.valid ∧
        col'.data.statistics = col.data.statistics) ∧
    ∀ (j : Nat) (col' : Column),
      ((Writer.new b 1).writeAll [.tag "t" none ["b"], .i64 "x" none [1]]).drop.columns[j]? =
        some col' →
      b.columns.length ≤ j → col'.valid = List.replicate b.rowCount false ∧
        col'.data.statistics = (ColumnData.new b.rowCount col'.influxType).statistics :=
  have hb : Reachable (.idle ((Writer.new MutableBatch.new 1).write
      (.tag "t" none ["a"])).2.commit.2.batch) :=
    .tail (.tail (.single (.new _ 1)) (.write (.tag "t" none ["a"]) (Prod.ext rfl rfl) (by rfl)))
      (.commit (Prod.ext rfl rfl))
  have hn := (reachable_shapeOk hb).1
  have hv := reachable_rowsOk hb
  ⟨hn, hv, drop_restores_statistics hn hv 1 [.tag "t" none ["b"], .i64 "x" none [1]]⟩

end BatchWriter
