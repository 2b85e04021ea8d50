import BatchWriter.Sound
import BatchWriter.Table

/-!
# A transaction with failed calls

`BatchWriter.commit_table` takes a transaction whose calls all return `Ok`. A caller may
also go on after a recoverable error: retry the name, write others, and commit. What the
commit then does to the table depends only on the calls and on what each returned, with
one exception (`BatchWriter.commit_table_log`).

A transaction in the making reads as a `BatchWriter.Draft`: under each name a type and the
cells of the rows the column has so far, `initial_rows` of them before the name is
written and `initial_rows + to_insert` after. A call changes the draft under its own name
only, by what it returned (`BatchWriter.Draft.step`): `Ok` appends its cells; an error
leaves the cells as they were, and registers a new name with null cells. A type mismatch
is one of these errors, and comes only on a registered name. The commit pads with null
cells every column not written (`BatchWriter.Draft.commit`).

The exception is a `write_bool` after a failed `write_bool` to the same name. The failed
call set the bits of the `true` values it stored before it failed; `append_unset` keeps
them, and the retry sets only the bits of its own `true` values, so a row where the retry
writes `false` reads `true`. `BatchWriter.BoolRetryFree` excludes exactly these logs, and
the example after `BatchWriter.commit_table_log` shows the stale bit at work; what such a
retry can do is bounded in `BatchWriter.run_table_le`.

| fact | theorem |
|---|---|
| a call changes the draft as the spec says | `BatchWriter.Writer.Drafts.write` |
| so does a whole transaction | `BatchWriter.Writer.drafts_runLog` |
| what the commit makes of a writer's view | `BatchWriter.Writer.commit_view` |
| the commit pads the draft | `BatchWriter.Writer.commit_drafts` |
| commit refines the draft semantics | `BatchWriter.commit_table_log` |
-/

namespace BatchWriter

/-! ### Drafts -/

/-- A table in the making: the `initial_rows` rows of the batch, the `to_insert` rows of a
transaction, and under each name a type and the cells of the rows the column has so far,
`initial_rows` or `initial_rows + to_insert`. -/
structure Draft where
  rowCount : Nat
  toInsert : Nat
  column : String → Option (InfluxColumnType × List Cell)
  length_cells : ∀ name e, column name = some e →
    e.2.length = rowCount ∨ e.2.length = rowCount + toInsert

namespace Draft

/-- The first `initial_rows` cells under `name`, or nulls for a name with no column. -/
def prior (d : Draft) (name : String) : List Cell :=
  ((d.column name).map fun e => e.2.take d.rowCount).getD (List.replicate d.rowCount none)

theorem length_prior (d : Draft) (name : String) : (d.prior name).length = d.rowCount := by
  unfold prior
  cases h : d.column name with
  | none => simp
  | some e =>
    have := d.length_cells name e h
    simp only [Option.map_some', Option.getD_some, List.length_take]
    omega

/-- **The spec of one call**, by what it returned: `Ok` puts the call's cells under its
name, after the first `initial_rows` cells; an error leaves the column as it was, and
registers a new name with the call's type and null cells. -/
def step (d : Draft) (c : WriteCall) (r : Except Exit Unit) : Draft where
  rowCount := d.rowCount
  toInsert := d.toInsert
  column name :=
    if c.name = name then
      match r with
      | .ok () => some (c.influxType, d.prior name ++ c.cells d.toInsert)
      | .error _ => some ((d.column name).getD (c.influxType, List.replicate d.rowCount none))
    else d.column name
  length_cells name e h := by
    dsimp only at h
    split_ifs at h
    · split at h
      · obtain rfl := Option.some.inj h
        exact .inr (by simp [d.length_prior])
      · obtain rfl := Option.some.inj h
        cases hc : d.column name with
        | none => exact .inl (by simp)
        | some e => simpa using d.length_cells name e hc
    · exact d.length_cells name e h

@[simp] theorem step_column_ok (d : Draft) (c : WriteCall) :
    (d.step c (.ok ())).column c.name =
      some (c.influxType, d.prior c.name ++ c.cells d.toInsert) := by
  simp [step]

@[simp] theorem step_column_error (d : Draft) (c : WriteCall) (x : Exit) :
    (d.step c (.error x)).column c.name =
      some ((d.column c.name).getD (c.influxType, List.replicate d.rowCount none)) := by
  simp [step]

@[simp] theorem step_rowCount (d : Draft) (c : WriteCall) (r : Except Exit Unit) :
    (d.step c r).rowCount = d.rowCount := rfl

@[simp] theorem step_toInsert (d : Draft) (c : WriteCall) (r : Except Exit Unit) :
    (d.step c r).toInsert = d.toInsert := rfl

/-- The calls of a transaction keep its row counts. -/
theorem foldl_step_rows (d : Draft) (log : List (WriteCall × Except Exit Unit)) :
    (log.foldl (fun d e => d.step e.1 e.2) d).rowCount = d.rowCount ∧
      (log.foldl (fun d e => d.step e.1 e.2) d).toInsert = d.toInsert := by
  induction log generalizing d with
  | nil => exact ⟨rfl, rfl⟩
  | cons e log ih => exact ih _

theorem step_column_of_ne (d : Draft) {c : WriteCall} (r : Except Exit Unit) {name : String}
    (h : c.name ≠ name) : (d.step c r).column name = d.column name := by
  simp [step, h]

/-- **The spec of `commit`**: the rows of the transaction are appended, with null cells
under every name it did not write. -/
def commit (d : Draft) : Table where
  rowCount := d.rowCount + d.toInsert
  column name := (d.column name).map fun e =>
    (e.1, if e.2.length = d.rowCount then e.2 ++ List.replicate d.toInsert none else e.2)
  length_cells name e h := by
    obtain ⟨e, he, rfl⟩ := Option.map_eq_some'.mp h
    rcases d.length_cells name e he with hl | hl <;> split_ifs <;> simp <;> omega

end Draft

/-- A transaction begins on the table of the batch. -/
def Table.begin (t : Table) (to_insert : Nat) : Draft where
  rowCount := t.rowCount
  toInsert := to_insert
  column := t.column
  length_cells name e h := .inl (t.length_cells name e h)

/-- **The spec of a transaction** on the table `t`, for `to_insert` rows and the calls of
`log` with what each returned: the calls one after the other, then the commit. -/
def Table.transact (t : Table) (to_insert : Nat) (log : List (WriteCall × Except Exit Unit)) :
    Table :=
  (log.foldl (fun d e => d.step e.1 e.2) (t.begin to_insert)).commit

/-! ### The calls of a transaction -/

/-- The calls of a transaction, made in order up to the first that panics, each with what
it returned, and the writer they leave. -/
def Writer.runLog (w : Writer) : List WriteCall → Writer × List (WriteCall × Except Exit Unit)
  | [] => (w, [])
  | c :: cs =>
    match w.write c with
    | (.error (.panic p), w') => (w', [(c, .error (.panic p))])
    | (r, w') => ((w'.runLog cs).1, (c, r) :: (w'.runLog cs).2)

/-- The names a failed `write_bool` has left set bits under, once the call `c` returned
`r`. -/
def dirtyAfter (dirty : List String) (c : WriteCall) (r : Except Exit Unit) : List String :=
  if c.influxType = .field .boolean ∧ r.isOk = false then c.name :: dirty else dirty

/-- **No `write_bool` of the log returns `Ok` under a name an earlier `write_bool` failed
on**, `dirty` holding the names earlier calls of the transaction failed on. -/
def BoolRetryFree (dirty : List String) : List (WriteCall × Except Exit Unit) → Prop
  | [] => True
  | (c, r) :: log =>
    (c.influxType = .field .boolean → r.isOk → c.name ∉ dirty) ∧
      BoolRetryFree (dirtyAfter dirty c r) log

instance BoolRetryFree.decidable (dirty : List String) :
    (log : List (WriteCall × Except Exit Unit)) → Decidable (BoolRetryFree dirty log)
  | [] => isTrue trivial
  | (c, r) :: log =>
    have := BoolRetryFree.decidable (dirtyAfter dirty c r) log
    inferInstanceAs (Decidable (_ ∧ _))

theorem mem_dirtyAfter {dirty : List String} {name : String} (h : name ∈ dirty) (c : WriteCall)
    (r : Except Exit Unit) : name ∈ dirtyAfter dirty c r := by
  unfold dirtyAfter
  split_ifs <;> simp [h]

/-- A live writer read as a draft: under each name, the column's type and the cells of its
validity bits. -/
def Writer.view (w : Writer) (name : String) : Option (InfluxColumnType × List Cell) :=
  (w.batch.columnByName name).map fun col => (col.influxType, col.cells col.valid.length)

/-- A live writer reads as the draft `d`. -/
structure Writer.Drafts (w : Writer) (d : Draft) : Prop where
  rowCount : w.initialRows = d.rowCount
  toInsert : w.toInsert = d.toInsert
  column : ∀ name, w.view name = d.column name

/-- The boolean store of every column not written yet in the transaction is clear from
`initial_rows` on, but under the names in `dirty`. -/
def Writer.ClearExcept (dirty : List String) (w : Writer) : Prop :=
  ∀ name col, w.batch.columnByName name = some col → col.valid.length = w.initialRows →
    name ∉ dirty → col.data.ClearFrom w.initialRows

/-- Mapping every column maps the column under each name. -/
theorem MutableBatch.columnByName_map (b : MutableBatch) (f : Column → Column) (rows : Nat)
    (name : String) :
    ({ b with columns := b.columns.map f, rowCount := rows } : MutableBatch).columnByName name =
      (b.columnByName name).map f := by
  simp only [MutableBatch.columnByName]
  cases b.columnNames.lookup name <;> simp

namespace Writer

variable {w w' : Writer} {c : WriteCall} {r : Except Exit Unit}

theorem entry_eq_some {name : String} {col : Column} {rec : Option Statistics}
    (h : w.entry name = some (col, rec)) : ∃ idx, w.batch.columnNames.lookup name = some idx ∧
      w.batch.columns[idx]? = some col ∧ w.statistics.lookup idx = rec := by
  obtain ⟨idx, hl, hm⟩ := Option.bind_eq_some.mp h
  obtain ⟨x, hx, hxe⟩ := Option.map_eq_some'.mp hm
  obtain ⟨rfl, rfl⟩ := Prod.mk.inj hxe
  exact ⟨idx, hl, hx, rfl⟩

/-- A call changes the column of no other name. -/
theorem columnByName_write_of_ne (hn : w.batch.NamesOk) (hw : w.write c = (r, w'))
    {name : String} (hne : c.name ≠ name) :
    w'.batch.columnByName name = w.batch.columnByName name := by
  rw [← map_fst_entry, ← map_fst_entry, entry_write_of_ne hn hw hne]

/-- **What a call does under its own name.** Either it stopped in `column_mut`, on a type
mismatch or at the assert on the rows, which come only on a registered name, and changed
nothing; or it ran on the column it resolved, registered or fresh of its type, with
`initial_rows` validity bits, and left there what it made of it. -/
theorem write_own (hn : w.batch.NamesOk) (hw : w.write c = (r, w')) :
    (w' = w ∧ r ≠ .ok () ∧ ∃ col, w.batch.columnByName c.name = some col) ∨
    ∃ col, (w.batch.columnByName c.name = some col ∨
        (w.batch.columnByName c.name = none ∧ col = Column.new w.initialRows c.influxType)) ∧
      col.influxType = c.influxType ∧ col.valid.length = w.initialRows ∧
      r = (c.apply w.initialRows w.toInsert col).1 ∧
      w'.batch.columnByName c.name = some (c.apply w.initialRows w.toInsert col).2.1 := by
  rw [write_eq] at hw
  rcases writeColumn_cases hn hw with
    ⟨hww, ty, he⟩ | ⟨idx, col, w₁, hcol, hl, hw₁, hty, hlen, hres, rfl⟩
  · refine .inl ⟨hww, by rcases he with he | he <;> simp [he], ?_⟩
    -- `column_mut` registers a new name and resolves it: this name was registered
    cases hl : w.batch.columnNames.lookup c.name with
    | some idx =>
      obtain ⟨col, hcol⟩ : ∃ col, w.batch.columns[idx]? = some col :=
        ⟨_, List.getElem?_eq_getElem (hn.lookup_lt hl)⟩
      exact ⟨col, by simp [MutableBatch.columnByName, hl, hcol]⟩
    | none =>
      obtain ⟨-, hm⟩ := (@columnMut_cases w c.name c.influxType hn).resolve_left
        fun ⟨_, _, h, _⟩ => by simp [hl] at h
      simp only [writeColumn, hm, hww] at hw
      have := congrArg (fun p => p.2.batch.columns.length) hw
      simp at this
  · refine .inr ⟨col, ?_, hty, hlen, hres, ?_⟩
    · rcases hw₁ with rfl | ⟨hl₀, -, rfl, -⟩
      · exact .inl (by simp [MutableBatch.columnByName, hl, hcol])
      · exact .inr ⟨by simp [MutableBatch.columnByName, hl₀], rfl⟩
    · simp [MutableBatch.columnByName, hl, List.getElem?_set,
        (List.getElem?_eq_some_iff.mp hcol).1]

/-- A writer opened on a reachable batch reads as the transaction the spec begins on the
batch's table. -/
theorem drafts_new {b : MutableBatch} (hb : Reachable (.idle b)) (n : Nat) :
    (Writer.new b n).Drafts (b.table.begin n) := by
  refine ⟨rfl, rfl, fun name => ?_⟩
  show (b.columnByName name).map _ = (b.columnByName name).map _
  cases hcol : b.columnByName name with
  | none => rfl
  | some col => simp [reachable_rowsOk hb col (MutableBatch.mem_of_columnByName hcol)]

theorem clearExcept_new {b : MutableBatch} (hb : Reachable (.idle b)) (n : Nat) :
    (Writer.new b n).ClearExcept [] := fun _ col h _ _ =>
  reachable_clearOk hb col (MutableBatch.mem_of_columnByName h)

section Step

variable {d : Draft} {dirty : List String}

/-- The column a call runs on, registered or fresh of its type, as the writer shows it:
its set rows hold values, and its cells are those the writer shows under the name, or
nulls for a fresh one. -/
theorem resolved_view (hr : Reachable (.busy w)) {col : Column}
    (hcol : w.batch.columnByName c.name = some col ∨
      (w.batch.columnByName c.name = none ∧ col = Column.new w.initialRows c.influxType))
    (hty : col.influxType = c.influxType) (hlen : col.valid.length = w.initialRows) :
    col.Filled ∧ (w.view c.name).getD (c.influxType, List.replicate w.initialRows none) =
      (c.influxType, col.cells w.initialRows) := by
  rcases hcol with hcol | ⟨hnone, rfl⟩
  · exact ⟨reachable_filled hr col (MutableBatch.mem_of_columnByName hcol),
      by simp [view, hcol, hty, hlen]⟩
  · exact ⟨Column.filled_new _ _, by simp [view, hnone, Column.cells_new]⟩

/-- The column a call runs on, registered or fresh of its type: its set rows hold values,
its store is of the call's variant, its cells are the draft's first cells under the
call's name, and it is clear from `initial_rows` on when boolean and clean. -/
theorem resolved_facts (hr : Reachable (.busy w)) (hd : w.Drafts d) (hcl : w.ClearExcept dirty)
    {col : Column} (hcol : w.batch.columnByName c.name = some col ∨
      (w.batch.columnByName c.name = none ∧ col = Column.new w.initialRows c.influxType))
    (hty : col.influxType = c.influxType) (hlen : col.valid.length = w.initialRows) :
    col.Filled ∧ col.data.storage = c.influxType.storage ∧
      (d.column c.name).getD (c.influxType, List.replicate d.rowCount none) =
        (c.influxType, col.cells w.initialRows) ∧ d.prior c.name = col.cells w.initialRows ∧
      (c.influxType = .field .boolean → c.name ∉ dirty →
        col.data.ClearFrom w.initialRows) := by
  have hrows := hd.rowCount
  rcases hcol with hcol | ⟨hnone, rfl⟩
  · have hmem := MutableBatch.mem_of_columnByName hcol
    have he : d.column c.name = some (c.influxType, col.cells w.initialRows) := by
      rw [← hd.column, view, hcol, Option.map_some', hlen, hty]
    refine ⟨reachable_filled hr col hmem, hty ▸ (reachable_shapeOk hr).2.1 col hmem,
      by rw [he]; rfl, ?_, fun _ => hcl c.name col hcol hlen⟩
    simp [Draft.prior, he, ← hrows]
  · have he : d.column c.name = none := by rw [← hd.column, view, hnone]; rfl
    refine ⟨Column.filled_new _ _, by simp, by simp [he, hrows, Column.cells_new], ?_,
      fun _ _ => ColumnData.clearFrom_new _ _⟩
    simp [Draft.prior, he, hrows, Column.cells_new]

/-- **What a call does to the draft under its own name**, on a reachable live writer:
what `BatchWriter.Draft.step` says, when a `write_bool` that returns
`Ok` finds its name clean; and the column it leaves there is clear from `initial_rows`
on, unless it was written or its name joined the dirty ones. -/
theorem view_write_own (hr : Reachable (.busy w)) (hd : w.Drafts d) (hcl : w.ClearExcept dirty)
    (hw : w.write c = (r, w')) (hret : returned r = true)
    (hbool : c.influxType = .field .boolean → r.isOk → c.name ∉ dirty) :
    w'.view c.name = (d.step c r).column c.name ∧
      ∀ col, w'.batch.columnByName c.name = some col → col.valid.length = w.initialRows →
        c.name ∉ dirtyAfter dirty c r → col.data.ClearFrom w.initialRows := by
  rcases write_own (reachable_shapeOk hr).1 hw with
    ⟨rfl, hne, col, hcol⟩ | ⟨col, hcol, hty, hlen, hres, hcol'⟩
  · -- a type mismatch: nothing changes
    obtain ⟨e, he⟩ : ∃ e, d.column c.name = some e :=
      ⟨_, by rw [← hd.column, view, hcol]; rfl⟩
    cases r with
    | ok => exact absurd rfl hne
    | error x =>
      exact ⟨by rw [Draft.step_column_error, hd.column, he]; rfl,
        fun col' h hl hnd => hcl c.name col' h hl fun hm => hnd (mem_dirtyAfter hm c _)⟩
  -- the call ran on `col`
  obtain ⟨hfill, hcsto, hgetD, hprior, hclear⟩ := resolved_facts hr hd hcl hcol hty hlen
  have hty' := (c.apply_shape w.initialRows w.toInsert col).1
  cases r with
  | ok u =>
    -- `Ok`: the rows of the transaction take the call's cells
    have hok : (c.apply w.initialRows w.toInsert col).1 = .ok () := hres ▸ rfl
    have hclr : col.data.ClearFrom w.initialRows := by
      by_cases hb : c.influxType = .field .boolean
      · exact hclear hb (hbool hb rfl)
      · exact ColumnData.clearFrom_of_storage fun h =>
          hb (InfluxColumnType.eq_boolean_of_storage (hcsto ▸ h))
    have hv := c.valid_apply_of_ok hok
    have hrows : (c.apply w.initialRows w.toInsert col).2.1.valid.length =
        w.initialRows + w.toInsert := by
      rw [hv, List.length_append, length_validBits, hlen]
    refine ⟨?_, fun col' h hl _ => ?_⟩
    · rw [Draft.step_column_ok, view, hcol', Option.map_some', hrows,
        c.cells_apply hlen hfill hclr hok, hty', hty, hprior, hd.toInsert]
    · -- a written column still at `initial_rows` bits: there is no row to insert
      obtain rfl := Option.some.inj (hcol'.symm.trans h)
      have h0 : w.toInsert = 0 := by omega
      have hc : col.data.ClearFrom (w.initialRows + w.toInsert) := by rwa [h0, Nat.add_zero]
      simpa [h0] using c.apply_clearFrom hc
  | error x =>
    -- an error: the column keeps its cells, and a failed `write_bool` makes its name dirty
    have hv : (c.apply w.initialRows w.toInsert col).2.1.valid = col.valid := by
      rcases c.apply_valid (hres ▸ hret) with ⟨hv, -⟩ | ⟨hok, -⟩
      · exact hv
      · exact absurd (hres.trans hok) (by simp)
    refine ⟨?_, fun col' h _ hnd => ?_⟩
    · rw [Draft.step_column_error, view, hcol', Option.map_some', hv, hlen,
        Column.cells_of_keeps c.apply_keeps hfill hlen, hty', hty, hgetD]
    · obtain rfl := Option.some.inj (hcol'.symm.trans h)
      refine ColumnData.clearFrom_of_storage fun hb => hnd ?_
      have hb : c.influxType = .field .boolean :=
        InfluxColumnType.eq_boolean_of_storage (hcsto ▸ (c.apply_shape _ _ col).2.1 ▸ hb)
      simp [dirtyAfter, hb, Except.isOk, Except.toBool]

/-- **What a failed call shows under its own name**, on a reachable live writer: the
column the writer showed, or one of the call's type with null cells. -/
theorem view_write_error {x : Exit} (hr : Reachable (.busy w)) (hw : w.write c = (.error x, w'))
    (hret : returned (.error x) = true) :
    w'.view c.name = some ((w.view c.name).getD (c.influxType, List.replicate w.initialRows none)) := by
  rcases write_own (reachable_shapeOk hr).1 hw with
    ⟨rfl, -, col, hcol⟩ | ⟨col, hcol, hty, hlen, hres, hcol'⟩
  · simp [view, hcol]
  obtain ⟨hfill, hget⟩ := resolved_view hr hcol hty hlen
  have hv : (c.apply w.initialRows w.toInsert col).2.1.valid = col.valid := by
    rcases c.apply_valid (hres ▸ hret) with ⟨hv, -⟩ | ⟨hok, -⟩
    · exact hv
    · exact absurd (hres.trans hok) (by simp)
  rw [view, hcol', Option.map_some', hv, hlen, Column.cells_of_keeps c.apply_keeps hfill hlen,
    (c.apply_shape _ _ col).1, hty, hget]

/-- **What a call that succeeds shows under its own name**, on a reachable live writer:
the cells the writer showed there, or nulls, then cells at or above the call's own. -/
theorem view_write_ok (hr : Reachable (.busy w)) (hw : w.write c = (.ok (), w')) :
    ∃ X, w'.view c.name = some (c.influxType,
        ((w.view c.name).getD (c.influxType, List.replicate w.initialRows none)).2 ++ X) ∧
      ((w.view c.name).getD (c.influxType, List.replicate w.initialRows none)).2.length =
        w.initialRows ∧ List.Forall₂ Cell.Le (c.cells w.toInsert) X := by
  rcases write_own (reachable_shapeOk hr).1 hw with
    ⟨-, hne, -⟩ | ⟨col, hcol, hty, hlen, hres, hcol'⟩
  · exact absurd rfl hne
  obtain ⟨hfill, hget⟩ := resolved_view hr hcol hty hlen
  have hok : (c.apply w.initialRows w.toInsert col).1 = .ok () := hres ▸ rfl
  obtain ⟨X, hX, hle⟩ := c.cells_apply_le hlen hfill hok
  have hrows : (c.apply w.initialRows w.toInsert col).2.1.valid.length =
      w.initialRows + w.toInsert := by
    rw [c.valid_apply_of_ok hok, List.length_append, length_validBits, hlen]
  refine ⟨X, ?_, by simp [hget], hle⟩
  rw [view, hcol', Option.map_some', hrows, hX, (c.apply_shape _ _ col).1, hty, hget]

/-- **A call changes the draft as the spec says.** A call that returns, on a reachable
live writer, changes the writer's draft by
`BatchWriter.Draft.step`, when a `write_bool` that returns `Ok` finds its name clean; and
it keeps the stores clear but under the names `BatchWriter.dirtyAfter` makes dirty. -/
theorem Drafts.write (hr : Reachable (.busy w)) (hd : w.Drafts d) (hcl : w.ClearExcept dirty)
    (hw : w.write c = (r, w')) (hret : returned r = true)
    (hbool : c.influxType = .field .boolean → r.isOk → c.name ∉ dirty) :
    w'.Drafts (d.step c r) ∧ w'.ClearExcept (dirtyAfter dirty c r) := by
  have hn := (reachable_shapeOk hr).1
  obtain ⟨hi, ht, -⟩ := write_frame hn hw
  obtain ⟨hown, hclown⟩ := view_write_own hr hd hcl hw hret hbool
  refine ⟨⟨hi.trans hd.rowCount, ht.trans hd.toInsert, fun name => ?_⟩,
    fun name col h hl hnd => ?_⟩
  · by_cases hne : c.name = name
    · exact hne ▸ hown
    · rw [view, columnByName_write_of_ne hn hw hne, ← view, hd.column,
        Draft.step_column_of_ne _ _ hne]
  · rw [hi] at hl ⊢
    by_cases hne : c.name = name
    · subst hne
      exact hclown col h hl hnd
    · rw [columnByName_write_of_ne hn hw hne] at h
      exact hcl name col h hl fun hm => hnd (mem_dirtyAfter hm c r)

end Step

/-! ### A whole transaction -/

theorem runLog_cons (hw : w.write c = (r, w')) (hret : returned r = true) (cs : List WriteCall) :
    w.runLog (c :: cs) = ((w'.runLog cs).1, (c, r) :: (w'.runLog cs).2) := by
  cases r with
  | ok => simp [runLog, hw]
  | error x => cases x <;> simp_all [runLog, returned]

/-- The log of a transaction starts with its first call and what it returned. -/
theorem runLog_snd_cons (hw : w.write c = (r, w')) (cs : List WriteCall) :
    ∃ log, (w.runLog (c :: cs)).2 = (c, r) :: log := by
  cases r with
  | ok => simp [runLog, hw]
  | error x => cases x <;> simp [runLog, hw]

/-- **A transaction changes the draft as the spec says**, call after call, when none of
its calls panics and no `write_bool` returns `Ok` under a name a `write_bool` of it failed
on. -/
theorem drafts_runLog {d : Draft} {dirty : List String} (hr : Reachable (.busy w))
    (hd : w.Drafts d) (hcl : w.ClearExcept dirty) (calls : List WriteCall)
    (hret : ∀ e ∈ (w.runLog calls).2, returned e.2 = true)
    (hbool : BoolRetryFree dirty (w.runLog calls).2) :
    Reachable (.busy (w.runLog calls).1) ∧
      (w.runLog calls).1.Drafts ((w.runLog calls).2.foldl (fun d e => d.step e.1 e.2) d) := by
  induction calls generalizing w d dirty with
  | nil => exact ⟨hr, hd⟩
  | cons c cs ih =>
    obtain ⟨r, w', hw⟩ : ∃ r w', w.write c = (r, w') := ⟨_, _, rfl⟩
    have hr₀ : returned r = true := by
      obtain ⟨log, hlog⟩ := runLog_snd_cons hw cs
      exact hret _ (hlog ▸ List.mem_cons_self _ _)
    rw [runLog_cons hw hr₀] at hret hbool ⊢
    obtain ⟨hb₀, hbool⟩ := hbool
    obtain ⟨hd', hcl'⟩ := hd.write hr hcl hw hr₀ hb₀
    exact ih (hr.tail (.write c hw hr₀)) hd' hcl'
      (fun e he => hret e (List.mem_cons_of_mem _ he)) hbool

/-- **What the commit makes of a live writer's view.** On a reachable live writer with
`initial_rows + to_insert` within `usize::MAX`, `commit` completes with `initial_rows +
to_insert` rows, and under each name the table it leaves has the type and cells the writer
shows, padded with null cells if they are still `initial_rows`. -/
theorem commit_view (hr : Reachable (.busy w)) (hb : w.initialRows + w.toInsert ≤ usizeMax) :
    ∃ v, w.commit = (.ok (), v) ∧ v.batch.rowCount = w.initialRows + w.toInsert ∧
      ∀ name, v.batch.table.column name = (w.view name).map fun e =>
        (e.1, if e.2.length = w.initialRows then e.2 ++ List.replicate w.toInsert none else e.2) := by
  have hp : w.Pending := reachable_rowsOk hr
  rcases Nat.eq_zero_or_pos w.toInsert with h0 | hpos
  · -- no row to insert: the commit pads every column to `initial_rows`
    refine ⟨_, commit_of_toInsert_zero hp h0 hb, rfl, fun name => ?_⟩
    simp only [MutableBatch.table, view, MutableBatch.columnByName_map]
    cases hcol : w.batch.columnByName name with
    | none => rfl
    | some col =>
      have hmem := MutableBatch.mem_of_columnByName hcol
      have hlen : col.valid.length = w.initialRows := by
        rcases hp.valid col hmem with h | h <;> omega
      simp [hlen, Column.cells_pushNullsToLen (reachable_filled hr col hmem) hlen]
  obtain ⟨-, -, hfit⟩ := reachable_shapeOk hr
  obtain ⟨v, hc, hrow, -, hby⟩ := commit_columnByName hr hpos hb
  refine ⟨v, hc, hrow, fun name => ?_⟩
  simp only [MutableBatch.table, hby, view, hrow]
  cases he : w.entry name with
  | none => simp [← map_fst_entry, he]
  | some e =>
    obtain ⟨col, rec⟩ := e
    obtain ⟨idx, hl, hcol, hrec⟩ := entry_eq_some he
    have hcn : w.batch.columnByName name = some col := by simp [MutableBatch.columnByName, hl, hcol]
    have hfill := reachable_filled hr col (List.getElem?_mem hcol)
    rw [hcn]
    cases rec with
    | none =>
      -- no record: the column was not written, and the commit pads it with nulls
      have hlen : col.valid.length = w.initialRows := by
        by_contra h
        exact lookup_eq_none_iff_not_mem.mp hrec (hp.written idx col hcol h)
      simp [commitEntry, hlen, Column.cells_pushNullsToLen hfill hlen]
    | some s =>
      -- a record: the column was written, and the commit merges the record into it
      obtain ⟨col₁, hcol₁, hlen⟩ := hp.recorded (idx, s) (mem_of_lookup_eq_some hrec)
      obtain ⟨col₂, hcol₂, hfits⟩ := hfit (idx, s) (mem_of_lookup_eq_some hrec)
      obtain rfl : col₁ = col := Option.some.inj (hcol₁.symm.trans hcol)
      obtain rfl : col₂ = col₁ := Option.some.inj (hcol₂.symm.trans hcol)
      obtain ⟨col', hm⟩ := Option.isSome_iff_exists.mp
        ((Column.mergeStatistics_isSome_iff _ _).mpr hfits)
      have hne : ¬w.initialRows + w.toInsert = w.initialRows := by omega
      simp [commitEntry, hm, hlen, (Column.mergeStatistics_shape hm).1,
        Column.cells_mergeStatistics hm, hne]

/-- **The commit pads the draft.** On a reachable live writer with `initial_rows +
to_insert` within `usize::MAX`, `commit` completes, and the table it leaves is what
`BatchWriter.Draft.commit` makes of the writer's draft. -/
theorem commit_drafts {d : Draft} (hr : Reachable (.busy w)) (hd : w.Drafts d)
    (hb : w.initialRows + w.toInsert ≤ usizeMax) :
    ∃ v, w.commit = (.ok (), v) ∧ v.batch.table = d.commit := by
  obtain ⟨v, hc, hrow, hcol⟩ := commit_view hr hb
  refine ⟨v, hc, Table.ext ?_ (funext fun name => ?_)⟩
  · simp [MutableBatch.table, Draft.commit, hrow, hd.rowCount, hd.toInsert]
  · rw [hcol, hd.column, hd.rowCount, hd.toInsert]
    rfl

end Writer

/-- **A commit after failed calls refines the draft semantics.** Open a writer on a batch
reachable from the empty batch, with `row_count + to_insert` within `usize::MAX`, and make
any calls, none of which panics and with no `write_bool` returning `Ok` under a name a
`write_bool` of the transaction failed on. The commit completes, and the table it leaves is
`BatchWriter.Table.transact` of the table before, over the calls and what each returned. -/
theorem commit_table_log {b : MutableBatch} (hb : Reachable (.idle b)) (n : Nat)
    (hbound : b.rowCount + n ≤ usizeMax) (calls : List WriteCall)
    (hret : ∀ e ∈ ((Writer.new b n).runLog calls).2, returned e.2 = true)
    (hbool : BoolRetryFree [] ((Writer.new b n).runLog calls).2) :
    ∃ v, ((Writer.new b n).runLog calls).1.commit = (.ok (), v) ∧
      v.batch.table = b.table.transact n ((Writer.new b n).runLog calls).2 := by
  obtain ⟨hr, hd⟩ := Writer.drafts_runLog (hb.tail (.new b n)) (Writer.drafts_new hb n)
    (Writer.clearExcept_new hb n) calls hret hbool
  have hrows := Draft.foldl_step_rows (b.table.begin n) ((Writer.new b n).runLog calls).2
  exact Writer.commit_drafts hr hd
    (by rw [hd.rowCount, hd.toInsert, hrows.1, hrows.2]; exact hbound)

/-- On the empty batch, a transaction of two rows fails a `write_i64` to `"x"`, retries it
with a mask, fails a `write_tag` to the new name `"t"`, a `write_bool` to `"x"` on a type
mismatch and a `write_bool` to `"f"`, and commits. -/
theorem commit_table_log_after_retry :
    let calls : List WriteCall := [.i64 "x" none [5], .i64 "x" (some [2]) [7], .tag "t" none [],
      .bool "x" none [true, true], .bool "f" none [true]]
    Reachable (.idle MutableBatch.new) ∧ MutableBatch.new.rowCount + 2 ≤ usizeMax ∧
      (∀ e ∈ ((Writer.new MutableBatch.new 2).runLog calls).2, returned e.2 = true) ∧
      BoolRetryFree [] ((Writer.new MutableBatch.new 2).runLog calls).2 ∧
      ∃ v, ((Writer.new MutableBatch.new 2).runLog calls).1.commit = (.ok (), v) ∧
        v.batch.table =
          MutableBatch.new.table.transact 2 ((Writer.new MutableBatch.new 2).runLog calls).2 :=
  ⟨.refl, by decide, by decide, by decide,
    commit_table_log .refl 2 (by decide) _ (by decide) (by decide)⟩

/-- The condition on `write_bool` cannot go. A `write_bool` of `true` over two rows fails
after it set the bit of row 0; its retry writes `false` there, and the committed table
reads `true` where the spec has `false`. -/
example :
    let run := (Writer.new MutableBatch.new 2).runLog
      [.bool "f" none [true], .bool "f" none [false, true]]
    run.1.commit.2.batch.table.column "f" =
        some (.field .boolean, [some (.inr (.inr (.inr (.inr true)))),
          some (.inr (.inr (.inr (.inr true))))]) ∧
      (MutableBatch.new.table.transact 2 run.2).column "f" =
        some (.field .boolean, [some (.inr (.inr (.inr (.inr false)))),
          some (.inr (.inr (.inr (.inr true))))]) := by
  constructor <;> rfl

end BatchWriter
