import BatchWriter.Refinement

/-!
# Where a retried `write_bool` departs from the store

`BatchWriter.run_table` holds on the runs in which no `write_bool` returns `Ok` under a
name on which a `write_bool` of the same transaction failed. On the other runs the batch
departs from the store of tables, in one way only. The failed call left set the bits of
the `true` values it stored, and the retry sets only the bits of its own `true` values,
so a row where the retry writes `false` can read `true`. Every other cell is the store's.

The two tables meet in an order on cells (`BatchWriter.Cell.Le`): a cell is below itself,
and a `false` below a `true`. A table of the store is below a table of the batch when
they have the same rows, the same names, the same type under each name, and each cell
of the first is below the cell of the second (`BatchWriter.Table.Le`). A call that
succeeds appends cells at or above its own (`BatchWriter.WriteCall.cells_apply_le`);
commit and drop do to the writer's view what the store does to its draft
(`BatchWriter.Writer.commit_view`, `BatchWriter.Writer.drop_view`,
`BatchWriter.Writer.drop_view_of_panic`), and both keep the order. So on every run from a
reachable batch, with no condition on `write_bool`, the table the batch ends on is at or
above the table of the store (`BatchWriter.run_table_le`).

| fact | theorem |
|---|---|
| a call keeps the writer at or above the draft | `BatchWriter.Writer.DraftsLe.write` |
| so do commit, drop and a caught panic | `BatchWriter.Writer.DraftsLe.commit`, `BatchWriter.Writer.DraftsLe.drop`, `BatchWriter.Writer.DraftsLe.panic` |
| one event keeps the order | `BatchWriter.Sys.Does.refinesLe` |
| the table of any run is at or above the store's | `BatchWriter.run_table_le` |
-/

namespace BatchWriter

/-! ### Tables in order -/

/-- A column of the store below a column of the batch: the same type, and below it cell
by cell. -/
def ColumnLe (e e' : InfluxColumnType × List Cell) : Prop :=
  e.1 = e'.1 ∧ List.Forall₂ Cell.Le e.2 e'.2

/-- The table `t` of the store below the table `t'` of the batch: the same rows, and
under each name either no column in both or a column of `t` below that of `t'`. -/
def Table.Le (t t' : Table) : Prop :=
  t.rowCount = t'.rowCount ∧ ∀ name, Option.Rel ColumnLe (t.column name) (t'.column name)

namespace ColumnLe

variable {e e' : InfluxColumnType × List Cell}

theorem refl (e : InfluxColumnType × List Cell) : ColumnLe e e :=
  ⟨rfl, Cell.forall₂_le_refl _⟩

/-- Columns in order stay in order under maps that keep it. -/
theorem rel_map {x y : Option (InfluxColumnType × List Cell)} (h : Option.Rel ColumnLe x y)
    {f g : InfluxColumnType × List Cell → InfluxColumnType × List Cell}
    (hfg : ∀ e e', ColumnLe e e' → ColumnLe (f e) (g e')) :
    Option.Rel ColumnLe (x.map f) (y.map g) := by
  cases h with
  | some h => exact .some (hfg _ _ h)
  | none => exact .none

/-- Cutting both columns back to `R` cells keeps them in order. -/
theorem take (h : ColumnLe e e') (R : Nat) : ColumnLe (e.1, e.2.take R) (e'.1, e'.2.take R) :=
  ⟨h.1, List.forall₂_take R h.2⟩

/-- Padding both columns as a commit does keeps them in order: they have the same
length, so both or neither get the null cells. -/
theorem pad (h : ColumnLe e e') (R n : Nat) :
    ColumnLe (e.1, if e.2.length = R then e.2 ++ List.replicate n none else e.2)
      (e'.1, if e'.2.length = R then e'.2 ++ List.replicate n none else e'.2) := by
  rw [h.2.length_eq]
  split_ifs
  · exact ⟨h.1, List.rel_append h.2 (Cell.forall₂_le_refl _)⟩
  · exact h

end ColumnLe

theorem Table.le_refl (t : Table) : t.Le t :=
  ⟨rfl, fun name => match t.column name with
    | none => .none
    | some e => .some (ColumnLe.refl e)⟩

theorem Draft.rollback_column (d : Draft) (name : String) :
    d.rollback.column name = (d.column name).map fun e => (e.1, e.2.take d.rowCount) := rfl

/-- The first `initial_rows` cells under a name, read through a default column. -/
theorem Draft.prior_eq_getD (d : Draft) (ty : InfluxColumnType) (name : String) :
    d.prior name = ((d.column name).getD (ty, List.replicate d.rowCount none)).2.take d.rowCount := by
  cases h : d.column name <;> simp [Draft.prior, h]

/-! ### A live writer at or above a draft -/

/-- A live writer shows at or above the draft `d`: the same rows, and under each name a
column at or above the draft's. -/
structure Writer.DraftsLe (w : Writer) (d : Draft) : Prop where
  rowCount : w.initialRows = d.rowCount
  toInsert : w.toInsert = d.toInsert
  column : ∀ name, Option.Rel ColumnLe (d.column name) (w.view name)

namespace Writer

variable {w w' : Writer} {d : Draft} {c : WriteCall} {r : Except Exit Unit}

/-- A writer opened on a batch whose table is at or above `t` shows at or above the draft
the store begins on `t`. -/
theorem draftsLe_new {b : MutableBatch} {t : Table} (hb : Reachable (.idle b))
    (ht : t.Le b.table) (n : Nat) : (Writer.new b n).DraftsLe (t.begin n) := by
  have hd := drafts_new hb n
  exact ⟨hd.rowCount.trans ht.1.symm, hd.toInsert, fun name => hd.column name ▸ ht.2 name⟩

namespace DraftsLe

/-- Under any name, the column of the draft, or a default one, is below the writer's. -/
theorem getD (hd : w.DraftsLe d) (ty : InfluxColumnType) (name : String) :
    ColumnLe ((d.column name).getD (ty, List.replicate d.rowCount none))
      ((w.view name).getD (ty, List.replicate d.rowCount none)) :=
  match d.column name, w.view name, hd.column name with
  | _, _, .some h => h
  | _, _, .none => ColumnLe.refl _

/-- **A call keeps the writer at or above the draft**, whatever it returned: after it, the
writer shows at or above what `BatchWriter.Draft.step` makes of the draft. -/
theorem write (hr : Reachable (.busy w)) (hd : w.DraftsLe d) (hw : w.write c = (r, w'))
    (hret : returned r = true) : w'.DraftsLe (d.step c r) := by
  have hn := (reachable_shapeOk hr).1
  obtain ⟨hi, ht, -⟩ := write_frame hn hw
  refine ⟨hi.trans hd.rowCount, ht.trans hd.toInsert, fun name => ?_⟩
  by_cases hne : c.name = name
  · subst hne
    cases r with
    | ok u =>
      -- `Ok`: the rows before the transaction, then cells at or above the call's
      obtain ⟨X, hv, hlen, hle⟩ := view_write_ok hr hw
      rw [hd.rowCount] at hv hlen
      have hprior := List.forall₂_take d.rowCount (hd.getD c.influxType c.name).2
      rw [List.take_of_length_le hlen.le, ← d.prior_eq_getD] at hprior
      rw [hv, Draft.step_column_ok, ← hd.toInsert]
      exact .some ⟨rfl, List.rel_append hprior hle⟩
    | error x =>
      -- an error: the column as it was, or a fresh one of null cells
      rw [view_write_error hr hw hret, Draft.step_column_error, hd.rowCount]
      exact .some (hd.getD c.influxType c.name)
  · rw [view, columnByName_write_of_ne hn hw hne, ← view, Draft.step_column_of_ne _ _ hne]
    exact hd.column name

/-- **Commit keeps the order**: within `usize::MAX` rows, the table it leaves is at or
above what `BatchWriter.Draft.commit` makes of the draft. -/
theorem commit (hr : Reachable (.busy w)) (hd : w.DraftsLe d)
    (hb : w.initialRows + w.toInsert ≤ usizeMax) :
    ∃ v, w.commit = (.ok (), v) ∧ d.commit.Le v.batch.table := by
  obtain ⟨v, hc, hrow, hcol⟩ := commit_view hr hb
  refine ⟨v, hc, by simp [Draft.commit, MutableBatch.table, hrow, hd.rowCount, hd.toInsert],
    fun name => ?_⟩
  rw [hcol, hd.rowCount, hd.toInsert]
  exact ColumnLe.rel_map (hd.column name) fun _ _ h => h.pad _ _

/-- **A drop keeps the order**: the table it leaves is at or above what
`BatchWriter.Draft.rollback` makes of the draft. -/
theorem drop (hr : Reachable (.busy w)) (hd : w.DraftsLe d) : d.rollback.Le w.drop.table := by
  obtain ⟨hrow, hcol⟩ := drop_view hr
  refine ⟨by rw [hrow, hd.rowCount]; rfl, fun name => ?_⟩
  rw [hcol, hd.rowCount, Draft.rollback_column]
  exact ColumnLe.rel_map (hd.column name) fun _ _ h => h.take _

/-- **A caught panic keeps the order**: the table the unwinding leaves is at or above the
store's drop of the draft after a failed call. -/
theorem panic {p : Panic} (hr : Reachable (.busy w)) (hd : w.DraftsLe d)
    (hw : w.write c = (.error (.panic p), w')) :
    (d.step c (.error (.panic p))).rollback.Le w'.drop.table := by
  obtain ⟨hrow, hcol⟩ := drop_view_of_panic hr hw
  refine ⟨by rw [hrow, hd.rowCount]; rfl, fun name => ?_⟩
  rw [hcol, hd.rowCount, Draft.rollback_column, Draft.step_rowCount]
  by_cases hne : c.name = name
  · subst hne
    rw [if_pos rfl, Draft.step_column_error]
    exact .some ((hd.getD c.influxType c.name).take _)
  · rw [if_neg hne, Draft.step_column_of_ne _ _ hne]
    exact ColumnLe.rel_map (hd.column name) fun _ _ h => h.take _

end DraftsLe

end Writer

/-! ### Runs -/

/-- The batch state `s` at or above the store state `a`: an idle batch whose table is at
or above the store's table, or a live writer at or above the store's draft. -/
def Sys.RefinesLe : Sys → TableSys → Prop
  | .idle b, .idle t => t.Le b.table
  | .busy w, .busy d => w.DraftsLe d
  | _, _ => False

variable {s s' : Sys} {e : Event} {es : List Event} {a : TableSys}

/-- **One event keeps the order.** From a reachable state at or above `a`, any event leads
to a state at or above what the store makes of `a` on the same event. -/
theorem Sys.Does.refinesLe (h : s.Does e s') (hs : Reachable s) (ha : s.RefinesLe a) :
    ∃ a', a.next e = some a' ∧ s'.RefinesLe a' := by
  cases h with
  | new b n =>
    cases a with
    | idle t => exact ⟨_, rfl, Writer.draftsLe_new hs ha n⟩
    | busy => exact ha.elim
  | write c hw hret =>
    cases a with
    | busy d => exact ⟨_, rfl, Writer.DraftsLe.write hs ha hw hret⟩
    | idle => exact ha.elim
  | commit hw =>
    cases a with
    | busy d =>
      obtain ⟨v, hv, hle⟩ := Writer.DraftsLe.commit hs ha (Writer.le_usizeMax_of_commit hw)
      obtain rfl : _ = v := (Prod.mk.inj (hw.symm.trans hv)).2
      exact ⟨_, rfl, hle⟩
    | idle => exact ha.elim
  | drop w =>
    cases a with
    | busy d => exact ⟨_, rfl, Writer.DraftsLe.drop hs ha⟩
    | idle => exact ha.elim
  | panic c hw =>
    cases a with
    | busy d => exact ⟨_, rfl, Writer.DraftsLe.panic hs ha hw⟩
    | idle => exact ha.elim

/-- **A run keeps the order.** From a reachable state at or above `a`, any run leads to a
state at or above what the store makes of `a` on the same events. -/
theorem Sys.Runs.refinesLe (h : s.Runs es s') (hs : Reachable s) (ha : s.RefinesLe a) :
    ∃ a', a.run es = some a' ∧ s'.RefinesLe a' := by
  induction h generalizing a with
  | nil => exact ⟨a, rfl, ha⟩
  | cons hd _ ih =>
    obtain ⟨a', hnext, ha'⟩ := hd.refinesLe hs ha
    rw [TableSys.run_cons hnext]
    exact ih (hd.reachable hs) ha'

/-- **The table of any run is at or above the store's.** On a batch reachable from the
empty batch, take any run that ends between transactions, with no condition on its
calls. The store accepts the same events, and the batch the run ends on, read as a
table, has the rows, the names and the types of the store's table, and its cells but
where the store has `false` and the batch reads `true`. -/
theorem run_table_le {b b' : MutableBatch} (hb : Reachable (.idle b)) {es : List Event}
    (h : (Sys.idle b).Runs es (.idle b')) :
    ∃ t, (TableSys.idle b.table).run es = some (.idle t) ∧ t.Le b'.table := by
  obtain ⟨a', hrun, ha'⟩ :=
    h.refinesLe hb (show (Sys.idle b).RefinesLe (.idle b.table) from Table.le_refl b.table)
  cases a' with
  | idle t => exact ⟨t, hrun, ha'⟩
  | busy => exact ha'.elim

/-- On the empty batch, a transaction of two rows fails a `write_bool` of one `true` to
`"f"`, retries it with `false` and `true`, and commits. -/
theorem run_table_le_after_retry :
    let es : List Event := [.new 2, .write (.bool "f" none [true]) (.error (.err .insufficientValues)),
      .write (.bool "f" none [false, true]) (.ok ()), .commit]
    let b' := (((Writer.new MutableBatch.new 2).write (.bool "f" none [true])).2.write
      (.bool "f" none [false, true])).2.commit.2.batch
    Reachable (.idle MutableBatch.new) ∧ (Sys.idle MutableBatch.new).Runs es (.idle b') ∧
      ∃ t, (TableSys.idle MutableBatch.new.table).run es = some (.idle t) ∧ t.Le b'.table :=
  have hrun : (Sys.idle MutableBatch.new).Runs
      [.new 2, .write (.bool "f" none [true]) (.error (.err .insufficientValues)),
        .write (.bool "f" none [false, true]) (.ok ()), .commit]
      (.idle (((Writer.new MutableBatch.new 2).write (.bool "f" none [true])).2.write
        (.bool "f" none [false, true])).2.commit.2.batch) :=
    .cons (.new _ 2) <| .cons (.write _ (Prod.ext rfl rfl) rfl) <|
      .cons (.write _ (Prod.ext rfl rfl) rfl) <| .cons (.commit (Prod.ext rfl rfl)) (.nil _)
  ⟨.refl, hrun, run_table_le .refl hrun⟩

/-- After that run the batch reads `true` in row 0 of `"f"`, where the store has the
`false` of the retry. -/
example :
    let b' := (((Writer.new MutableBatch.new 2).write (.bool "f" none [true])).2.write
      (.bool "f" none [false, true])).2.commit.2.batch
    b'.table.column "f" = some (.field .boolean,
        [some (.inr (.inr (.inr (.inr true)))), some (.inr (.inr (.inr (.inr true))))]) ∧
      (((TableSys.idle MutableBatch.new.table).run
        [.new 2, .write (.bool "f" none [true]) (.error (.err .insufficientValues)),
          .write (.bool "f" none [false, true]) (.ok ()), .commit]).bind fun
          | .idle t => t.column "f"
          | .busy _ => none) = some (.field .boolean,
        [some (.inr (.inr (.inr (.inr false)))), some (.inr (.inr (.inr (.inr true))))]) := by
  constructor <;> rfl

end BatchWriter
