import BatchWriter.Writer
import Mathlib.Data.List.Sort

/-!
# Commit and rollback

A writer ends in one of two ways. `commit` walks the columns by position: a
column whose bitset still has `initial_rows` bits received no successful write
and is padded with nulls; any other must have exactly `initial_rows + to_insert`
bits and takes the next pending record, sorted by position, into its statistics.
Then the row count moves on.

A writer that is dropped without having committed rolls the batch back instead:
every column, including those the transaction created, is cut back to
`initial_rows` rows, and a tag column's dictionary is truncated to the greatest
code its retained rows still hold (`BatchWriter.ColumnData.truncate`). The
columns and their names stay.

`commit` can panic before it starts, when `initial_rows + to_insert` passes
`usize::MAX`, or half way (an `assert_eq!`, the `unwrap` of the next record, the
`unreachable!` of the merge); the writer is then dropped during unwinding with
`success` still unset, and the rollback runs over what the walk has done so far.
The model keeps that state too.
-/

namespace BatchWriter

/-- The walk of `commit` over the columns, from position `col_idx` on, against the
pending records that remain, sorted by position. -/
def commitColumns (initial_rows final_rows : Nat) :
    Nat → List Column → List (Nat × Statistics) → Except Exit Unit × List Column
  | _, [], _ => (.ok (), [])
  | col_idx, col :: cols, statistics =>
    if col.valid.length = initial_rows then
      let (r, cols) := commitColumns initial_rows final_rows (col_idx + 1) cols statistics
      (r, col.pushNullsToLen final_rows :: cols)
    else if col.valid.length ≠ final_rows then (.error (.panic .commitRows), col :: cols)
    else
      match statistics with
      | [] => (.error (.panic .missingStatistics), col :: cols)
      | (stats_col_idx, stats) :: statistics =>
        if stats_col_idx ≠ col_idx then (.error (.panic .statisticsIndex), col :: cols)
        else
          match col.mergeStatistics stats with
          | none => (.error (.panic .unreachable), col :: cols)
          | some col =>
            let (r, cols) := commitColumns initial_rows final_rows (col_idx + 1) cols statistics
            (r, col :: cols)

namespace Writer

/-- `commit()` once `final_rows` is known. The pending records are sorted by column
position (`sort_unstable_by_key`; the positions of the records of a transaction are
distinct, so every sort gives the same list), then `commitColumns`. -/
def commitRows (w : Writer) (final_rows : Nat) : Except Exit Unit × Writer :=
  let statistics := w.statistics.insertionSort fun a b => a.1 ≤ b.1
  match commitColumns w.initialRows final_rows 0 w.batch.columns statistics with
  | (.error x, columns) => (.error x, { w with batch := { w.batch with columns } })
  | (.ok (), columns) =>
    (.ok (), { w with batch := { w.batch with columns, rowCount := final_rows }, success := true })

/-- `commit()`: `let final_rows = initial_rows + self.to_insert`, a `usize` sum that
panics past `usize::MAX` before anything has changed, then
`BatchWriter.Writer.commitRows`. -/
def commit (w : Writer) : Except Exit Unit × Writer :=
  if usizeMax < w.initialRows + w.toInsert then (.error (.panic .addOverflow), w)
  else w.commitRows (w.initialRows + w.toInsert)

theorem commit_of_overflow {w : Writer} (h : usizeMax < w.initialRows + w.toInsert) :
    w.commit = (.error (.panic .addOverflow), w) :=
  if_pos h

theorem commit_of_le {w : Writer} (h : w.initialRows + w.toInsert ≤ usizeMax) :
    w.commit = w.commitRows (w.initialRows + w.toInsert) :=
  if_neg (Nat.not_lt.mpr h)

/-- A commit that completes had `initial_rows + to_insert` within `usize::MAX`. -/
theorem le_usizeMax_of_commit {w w' : Writer} (h : w.commit = (.ok (), w')) :
    w.initialRows + w.toInsert ≤ usizeMax := by
  by_contra hlt
  rw [commit_of_overflow (Nat.lt_of_not_le hlt)] at h
  cases h

/-- `Drop for Writer`: the batch the writer leaves behind. Unless it has committed,
every column is cut back to `initial_rows`. -/
def drop (w : Writer) : MutableBatch :=
  if w.success then w.batch
  else { w.batch with columns := w.batch.columns.map (·.truncate w.initialRows) }

end Writer

end BatchWriter
