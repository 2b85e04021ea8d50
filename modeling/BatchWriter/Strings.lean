import BatchWriter.Reach

/-!
# The store of `write_string`

Unlike every other typed write, `write_string` does not grow its store by
`to_insert` slots up front. Each value is appended after padding the store with
empty strings up to the value's row, `col_data.extend(initial_rows + idx - col_data.len())`,
and nothing pads the store after the last value.

Two things follow from that one line. A successful write leaves the store ending at
its last set row, not at `initial_rows + to_insert`
(`BatchWriter.stringArm_store_length`), so a mask whose last rows are null leaves
the store shorter than the validity bitmap. And the `usize` subtraction underflows,
a panic, as soon as the store already reaches past the first row the write sets
(`BatchWriter.stringArm_of_store_past`): after a failed `write_string` has appended
some values, writing to the column again in the same transaction panics.
-/

namespace BatchWriter

section Store

variable {initial_rows : Nat}

/-- A loop of `write_string` that succeeds over sorted positions, on a store that
ends at or before the first of them, leaves the store ending at its last position. -/
theorem fillLoop_putString_length {ps : List Nat} {vs : List String}
    {data data' : List String} {stats stats' : StatValues String}
    (hsorted : ps.Pairwise (· < ·)) (hlen : ∀ p ∈ ps, data.length ≤ initial_rows + p)
    (h : fillLoop (putString initial_rows) ps vs data stats = (.ok (), data', stats')) :
    data'.length = (ps.getLast?.map fun p => initial_rows + p + 1).getD data.length := by
  induction ps generalizing vs data stats with
  | nil =>
    simp only [fillLoop, Prod.mk.injEq] at h
    simp [h.2.1]
  | cons p ps ih =>
    cases vs with
    | nil => simp [fillLoop] at h
    | cons v vs =>
      have hp := hlen p (List.mem_cons_self _ _)
      simp only [fillLoop, putString, if_pos hp] at h
      have hput : (data ++ List.replicate (initial_rows + p - data.length) "" ++ [v]).length =
          initial_rows + p + 1 := by simp; omega
      rw [ih (List.pairwise_cons.mp hsorted).2 (fun q hq => ?_) h, hput]
      · cases ps <;> simp [List.getLast?_cons]
      · have := List.rel_of_pairwise_cons hsorted hq
        omega

/-- **A successful `write_string` leaves its store ending at the last set row**, on a
column whose store had `initial_rows` strings: `initial_rows + to_insert` only when
the last row is set. -/
theorem stringArm_store_length {positions : List Nat} {values : List String}
    {col_data : List String} {s : StatValues String} {d : ColumnData} {stats : StatValues String}
    (hsorted : positions.Pairwise (· < ·)) (hlen : col_data.length = initial_rows)
    (h : stringArm initial_rows positions values (.string col_data s) = some (.ok (), d, stats)) :
    d.len = (positions.getLast?.map fun p => initial_rows + p + 1).getD initial_rows := by
  simp only [stringArm, Option.some.injEq, Prod.mk.injEq] at h
  obtain ⟨hr, rfl, -⟩ := h
  rw [ColumnData.len, fillLoop_putString_length hsorted (fun p _ => by omega) (Prod.ext hr rfl),
    hlen]

/-- `write_string` of one value under the mask `0b01` over two rows, on an empty batch:
the call succeeds with two validity bits and a store of one string. -/
theorem writeString_short_store :
    ((Writer.new MutableBatch.new 2).writeString "s" (some [1]) ["a"]).1 = .ok () ∧
      ((Writer.new MutableBatch.new 2).writeString "s" (some [1]) ["a"]).2.batch.columns.map
        (fun col => (col.valid.length, col.data.len)) = [(2, 1)] :=
  ⟨rfl, by decide⟩

/-- **`write_string` panics on a store that reaches past its first set row**: the first
step of its loop computes `initial_rows + idx - col_data.len()` below zero. -/
theorem stringArm_of_store_past {p : Nat} {ps : List Nat} {v : String} {vs : List String}
    {col_data : List String} {s : StatValues String} (h : initial_rows + p < col_data.length) :
    stringArm initial_rows (p :: ps) (v :: vs) (.string col_data s) =
      some (.error (.panic .subtractOverflow), .string col_data s, StatValues.newEmpty) := by
  simp [stringArm, fillLoop, putString, Nat.not_le.mpr h]

/-- On an empty batch, a `write_string` of one value over two rows fails with
`InsufficientValues` after appending it; the writer is reachable, and writing the
column again panics. -/
theorem writeString_retry_panics :
    ((Writer.new MutableBatch.new 2).write (.string "s" none ["a"])).1 =
        .error (.err .insufficientValues) ∧
      Reachable (.busy ((Writer.new MutableBatch.new 2).write (.string "s" none ["a"])).2) ∧
      (((Writer.new MutableBatch.new 2).write (.string "s" none ["a"])).2.write
        (.string "s" none ["a", "b"])).1 = .error (.panic .subtractOverflow) :=
  ⟨rfl, .tail (.single (.new _ 2)) (.write (.string "s" none ["a"]) (Prod.ext rfl rfl) (by rfl)),
    rfl⟩

end Store

end BatchWriter
