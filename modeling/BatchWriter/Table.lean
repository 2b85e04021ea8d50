import BatchWriter.Stable
import BatchWriter.Recover

/-!
# The batch as a table

What a `MutableBatch` is for: a table, with a number of rows and, under each column
name, a type and one cell per row, the value of the row or null
(`BatchWriter.Table`). Its stores, validity bitsets, dictionaries and statistics are
how the code keeps that table; `BatchWriter.MutableBatch.table` reads the table back,
taking the value of every set row and null elsewhere.

A transaction whose calls, to distinct names, all succeed does to that table what the
spec says a write does (`BatchWriter.Table.commit`): every row before the transaction
keeps its cell; under a name a call wrote, the new rows hold the call's cells, the
`j`-th value at the `j`-th set bit of the mask and null at every unset bit; every other
column gets null cells; and a column the transaction created has null cells for the
rows before it. `BatchWriter.commit_table` proves that the code's commit refines this
table semantics, from every batch reachable from the empty one. A transaction that is
dropped, whatever its calls returned, leaves the table as it was, but for the names it
registered, which stay with null cells (`BatchWriter.drop_table`); the columns
themselves need not come back, since a tag dictionary is cut at the greatest code the
kept rows hold.

One fact about the stores is needed beyond what the other files prove. `write_bool`
grows its store with `append_unset` and sets only the bits of its `true` values, so it
reads the bits of a `false` value from the store. A failed `write_bool` leaves set bits
behind it, but only in the rows of its own transaction, which then become null rows or
the rows of a retry (`BatchWriter.Rows`). Past the rows of a state, no boolean store has
a set bit (`BatchWriter.reachable_clearOk`), so a later transaction finds its rows clear.

| fact | theorem |
|---|---|
| the cells of a call are its mask filled in order | `BatchWriter.maskCells_forall₂` |
| a call that succeeds appends its cells | `BatchWriter.WriteCall.cells_apply` |
| on any boolean store, cells at or above its own | `BatchWriter.WriteCall.cells_apply_le` |
| boolean stores are clear past their rows | `BatchWriter.reachable_clearOk` |
| a commit appends the transaction's cells | `BatchWriter.commit_table` |
| a call keeps what a writer has under new names | `BatchWriter.Writer.NewFrom.write` |
| a drop gives the table back | `BatchWriter.drop_table` |
-/

namespace BatchWriter

/-! ### Cells -/

/-- A cell of a table: the value of a row, or null. -/
abbrev Cell := Option (Float ⊕ Int ⊕ UInt64 ⊕ String ⊕ Bool)

/-- The cells a mask makes of values: at each set bit the next value, null at each
unset bit. -/
def maskCells : List Bool → List (Float ⊕ Int ⊕ UInt64 ⊕ String ⊕ Bool) → List Cell
  | [], _ => []
  | true :: bits, values => values.head? :: maskCells bits values.tail
  | false :: bits, values => none :: maskCells bits values

/-- The positions of the set bits, in increasing order. -/
def setPositions : List Bool → List Nat
  | [] => []
  | true :: bits => 0 :: (setPositions bits).map (· + 1)
  | false :: bits => (setPositions bits).map (· + 1)

@[simp] theorem length_maskCells (bits : List Bool)
    (values : List (Float ⊕ Int ⊕ UInt64 ⊕ String ⊕ Bool)) :
    (maskCells bits values).length = bits.length := by
  induction bits generalizing values with
  | nil => rfl
  | cons b bits ih => cases b <;> simp [maskCells, ih]

theorem setPositions_eq_filter (bits : List Bool) :
    setPositions bits = (List.range bits.length).filter fun p => bits[p]?.getD false := by
  induction bits with
  | nil => rfl
  | cons b bits ih =>
    rw [List.length_cons, List.range_succ_eq_map, List.filter_cons, List.filter_map]
    cases b <;> simp [setPositions, ih, Function.comp_def]

/-- The positions the loop of a typed write visits are the set bits of its validity
bits. -/
theorem setPositionIterator_eq_setPositions (valid_mask : Option (List UInt8)) (n : Nat) :
    setPositionIterator valid_mask n = setPositions (validBits valid_mask n) := by
  rw [setPositions_eq_filter, length_validBits]
  cases valid_mask with
  | none =>
    exact (List.filter_eq_self.mpr fun p hp => by
      simp [validBits, List.getElem?_replicate, List.mem_range.mp hp]).symm
  | some mask =>
    rw [setPositionIterator_some]
    exact List.filter_congr fun p hp => by simp [validBits, List.mem_range.mp hp]

/-- **The cells of a mask, read position by position**, up to a relation `R` on cells. A
reading `f` of the positions of a mask that stands in `R` to the `k`-th value at the
`k`-th set bit, and to null at every unset bit, stands in `R` to the mask's cells, cell
by cell; for `R` equality, it is the mask's cells. -/
theorem maskCells_forall₂ (R : Cell → Cell → Prop) (bits : List Bool)
    (values : List (Float ⊕ Int ⊕ UInt64 ⊕ String ⊕ Bool))
    (f : Nat → Cell) (hlen : (setPositions bits).length ≤ values.length)
    (hset : ∀ k (hk : k < (setPositions bits).length), R values[k]? (f ((setPositions bits)[k])))
    (hunset : ∀ p, bits[p]? = some false → R none (f p)) :
    List.Forall₂ R (maskCells bits values) ((List.range bits.length).map f) := by
  induction bits generalizing f values with
  | nil => exact .nil
  | cons b bits ih =>
    rw [List.length_cons, List.range_succ_eq_map, List.map_cons, List.map_map]
    cases b with
    | false =>
      simp only [setPositions, List.length_map] at hlen hset
      exact .cons (hunset 0 (by simp)) (ih values (f ∘ (· + 1)) hlen
        (fun k hk => by simpa using hset k hk) fun p hp => hunset (p + 1) (by simpa using hp))
    | true =>
      cases values with
      | nil => simp [setPositions] at hlen
      | cons v values =>
        simp only [setPositions, List.length_cons, List.length_map] at hlen hset
        exact .cons (by simpa using hset 0 (by omega))
          (ih values (f ∘ (· + 1)) (by omega) (fun k hk => by simpa using hset (k + 1) (by omega))
            fun p hp => hunset (p + 1) (by simpa using hp))

/-! ### The cells of a call -/

/-- The values a call supplies, read as row values: a tag's are strings, and
`write_tag_dict`'s the strings its keys stand for in its table. -/
def WriteCall.rowValues : WriteCall → List (Float ⊕ Int ⊕ UInt64 ⊕ String ⊕ Bool)
  | .f64 _ _ values => values.map .inl
  | .i64 _ _ values => values.map (.inr ∘ .inl)
  | .u64 _ _ values => values.map (.inr ∘ .inr ∘ .inl)
  | .bool _ _ values => values.map (.inr ∘ .inr ∘ .inr ∘ .inr)
  | .string _ _ values => values.map (.inr ∘ .inr ∘ .inr ∘ .inl)
  | .tag _ _ values => values.map (.inr ∘ .inr ∘ .inr ∘ .inl)
  | .tagDict _ _ keys values => (keys.map (tableAt values)).map (.inr ∘ .inr ∘ .inr ∘ .inl)
  | .time _ values => values.map (.inr ∘ .inl)

/-- The cells a call writes over `to_insert` rows, as the spec says: "for each set bit
in `valid_mask` a value from `values` is inserted at the corresponding index in the
column; nulls are inserted for the other rows". -/
def WriteCall.cells (to_insert : Nat) (c : WriteCall) : List Cell :=
  maskCells (validBits c.validMask to_insert) c.rowValues

@[simp] theorem WriteCall.length_cells (to_insert : Nat) (c : WriteCall) :
    (c.cells to_insert).length = to_insert := by
  simp [WriteCall.cells]

/-! ### The cells of a column -/

/-- The cell of row `r` of a column: its value when its validity bit is set, null
otherwise. -/
def Column.cell (col : Column) (r : Nat) : Cell :=
  if col.valid[r]? = some true then col.data.value? r else none

/-- The first `R` cells of a column. -/
def Column.cells (R : Nat) (col : Column) : List Cell :=
  (List.range R).map col.cell

namespace Column

variable {col col' : Column} {i n : Nat}

@[simp] theorem length_cells (R : Nat) (col : Column) : (col.cells R).length = R := by
  simp [cells]

theorem cells_add (col : Column) (i n : Nat) :
    col.cells (i + n) = col.cells i ++ (List.range n).map fun p => col.cell (i + p) := by
  simp [cells, List.range_add, Function.comp_def]

/-- A column whose first `R` validity bits are unset has only null cells there. -/
theorem cells_of_unset {R : Nat} (h : ∀ r < R, col.valid[r]? ≠ some true) :
    col.cells R = List.replicate R none := by
  refine List.eq_replicate_iff.mpr ⟨length_cells R col, fun c hc => ?_⟩
  obtain ⟨r, hr, rfl⟩ := List.mem_map.mp hc
  simp [cell, h r (List.mem_range.mp hr)]

theorem cells_new (rows : Nat) (t : InfluxColumnType) : (Column.new rows t).cells rows =
    List.replicate rows none :=
  cells_of_unset fun r _ => by simp [List.getElem?_replicate]

/-- A column that still holds what `c₀` held in its first `R` rows has its cells there. -/
theorem cells_of_stable {R : Nat} {c₀ : Column} (h : c₀.Stable R col) (hf : c₀.Filled)
    (hv : c₀.valid.length = R) : col.cells R = c₀.cells R := by
  refine List.map_congr_left fun r hr => ?_
  have hr : r < R := List.mem_range.mp hr
  obtain ⟨b, hb⟩ : ∃ b, c₀.valid[r]? = some b :=
    ⟨_, List.getElem?_eq_getElem (hv ▸ hr)⟩
  unfold cell
  rw [(h r hr).1 b hb, hb]
  split
  · rename_i hset
    obtain ⟨v, hv₀⟩ := Option.isSome_iff_exists.mp (hf.values r (hb.trans hset))
    rw [hv₀, (h r hr).2 v hv₀]
  · rfl

/-- A column that keeps the first `i` rows of a column has their cells. -/
theorem cells_of_keeps (hk : col.Keeps i col') (hf : col.Filled) (hv : col.valid.length = i) :
    col'.cells i = col.cells i :=
  cells_of_stable ((Stable.refl i col).keeps hk le_rfl) hf hv

/-- Padding a column of `i` rows with nulls appends null cells. -/
theorem cells_pushNullsToLen (hf : col.Filled) (hv : col.valid.length = i) (n : Nat) :
    (col.pushNullsToLen (i + n)).cells (i + n) = col.cells i ++ List.replicate n none := by
  rw [cells_add, cells_of_stable ((Stable.refl i col).commitsTo (.inr (.inl rfl))) hf hv]
  -- the rows it pads are null
  refine congrArg _ (List.eq_replicate_iff.mpr ⟨by simp, fun c hc => ?_⟩)
  obtain ⟨p, hp, rfl⟩ := List.mem_map.mp hc
  have hnull : (col.pushNullsToLen (i + n)).valid[i + p]? = some false := by
    rw [valid_pushNullsToLen, List.getElem?_append_right (by omega)]
    simp [hv, List.getElem?_replicate, List.mem_range.mp hp]
  rw [cell, hnull]
  rfl

theorem cells_mergeStatistics {rec : Statistics} (hm : col.mergeStatistics rec = some col')
    (R : Nat) : col'.cells R = col.cells R := by
  have : col'.cell = col.cell :=
    funext fun r => by simp only [cell, (mergeStatistics_shape hm).2.1, value?_mergeStatistics hm]
  rw [cells, cells, this]

end Column

/-! ### Boolean stores are clear past their rows -/

/-- No bit of a boolean store is set from row `R` on. A store of any other variant
holds no bits, and is clear by definition. -/
def ColumnData.ClearFrom (R : Nat) : ColumnData → Prop
  | .bool col_data _ => ∀ k, R ≤ k → col_data[k]? ≠ some true
  | _ => True

/-- `append_unset` keeps bits clear from `R` on. -/
theorem clear_append_unset {R : Nat} {bits : List Bool}
    (h : ∀ k, R ≤ k → bits[k]? ≠ some true) (m : Nat) : ∀ k, R ≤ k → (bits ++ List.replicate m false)[k]? ≠ some true := by
  intro k hk
  rcases Nat.lt_or_ge k bits.length with hl | hl
  · rw [List.getElem?_append_left hl]
    exact h k hk
  · rw [List.getElem?_append_right hl, List.getElem?_replicate]
    split <;> simp

namespace ColumnData

variable {R R' : Nat} {d : ColumnData}

theorem ClearFrom.mono (h : d.ClearFrom R) (hR : R ≤ R') : d.ClearFrom R' := by
  cases d <;> first | trivial | exact fun k hk => h k (hR.trans hk)

theorem clearFrom_of_storage (h : d.storage ≠ .bool) : d.ClearFrom R := by
  cases d
  case bool => exact absurd rfl h
  all_goals trivial

theorem clearFrom_new (rows : Nat) (t : InfluxColumnType) :
    (ColumnData.new rows t).ClearFrom R := by
  cases t with
  | field f => cases f <;> first | trivial | exact fun k _ => by simp [new, List.getElem?_replicate]
  | _ => trivial

theorem ClearFrom.pushNulls (h : d.ClearFrom R) (delta : Nat) :
    (d.pushNulls delta).ClearFrom R := by
  cases d <;> first | trivial | exact clear_append_unset h delta

theorem clearFrom_truncate (d : ColumnData) (R : Nat) : (d.truncate R).ClearFrom R := by
  cases d <;> try trivial
  intro k hk
  rw [List.getElem?_eq_none (by simp; omega)]
  simp

end ColumnData

theorem Column.clearFrom_mergeStatistics {R : Nat} {col col' : Column} {rec : Statistics}
    (hm : col.mergeStatistics rec = some col') (h : col.data.ClearFrom R) :
    col'.data.ClearFrom R := by
  rcases col with ⟨t, v, d⟩
  cases d <;> cases rec <;> simp [Column.mergeStatistics] at hm <;> subst hm <;> exact h

/-- The columns a commit leaves are clear where the columns before it were. -/
theorem CommitsTo.clearFrom {R final_rows : Nat} {col col' : Column}
    (h : CommitsTo final_rows col col')
    (hc : col.data.ClearFrom R) : col'.data.ClearFrom R := by
  rcases h with rfl | rfl | ⟨rec, hm⟩
  · exact hc
  · exact hc.pushNulls _
  · exact Column.clearFrom_mergeStatistics hm hc

/-- A step of the loop of `write_bool` touches only the bit of its own row. -/
theorem putBool_getElem?_of_ne {i idx k : Nat} {b : Bool} {t : List Bool} (h : k ≠ i + idx) :
    (putBool i idx b t).2[k]? = t[k]? := by
  unfold putBool BitSet.set
  split_ifs <;> simp [List.getElem?_set_ne (Ne.symm h)]

section BoolArm

variable {i n : Nat} {ps : List Nat} {vs : List Bool} {d d' : ColumnData} {r : Except Exit Unit}
  {stats : StatValues Bool}

/-- The arm of `write_bool` sets bits only in the rows of its positions. -/
theorem boolArm_clearFrom (hlt : ∀ p ∈ ps, p < n) (h : d.ClearFrom (i + n))
    (hb : boolArm i n ps vs d = some (r, d', stats)) : d'.ClearFrom (i + n) := by
  cases d <;> simp only [boolArm, Option.some.injEq, Prod.mk.injEq, reduceCtorEq] at hb
  obtain ⟨-, rfl, -⟩ := hb
  exact fillLoop_invariant (putBool i) (fun t => ∀ k, i + n ≤ k → t[k]? ≠ some true)
    (fun idx hidx _ t ht k hk => by
      rw [putBool_getElem?_of_ne (by have := hlt idx hidx; omega)]
      exact ht k hk)
    (clear_append_unset h n)

end BoolArm

section Resolved

variable {α : Type} {n R : Nat} {valid_mask : Option (List UInt8)}
  {wrap : StatValues α → Statistics}
  {body : ColumnData → Option (Except Exit Unit × ColumnData × StatValues α)} {col : Column}

theorem writeResolved_clearFrom
    (hb : ∀ r d stats, body col.data = some (r, d, stats) → d.ClearFrom R)
    (h : col.data.ClearFrom R) :
    (writeResolved n valid_mask wrap body col).2.1.data.ClearFrom R := by
  cases hbody : body col.data with
  | none =>
    simp only [writeResolved, hbody]
    exact h
  | some x =>
    obtain ⟨r, d, stats⟩ := x
    rw [data_writeResolved hbody]
    exact hb _ _ _ hbody

/-- An arm that leaves a store of another variant than a boolean one leaves it clear. -/
theorem clearFrom_of_armSpec {sto : Storage} (hs : ArmSpec sto body) (hne : sto ≠ .bool) :
    ∀ r d stats, body col.data = some (r, d, stats) → d.ClearFrom R :=
  fun _ _ _ hb => ColumnData.clearFrom_of_storage ((hs.storage _ _ _ _ hb).trans_ne hne)

end Resolved

/-- **A call keeps the stores clear past the rows of its transaction**, whatever it
returns: `write_bool` sets only bits of rows below `initial_rows + to_insert`. -/
theorem WriteCall.apply_clearFrom (c : WriteCall) {i n : Nat} {col : Column}
    (h : col.data.ClearFrom (i + n)) : (c.apply i n col).2.1.data.ClearFrom (i + n) := by
  cases c with
  | bool _ m vs =>
    exact writeResolved_clearFrom
      (fun _ _ _ => boolArm_clearFrom (fun _ => lt_of_mem_setPositionIterator) h) h
  | f64 =>
    exact writeResolved_clearFrom
      (clearFrom_of_armSpec (armSpec_fixed _ _ _ FixedWidth.lawful_f64 _) (by decide)) h
  | i64 =>
    exact writeResolved_clearFrom
      (clearFrom_of_armSpec (armSpec_fixed _ _ _ FixedWidth.lawful_i64 _) (by decide)) h
  | u64 =>
    exact writeResolved_clearFrom
      (clearFrom_of_armSpec (armSpec_fixed _ _ _ FixedWidth.lawful_u64 _) (by decide)) h
  | string =>
    exact writeResolved_clearFrom (clearFrom_of_armSpec (armSpec_string _ _ _) (by decide)) h
  | tag => exact writeResolved_clearFrom (clearFrom_of_armSpec (armSpec_tag _ _ _ _) (by decide)) h
  | tagDict =>
    exact writeResolved_clearFrom (clearFrom_of_armSpec (armSpec_tagDict _ _ _ _ _) (by decide)) h
  | time =>
    exact writeResolved_clearFrom
      (clearFrom_of_armSpec (armSpec_fixed _ _ _ FixedWidth.lawful_i64 _) (by decide)) h

/-- The rows of a state: `row_count` between transactions, and during one the rows the
batch has once it commits. -/
def Sys.rowBound : Sys → Nat
  | .idle b => b.rowCount
  | .busy w => w.initialRows + w.toInsert

/-- No boolean store of a state has a bit set past the state's rows. -/
def Sys.ClearOk (s : Sys) : Prop := ∀ col ∈ s.batch.columns, col.data.ClearFrom s.rowBound

/-- Every step keeps the boolean stores clear past the rows, on a state of the right
shape and rows. -/
theorem Step.clearOk {s t : Sys} (h : Step s t) (hshape : s.ShapeOk) (hrows : s.RowsOk)
    (hs : s.ClearOk) : t.ClearOk := by
  cases h with
  | new b n => exact fun col hc => (hs col hc).mono (Nat.le_add_right _ _)
  | @write w w' _ c hw _ =>
    obtain ⟨hi, hn, -⟩ := Writer.write_frame hshape.1 hw
    show ∀ col ∈ w'.batch.columns, col.data.ClearFrom (w'.initialRows + w'.toInsert)
    rw [hi, hn]
    exact Writer.write_columns hshape.1 hs (ColumnData.clearFrom_new _ _)
      (fun col hc _ _ _ => c.apply_clearFrom hc) hw
  | @commit w w' hw =>
    show ∀ col ∈ w'.batch.columns, col.data.ClearFrom w'.batch.rowCount
    rw [(Writer.commit_eq_ok hw).2.2]
    exact forall_mem_of_forall₂ (Writer.commit_forall₂ hw) (fun hr hc => hr.clearFrom hc) hs
  | drop w =>
    show ∀ col ∈ w.drop.columns, col.data.ClearFrom w.drop.rowCount
    rw [Writer.drop_columns_of_not_success hrows.not_success, Writer.drop_rowCount, ← hrows.rows]
    intro col hcol
    obtain ⟨x, -, rfl⟩ := List.mem_map.mp hcol
    exact ColumnData.clearFrom_truncate _ _

/-- **No boolean store has a bit set past the rows, in every reachable state.** A failed
`write_bool` leaves set bits behind it only in the rows of its own transaction. -/
theorem reachable_clearOk {s : Sys} (h : Reachable s) : s.ClearOk := by
  induction h with
  | refl => exact fun _ h => by cases h
  | tail hr hstep ih => exact hstep.clearOk (reachable_shapeOk hr) (reachable_rowsOk hr) ih

/-! ### The loop of `write_bool`, row by row -/

section Loop

variable {α β σ : Type} [LT α] [DecidableRel (α := α) (· < ·)]
  (put : Nat → β → σ → Except Exit α × σ)

/-- **A loop over distinct positions, read row by row.** When a fact `F q` of the
state holds at the start for every position `q` of the loop, and a step at another
position keeps it, a step that succeeds can rely on `F` of its own position; what it
then makes true of its position and item, and steps at other positions keep, holds at
the end for every position and the item the loop took there. -/
theorem fillLoop_zip_frame (F : Nat → σ → Prop) (Q : Nat → β → σ → Prop)
    (hF : ∀ q idx b s, q ≠ idx → F q s → F q (put idx b s).2)
    (hset : ∀ idx b s a, F idx s → (put idx b s).1 = .ok a → Q idx b (put idx b s).2)
    (hkeep : ∀ q c idx b s, q ≠ idx → Q q c s → Q q c (put idx b s).2)
    {idxs : List Nat} {bs : List β} {s s' : σ} {stats stats' : StatValues α} (hnd : idxs.Nodup)
    (hs : ∀ q ∈ idxs, F q s) (h : fillLoop put idxs bs s stats = (.ok (), s', stats')) :
    ∀ pb ∈ idxs.zip bs, Q pb.1 pb.2 s' := by
  induction idxs generalizing bs s stats with
  | nil => simp
  | cons idx idxs ih =>
    cases bs with
    | nil => simp [fillLoop] at h
    | cons b bs =>
      simp only [fillLoop] at h
      split at h
      · simp at h
      · rename_i a s₁ hput
        obtain ⟨hidx, hnd⟩ := List.nodup_cons.mp hnd
        intro pb hpb
        rw [List.zip_cons_cons, List.mem_cons] at hpb
        rcases hpb with rfl | hpb
        · -- the step at this position, kept by every later step at another position
          have hQ : Q idx b s₁ := by
            simpa [hput] using hset idx b s a (hs idx (List.mem_cons_self _ _)) (by rw [hput])
          have hend : Q idx b (fillLoop put idxs bs s₁ (stats.update a)).2.1 :=
            fillLoop_invariant put (Q idx b)
              (fun i hi b' t ht => hkeep idx b i b' t (fun he => hidx (he ▸ hi)) ht) hQ
          rwa [h] at hend
        · refine ih hnd (fun q hq => ?_) h pb hpb
          simpa [hput] using
            hF q idx b s (fun he => hidx (he ▸ hq)) (hs q (List.mem_cons_of_mem _ hq))

end Loop

/-- A step of the loop of `write_bool` that succeeds leaves its value in its row: it
sets the bit of a `true`, and finds the bit of a `false` unset. -/
theorem putBool_getElem?_self {i idx : Nat} {b a : Bool} {t : List Bool}
    (hok : (putBool i idx b t).1 = .ok a) (hf : t[i + idx]? = some false) :
    (putBool i idx b t).2[i + idx]? = some b := by
  unfold putBool BitSet.set at *
  cases b
  · exact hf
  · by_cases hl : i + idx < t.length
    · simp [hl, List.getElem?_set_self hl]
    · simp [hl] at hok

/-- After `append_unset(n)` on bits clear from row `i` on that reach row `i`, the rows
`i` to `i + n` are unset. -/
theorem getElem?_append_unset {i n q : Nat} {bits : List Bool}
    (h : ∀ k, i ≤ k → bits[k]? ≠ some true) (hl : i ≤ bits.length) (hq : q < n) :
    (bits ++ List.replicate n false)[i + q]? = some false := by
  rcases Nat.lt_or_ge (i + q) bits.length with hlt | hge
  · have hclear := h (i + q) (Nat.le_add_right _ _)
    rw [List.getElem?_append_left hlt, List.getElem?_eq_getElem hlt] at *
    simpa using hclear
  · rw [List.getElem?_append_right hge, List.getElem?_replicate]
    simp only [ite_eq_left_iff, reduceCtorEq, imp_false, not_not]
    omega

/-- **The arm of `write_bool` stores each value at its row**, on a store clear from row
`i` on that reaches row `i`: a `true` sets the bit of its row, and a `false` finds it
unset, appended by `append_unset` or clear already. -/
theorem boolArm_stores {i n : Nat} {ps : List Nat} {vs : List Bool} {d d' : ColumnData}
    {stats : StatValues Bool} (hnd : ps.Nodup) (hlt : ∀ p ∈ ps, p < n) (hc : d.ClearFrom i)
    (hl : i ≤ d.len) (hb : boolArm i n ps vs d = some (.ok (), d', stats)) :
    ps.length ≤ vs.length ∧
      ∀ pb ∈ ps.zip vs,
        d'.value? (i + pb.1) = some ((.inr ∘ .inr ∘ .inr ∘ .inr) pb.2) := by
  cases d <;> simp only [boolArm, Option.some.injEq, Prod.mk.injEq, reduceCtorEq] at hb
  obtain ⟨hok, rfl, -⟩ := hb
  have hL : _ = (Except.ok (), _) := Prod.ext hok rfl
  refine ⟨(fillLoop_ok _ hL).1, fun pb hpb => ?_⟩
  simp only [ColumnData.value?]
  rw [fillLoop_zip_frame (putBool i) (fun q t => t[i + q]? = some false)
    (fun q b t => t[i + q]? = some b)
    (fun q idx b t hne hq => by dsimp only at hq ⊢; rwa [putBool_getElem?_of_ne (by omega)])
    (fun idx b t a hf ha => putBool_getElem?_self ha hf)
    (fun q c idx b t hne hq => by dsimp only at hq ⊢; rwa [putBool_getElem?_of_ne (by omega)])
    hnd (fun q hq => getElem?_append_unset hc hl (hlt q hq)) hL pb hpb]
  rfl

/-! ### A call that succeeds appends its cells -/

section Cells

variable {α β : Type} {i n : Nat} {items : List β}
  {inj : β → Float ⊕ Int ⊕ UInt64 ⊕ String ⊕ Bool}
  {valid_mask : Option (List UInt8)} {wrap : StatValues α → Statistics}
  {body : ColumnData → Option (Except Exit Unit × ColumnData × StatValues α)} {col : Column}

/-- **A call appends its cells**, up to a relation `R` on cells that holds between nulls.
When its arm, if it succeeds, took an item for each position of the loop and left in the
position's row a value the item's cell stands in `R` to, the cells of its mask over its
items stand in `R` to the rows the call appends, cell by cell. -/
theorem writeResolved_cells_forall₂ (R : Cell → Cell → Prop) (hR : R none none)
    (hb : ∀ d stats, body col.data = some (.ok (), d, stats) →
      (setPositionIterator valid_mask n).length ≤ items.length ∧
        ∀ pb ∈ (setPositionIterator valid_mask n).zip items,
          R (some (inj pb.2)) (d.value? (i + pb.1)))
    (hv : col.valid.length = i) (h : (writeResolved n valid_mask wrap body col).1 = .ok ()) :
    List.Forall₂ R (maskCells (validBits valid_mask n) (items.map inj))
      ((List.range n).map fun p => (writeResolved n valid_mask wrap body col).2.1.cell (i + p)) := by
  obtain ⟨data, stats, hbody, heq⟩ := writeResolved_eq_ok h
  obtain ⟨hl, hs⟩ := hb _ _ hbody
  rw [setPositionIterator_eq_setPositions] at hl hs
  rw [heq]
  have hcell : ∀ p, ({ col with data, valid := col.valid ++ validBits valid_mask n } : Column).cell
      (i + p) = if (validBits valid_mask n)[p]? = some true then data.value? (i + p) else none :=
    fun p => by
      simp only [Column.cell, List.getElem?_append_right (show col.valid.length ≤ i + p by omega),
        hv, Nat.add_sub_cancel_left]
  have hcells := maskCells_forall₂ R (validBits valid_mask n) (items.map inj)
    (fun p =>
      ({ col with data, valid := col.valid ++ validBits valid_mask n } : Column).cell (i + p))
    (by simpa using hl)
    (fun k hk => ?_) (fun p hp => by beta_reduce; rw [hcell, hp]; exact hR)
  · rwa [length_validBits] at hcells
  · -- the `k`-th set bit holds the `k`-th item
    have hk' : k < ((setPositions (validBits valid_mask n)).zip items).length := by
      simp only [List.length_zip]
      omega
    have hmem := List.getElem_mem hk'
    rw [List.getElem_zip] at hmem
    have hbit : (validBits valid_mask n)[(setPositions (validBits valid_mask n))[k]]? = some true :=
      getElem?_validBits_eq_some_true.mpr
        (by rw [setPositionIterator_eq_setPositions]; exact List.getElem_mem hk)
    beta_reduce
    rw [hcell, hbit, if_pos rfl, List.getElem?_map, List.getElem?_eq_getElem (by omega)]
    exact hs _ hmem

/-- **A call whose arm stores the items it takes appends its cells.** When its arm, if
it succeeds, took an item for each position of the loop and stored it in the
position's row, the rows the call appends hold the cells of its mask over its items. -/
theorem writeResolved_cells
    (hb : ∀ d stats, body col.data = some (.ok (), d, stats) →
      (setPositionIterator valid_mask n).length ≤ items.length ∧
        ∀ pb ∈ (setPositionIterator valid_mask n).zip items,
          d.value? (i + pb.1) = some (inj pb.2))
    (hv : col.valid.length = i) (h : (writeResolved n valid_mask wrap body col).1 = .ok ()) :
    (List.range n).map (fun p => (writeResolved n valid_mask wrap body col).2.1.cell (i + p)) =
      maskCells (validBits valid_mask n) (items.map inj) := by
  have h₂ := writeResolved_cells_forall₂ (· = ·) rfl
    (fun d stats hd => ⟨(hb d stats hd).1, fun pb hpb => ((hb d stats hd).2 pb hpb).symm⟩) hv h
  rw [List.forall₂_eq_eq_eq] at h₂
  exact h₂.symm

end Cells

/-- **A call that succeeds appends its cells.** On a column of `i` rows whose set rows
hold values and whose boolean store is clear from row `i` on, the first `i` rows keep
their cells, and the `n` rows the call appends hold the cells of its mask over its
values. -/
theorem WriteCall.cells_apply (c : WriteCall) {i n : Nat} {col : Column}
    (hv : col.valid.length = i) (hf : col.Filled) (hc : col.data.ClearFrom i)
    (h : (c.apply i n col).1 = .ok ()) :
    (c.apply i n col).2.1.cells (i + n) = col.cells i ++ c.cells n := by
  rw [Column.cells_add, Column.cells_of_keeps c.apply_keeps hf hv]
  congr 1
  have hnd := fun m => (pairwise_setPositionIterator m n).nodup
  cases c with
  | f64 _ m vs =>
    exact writeResolved_cells
      (armStores_fixed FixedWidth.f64 .inl (fun _ _ _ => rfl) (hnd m) vs _) hv h
  | i64 _ m vs =>
    exact writeResolved_cells
      (armStores_fixed FixedWidth.i64 (.inr ∘ .inl) (fun _ _ _ => rfl) (hnd m) vs _) hv h
  | u64 _ m vs =>
    exact writeResolved_cells
      (armStores_fixed FixedWidth.u64 (.inr ∘ .inr ∘ .inl) (fun _ _ _ => rfl) (hnd m) vs _) hv h
  | bool _ m vs =>
    have hl : i ≤ col.data.len := by
      rw [← hv]
      exact hf.slots (by simp [WriteCall.storage_of_apply_ok _ h, WriteCall.influxType,
        InfluxColumnType.storage])
    exact writeResolved_cells
      (fun _ _ hb => boolArm_stores (hnd m) (fun _ => lt_of_mem_setPositionIterator) hc hl hb) hv h
  | string _ m vs => exact writeResolved_cells (armStores_string (hnd m) vs _) hv h
  | tag _ m vs => exact writeResolved_cells (armStores_tag (hnd m) vs _) hv h
  | tagDict name m keys table =>
    have he := WriteCall.apply_tagDict_of_ok h
    rw [he] at h ⊢
    exact writeResolved_cells (armStores_tag (hnd m) _ _) hv h
  | time _ vs =>
    exact writeResolved_cells
      (armStores_fixed FixedWidth.i64 (.inr ∘ .inl) (fun _ _ _ => rfl) (hnd none) vs _) hv h

/-! ### A boolean store with bits left set -/

/-- The order in which a cell of the batch can stand above the spec's: a cell is below
itself, and a `false` below a `true`. -/
def Cell.Le (x y : Cell) : Prop :=
  x = y ∨ x = some (.inr (.inr (.inr (.inr false)))) ∧ y = some (.inr (.inr (.inr (.inr true))))

theorem Cell.forall₂_le_refl (l : List Cell) : List.Forall₂ Cell.Le l l :=
  List.forall₂_same.mpr fun _ _ => .inl rfl

theorem Cell.le_bool {b x : Bool} (h : b ≤ x) :
    Cell.Le (some (.inr (.inr (.inr (.inr b))))) (some (.inr (.inr (.inr (.inr x))))) := by
  cases b <;> cases x
  case true.false => exact absurd h (by decide)
  all_goals simp [Cell.Le]

theorem InfluxColumnType.eq_boolean_of_storage {t : InfluxColumnType} (h : t.storage = .bool) :
    t = .field .boolean := by
  cases t with
  | field f => cases f <;> first | rfl | cases h
  | _ => cases h

/-- A step of the loop of `write_bool` at a row its store reaches leaves there a bit at
least its value: it sets the bit of a `true`, and keeps the bit under a `false`. -/
theorem putBool_le {i idx : Nat} {b : Bool} {t : List Bool} (hl : i + idx < t.length) :
    ∃ x, (putBool i idx b t).2[i + idx]? = some x ∧ b ≤ x := by
  unfold putBool BitSet.set
  cases b
  · exact ⟨_, List.getElem?_eq_getElem hl, Bool.false_le _⟩
  · simp [hl, List.getElem?_set_self hl]

/-- **The arm of `write_bool` on a store with bits left set.** On a store that reaches row
`i`, whatever bits it holds from there on, a `true` sets the bit of its row and a `false`
leaves the bit it finds, set or not: each row of the arm reads its value or `true`. -/
theorem boolArm_le {i n : Nat} {ps : List Nat} {vs : List Bool} {d d' : ColumnData}
    {stats : StatValues Bool} (hnd : ps.Nodup) (hlt : ∀ p ∈ ps, p < n) (hl : i ≤ d.len)
    (hb : boolArm i n ps vs d = some (.ok (), d', stats)) :
    ps.length ≤ vs.length ∧
      ∀ pb ∈ ps.zip vs,
        Cell.Le (some ((.inr ∘ .inr ∘ .inr ∘ .inr) pb.2)) (d'.value? (i + pb.1)) := by
  cases d <;> simp only [boolArm, Option.some.injEq, Prod.mk.injEq, reduceCtorEq] at hb
  rename_i t _
  obtain ⟨hok, rfl, -⟩ := hb
  have hL : _ = (Except.ok (), _) := Prod.ext hok rfl
  have hreach : ∀ q ∈ ps, i + q < (t ++ List.replicate n false).length := fun q hq => by
    simp only [ColumnData.len] at hl
    simp only [List.length_append, List.length_replicate]
    have := hlt q hq
    omega
  refine ⟨(fillLoop_ok _ hL).1, fun pb hpb => ?_⟩
  obtain ⟨x, hx, hle⟩ := fillLoop_zip_frame (putBool i) (fun q t => i + q < t.length)
    (fun q b t => ∃ x, t[i + q]? = some x ∧ b ≤ x)
    (fun q idx b t _ hq => by simpa using hq)
    (fun idx b t _ hf _ => putBool_le hf)
    (fun q c idx b t hne hq => by dsimp only at hq ⊢; rwa [putBool_getElem?_of_ne (by omega)])
    hnd hreach hL pb hpb
  simp only [ColumnData.value?, hx, Option.map_some']
  exact Cell.le_bool hle

/-- **A call that succeeds appends cells at or above its own.** On a column of `i` rows
whose set rows hold values, whatever its boolean store holds past row `i`, the first `i`
rows keep their cells, and the `n` rows the call appends hold the cells of its mask over
its values, but for a `true` a `write_bool` may read where it wrote `false`. -/
theorem WriteCall.cells_apply_le (c : WriteCall) {i n : Nat} {col : Column}
    (hv : col.valid.length = i) (hf : col.Filled) (h : (c.apply i n col).1 = .ok ()) :
    ∃ X, (c.apply i n col).2.1.cells (i + n) = col.cells i ++ X ∧
      List.Forall₂ Cell.Le (c.cells n) X := by
  by_cases hb : c.influxType = .field .boolean
  · -- a `write_bool`: each row reads its value or a bit left set
    rw [Column.cells_add, Column.cells_of_keeps c.apply_keeps hf hv]
    refine ⟨_, rfl, ?_⟩
    have hl : i ≤ col.data.len := by
      rw [← hv]
      exact hf.slots (by simp [WriteCall.storage_of_apply_ok _ h, hb, InfluxColumnType.storage])
    cases c with
    | bool _ m vs =>
      exact writeResolved_cells_forall₂ Cell.Le (.inl rfl)
        (fun _ _ hb => boolArm_le (pairwise_setPositionIterator m n).nodup
          (fun _ => lt_of_mem_setPositionIterator) hl hb) hv h
    | _ => simp [WriteCall.influxType] at hb
  · -- any other call: its store holds no bits, and the call appends exactly its cells
    have hc : col.data.ClearFrom i := ColumnData.clearFrom_of_storage fun hs =>
      hb (InfluxColumnType.eq_boolean_of_storage (c.storage_of_apply_ok h ▸ hs))
    exact ⟨_, c.cells_apply hv hf hc h, Cell.forall₂_le_refl _⟩

/-! ### Tables -/

/-- A table: a number of rows, and under each name a typed column of one cell per
row. -/
@[ext] structure Table where
  rowCount : Nat
  column : String → Option (InfluxColumnType × List Cell)
  length_cells : ∀ name e, column name = some e → e.2.length = rowCount

/-- The table a batch keeps: under each registered name, the column's type and the
cells of its `row_count` rows. -/
def MutableBatch.table (b : MutableBatch) : Table where
  rowCount := b.rowCount
  column name := (b.columnByName name).map fun col => (col.influxType, col.cells b.rowCount)
  length_cells name e h := by
    obtain ⟨col, -, rfl⟩ := Option.map_eq_some'.mp h
    exact Column.length_cells _ _

/-- **The spec of a transaction whose calls, to distinct names, all succeed.** It
appends `to_insert` rows. Under a name a call wrote, the new rows hold the call's
cells, after null cells for the rows before them when the name is new; every other
column gets null cells. -/
def Table.commit (t : Table) (to_insert : Nat) (calls : List WriteCall) : Table where
  rowCount := t.rowCount + to_insert
  column name :=
    match calls.find? fun c => c.name = name with
    | some c => some (c.influxType,
        ((t.column name).map Prod.snd).getD (List.replicate t.rowCount none) ++ c.cells to_insert)
    | none => (t.column name).map fun e => (e.1, e.2 ++ List.replicate to_insert none)
  length_cells name e h := by
    dsimp only at h
    split at h
    · obtain rfl := Option.some.inj h
      cases hc : t.column name with
      | none => simp [hc]
      | some e => simp [hc, t.length_cells name e hc]
    · obtain ⟨e, he, rfl⟩ := Option.map_eq_some'.mp h
      simp [t.length_cells name e he]

/-! ### A commit appends the transaction's cells -/

theorem MutableBatch.mem_of_columnByName {b : MutableBatch} {name : String} {col : Column}
    (h : b.columnByName name = some col) : col ∈ b.columns := by
  obtain ⟨idx, -, hcol⟩ := Option.bind_eq_some.mp h
  exact List.getElem?_mem hcol

@[simp] theorem Writer.initialRows_new (b : MutableBatch) (n : Nat) :
    (Writer.new b n).initialRows = b.rowCount := rfl

@[simp] theorem Writer.toInsert_new (b : MutableBatch) (n : Nat) :
    (Writer.new b n).toInsert = n := rfl

/-- A writer just opened has the batch's columns under their names, and no record. -/
theorem Writer.entry_new (b : MutableBatch) (n : Nat) (name : String) :
    (Writer.new b n).entry name = (b.columnByName name).map fun col => (col, none) := by
  simp only [Writer.entry, MutableBatch.columnByName, Writer.new]
  cases b.columnNames.lookup name <;> simp

/-- What a column of a batch between transactions satisfies, for the batch's `R`
rows: one validity bit per row, a value at every set row, and a boolean store clear
past the rows. -/
structure Column.Settled (R : Nat) (col : Column) : Prop where
  rows : col.valid.length = R
  filled : col.Filled
  clear : col.data.ClearFrom R

theorem Column.settled_new (R : Nat) (t : InfluxColumnType) : (Column.new R t).Settled R :=
  ⟨by simp, Column.filled_new R t, ColumnData.clearFrom_new R t⟩

theorem reachable_settled {b : MutableBatch} (hb : Reachable (.idle b)) :
    ∀ col ∈ b.columns, col.Settled b.rowCount :=
  fun col hcol =>
    ⟨reachable_rowsOk hb col hcol, reachable_filled hb col hcol, reachable_clearOk hb col hcol⟩

/-- The column a call resolves on a writer just opened on a reachable batch is settled,
and its cells are those of the column under the call's name, or nulls for a new name. -/
theorem resolved_new {b : MutableBatch} (hb : Reachable (.idle b)) (n : Nat) (c : WriteCall) :
    ((Writer.new b n).resolved c).Settled b.rowCount ∧
      ((Writer.new b n).resolved c).cells b.rowCount =
        ((b.columnByName c.name).map (Column.cells b.rowCount)).getD
          (List.replicate b.rowCount none) := by
  simp only [Writer.resolved, Writer.entry_new, Option.map_map]
  cases hcol : b.columnByName c.name with
  | none => exact ⟨Column.settled_new _ _, Column.cells_new _ _⟩
  | some col => exact ⟨reachable_settled hb col (MutableBatch.mem_of_columnByName hcol), rfl⟩

/-- **A commit appends the transaction's cells.** Open a writer with `to_insert ≥ 1` on a
batch reachable from the empty batch, with `row_count + to_insert` within `usize::MAX`, and
make calls to pairwise distinct names that all return `Ok`: the commit completes, and the
table of the batch it leaves is the table of the batch before with the transaction's rows
appended, as `BatchWriter.Table.commit` says. -/
theorem commit_table {b : MutableBatch} (hb : Reachable (.idle b)) {n : Nat} (hn : 0 < n)
    (hbound : b.rowCount + n ≤ usizeMax) {calls : List WriteCall}
    (hnames : (calls.map WriteCall.name).Nodup) {w : Writer}
    (hw : (Writer.new b n).writeAllOk calls = some w) :
    ∃ v, w.commit = (.ok (), v) ∧ v.batch.table = b.table.commit n calls := by
  have hr : Reachable (.busy (Writer.new b n)) := hb.tail (.new b n)
  have ha := Writer.accepts_of_writeAllOk hr hn hnames hw
  obtain ⟨w', hw', hr', hi, ht, -, he⟩ := Writer.writeAllOk_of_accepts hr hn hnames ha
  rw [hw, Option.some.injEq] at hw'
  subst hw'
  obtain ⟨v, hc, hrow, -, hby⟩ :=
    Writer.commit_columnByName hr' (ht ▸ hn) (by rw [hi, ht]; exact hbound)
  have hrow : v.batch.rowCount = b.rowCount + n := by rw [hrow, hi, ht]; rfl
  refine ⟨v, hc, Table.ext hrow (funext fun name => ?_)⟩
  simp only [MutableBatch.table, Table.commit, hby, he, hi, ht, hrow, Writer.entryAfter,
    Writer.initialRows_new, Writer.toInsert_new, Option.map_map]
  cases hf : calls.find? fun c => decide (c.name = name) with
  | none =>
    -- a name no call writes: its column gets null cells
    simp only [Writer.entry_new]
    cases hcol : b.columnByName name with
    | none => rfl
    | some col =>
      have hs := reachable_settled hb col (MutableBatch.mem_of_columnByName hcol)
      simp [commitEntry, Column.cells_pushNullsToLen hs.filled hs.rows]
  | some c =>
    -- a name a call writes: its column takes the call's cells
    obtain rfl : c.name = name := by simpa using List.find?_some hf
    obtain ⟨hty, -, hok⟩ := ha c (List.mem_of_find?_eq_some hf)
    simp only [Writer.initialRows_new, Writer.toInsert_new] at hty hok
    obtain ⟨hs, hcells⟩ := resolved_new hb n c
    obtain ⟨hrec, -⟩ := (c.apply_folds _ _).2 _ hok
    obtain ⟨hty', hsto, hfits, -⟩ := c.apply_shape b.rowCount n ((Writer.new b n).resolved c)
    obtain ⟨col', hm⟩ := Option.isSome_iff_exists.mp
      ((Column.mergeStatistics_isSome_iff _ _).mpr (hsto ▸ hfits _ hrec))
    simp only [Option.some_bind, commitEntry, hrec, hm, Option.map_some']
    rw [(Column.mergeStatistics_shape hm).1, Column.cells_mergeStatistics hm, hty', hty,
      c.cells_apply hs.rows hs.filled hs.clear hok, hcells]
    rfl

/-- A `write_bool` of one `true` over two rows fails after it set the bit of row 0,
and the commit makes both rows null. A transaction of one row then writes `false` to
`"f"` and a new column `"x"`, and its commit appends their cells. -/
theorem commit_table_after_failed_bool :
    let b := ((Writer.new MutableBatch.new 2).write (.bool "f" none [true])).2.commit.2.batch
    let calls : List WriteCall := [.bool "f" none [false], .i64 "x" none [4]]
    let w := (((Writer.new b 1).write (.bool "f" none [false])).2.write (.i64 "x" none [4])).2
    Reachable (.idle b) ∧ 0 < 1 ∧ b.rowCount + 1 ≤ usizeMax ∧ (calls.map WriteCall.name).Nodup ∧
      (Writer.new b 1).writeAllOk calls = some w ∧
      ∃ v, w.commit = (.ok (), v) ∧ v.batch.table = b.table.commit 1 calls :=
  have hb : Reachable (.idle ((Writer.new MutableBatch.new 2).write
      (.bool "f" none [true])).2.commit.2.batch) :=
    .tail (.tail (.single (.new _ 2)) (.write (.bool "f" none [true]) (Prod.ext rfl rfl) (by rfl)))
      (.commit (Prod.ext rfl rfl))
  ⟨hb, by decide, by decide, by decide, rfl, commit_table hb (by decide) (by decide) (by decide) rfl⟩

/-- The stale bit of the failed call stays in the store under row 0, a null row; the
row of the second transaction reads `false`. -/
example :
    let b := ((Writer.new MutableBatch.new 2).write (.bool "f" none [true])).2.commit.2.batch
    let w := (((Writer.new b 1).write (.bool "f" none [false])).2.write (.i64 "x" none [4])).2
    b.columns.map (fun col => (col.valid, col.data.value? 0)) =
        [([false, false], some (.inr (.inr (.inr (.inr true)))))] ∧
      w.commit.2.batch.table.column "f" =
        some (.field .boolean, [none, none, some (.inr (.inr (.inr (.inr false))))]) := by
  constructor <;> rfl

/-! ### A dropped transaction leaves the table as it was -/

theorem Writer.map_fst_entry (w : Writer) (name : String) :
    (w.entry name).map Prod.fst = w.batch.columnByName name := by
  simp only [Writer.entry, MutableBatch.columnByName]
  cases w.batch.columnNames.lookup name <;> simp [Option.map_map, Function.comp_def]

/-- `Writer::drop` without a commit, name by name: each column cut back to
`initial_rows`. -/
theorem Writer.columnByName_drop {w : Writer} (h : w.success = false) (name : String) :
    w.drop.columnByName name = (w.batch.columnByName name).map (·.truncate w.initialRows) := by
  simp only [MutableBatch.columnByName, Writer.drop_columnNames,
    Writer.drop_columns_of_not_success h]
  cases w.batch.columnNames.lookup name <;> simp

/-- A column cut back to the `R` rows a fresh column of its type had has null cells
there. -/
theorem Column.cells_truncate_of_keeps_new {R : Nat} {x : Column}
    (hk : (Column.new R x.influxType).Keeps R x) :
    (x.truncate R).cells R = List.replicate R none := by
  have hv : x.valid.take R = List.replicate R false := by
    simpa using (List.prefix_iff_eq_take.mp hk.2.1).symm
  exact cells_of_unset fun r hr => by simp [hv, List.getElem?_replicate, hr]

/-- What a live writer opened on `b` has under a name `b` has no column under, for
calls among `calls`: a column only if one of the calls named it, of that call's type,
and one that keeps the null rows of a fresh column of that type. -/
def Writer.NewFrom (b : MutableBatch) (calls : List WriteCall) (w : Writer) : Prop :=
  ∀ name x, b.columnByName name = none → w.batch.columnByName name = some x →
    (∃ c ∈ calls, c.name = name ∧ c.influxType = x.influxType) ∧
      (Column.new b.rowCount x.influxType).Keeps b.rowCount x

namespace Writer

variable {b : MutableBatch} {calls : List WriteCall} {w : Writer}

theorem newFrom_new (b : MutableBatch) (n : Nat) (calls : List WriteCall) :
    (Writer.new b n).NewFrom b calls :=
  fun _ _ hb hx => absurd (hb.symm.trans hx) (by simp)

/-- **A call keeps what a writer has under new names**, whatever it returns: under its
own name it leaves what it made of the column it resolved, registered before or fresh
of its type. -/
theorem NewFrom.write (h : w.NewFrom b calls) (hn : w.batch.NamesOk)
    (hi : w.initialRows = b.rowCount) {c : WriteCall} (hc : c ∈ calls) :
    (w.write c).2.NewFrom b calls := by
  obtain ⟨r, w', hw⟩ : ∃ r w', w.write c = (r, w') := ⟨_, _, rfl⟩
  rw [hw]
  intro name x hb hx
  by_cases hne : c.name = name
  · subst hne
    rw [write_eq] at hw
    rcases writeColumn_cases hn hw with
      ⟨rfl, -⟩ | ⟨idx, col, w₁, hcol, hl, hw₁, hty, -, -, rfl⟩
    · exact h _ x hb hx
    have hlt : idx < w₁.batch.columns.length := (List.getElem?_eq_some_iff.mp hcol).1
    obtain rfl : x = (c.apply w.initialRows w.toInsert col).2.1 := by
      simpa [MutableBatch.columnByName, hl, List.getElem?_set, hlt] using hx.symm
    have hty' := (c.apply_shape w.initialRows w.toInsert col).1
    -- the column the call resolved keeps the null rows of a fresh one
    have hfresh : (Column.new b.rowCount c.influxType).Keeps b.rowCount col := by
      rcases hw₁ with rfl | ⟨-, -, rfl, -⟩
      · have := (h c.name col hb (by simp [MutableBatch.columnByName, hl, hcol])).2
        rwa [hty] at this
      · rw [hi]
        exact .refl _ _
    refine ⟨⟨c, hc, rfl, (hty'.trans hty).symm⟩, ?_⟩
    rw [hty', hty]
    exact hfresh.trans (hi ▸ c.apply_keeps)
  · rw [← map_fst_entry, entry_write_of_ne hn hw hne, map_fst_entry] at hx
    exact h name x hb hx

/-- A transaction keeps what a writer has under new names, through every call up to
the first that panics. -/
theorem NewFrom.writeAll (h : w.NewFrom b calls) (hr : w.Rollback b) {cs : List WriteCall}
    (hcs : ∀ c ∈ cs, c ∈ calls) : (w.writeAll cs).NewFrom b calls := by
  induction cs generalizing w with
  | nil => exact h
  | cons c cs ih =>
    have h' := h.write hr.namesOk hr.initialRows (hcs c (List.mem_cons_self _ _))
    have hr' := rollback_write hr c
    simp only [writeAll]
    split <;> rename_i heq <;> rw [heq] at h' hr'
    · exact h'
    · exact ih h' hr' fun c' hc' => hcs c' (List.mem_cons_of_mem _ hc')

end Writer

/-- **The spec of a transaction that is dropped**, from the table `t` to `t'`, for the
calls `calls`: the rows, and every column with its type and cells, are those of `t`; a
column under a name `t` does not have is one a call named, of that call's type, with a
null cell in every row. -/
structure Table.RollsBack (t : Table) (calls : List WriteCall) (t' : Table) : Prop where
  rowCount : t'.rowCount = t.rowCount
  old : ∀ name e, t.column name = some e → t'.column name = some e
  new : ∀ name e, t.column name = none → t'.column name = some e →
    (∃ c ∈ calls, c.name = name ∧ c.influxType = e.1) ∧ e.2 = List.replicate t.rowCount none

/-- **A dropped transaction leaves the table as it was.** On every batch reachable from
the empty batch, whatever calls a transaction makes and whatever they return, up to the
first that panics, the drop gives back the rows and every column's type and cells; a
name the transaction registered stays, with a call's type and null cells. This holds
where the columns are not given back: the drop cuts a tag dictionary at the greatest
code the kept rows hold, which may drop strings the batch had interned. -/
theorem drop_table {b : MutableBatch} (hb : Reachable (.idle b)) (n : Nat) (calls : List WriteCall) :
    b.table.RollsBack calls ((Writer.new b n).writeAll calls).drop.table := by
  have hn : b.NamesOk := (reachable_shapeOk hb).1
  have hr := Writer.rollback_writeAll (Writer.rollback_new hn n) calls
  have hnew := (Writer.newFrom_new b n calls).writeAll (Writer.rollback_new hn n) fun _ => id
  have hby := Writer.columnByName_drop hr.success
  rw [hr.initialRows] at hby
  refine ⟨by simp [MutableBatch.table, hr.rowCount], fun name e he => ?_,
    fun name e he he' => ?_⟩
  · -- a column of the batch: the writer kept its rows, and the drop cuts it back to them
    obtain ⟨col₀, hcol₀, rfl⟩ := Option.map_eq_some'.mp he
    obtain ⟨j, hl, hj⟩ := Option.bind_eq_some.mp hcol₀
    obtain ⟨x, hx, hk⟩ := hr.old j col₀ hj
    have hs := reachable_settled hb col₀ (List.getElem?_mem hj)
    have hxname : ((Writer.new b n).writeAll calls).batch.columnByName name = some x := by
      simp [MutableBatch.columnByName, lookup_of_prefix hr.names hl, hx]
    simp only [MutableBatch.table, hby, hxname, Writer.drop_rowCount, hr.rowCount,
      Option.map_some', Column.influxType_truncate, hk.1,
      Column.cells_of_stable (((Column.Stable.refl _ col₀).keeps hk le_rfl).truncate le_rfl)
        hs.filled hs.rows]
  · -- a name the transaction registered: the drop leaves the null rows of a fresh column
    have hb₀ : b.columnByName name = none := by simpa [MutableBatch.table] using he
    simp only [MutableBatch.table, hby, Writer.drop_rowCount, hr.rowCount, Option.map_map] at he'
    obtain ⟨x, hx, rfl⟩ := Option.map_eq_some'.mp he'
    obtain ⟨hcall, hk⟩ := hnew name x hb₀ hx
    exact ⟨by simpa using hcall, Column.cells_truncate_of_keeps_new hk⟩

/-- A transaction of three rows interns `"a"` and `"b"` in a `write_tag` that fails at
row 2, retries with `"a"` in every row and commits. A transaction of one row then
writes `"c"` to `"t"`, fails a `write_i64` to the new name `"x"`, and is dropped. -/
theorem drop_table_after_retry :
    let b := (((Writer.new MutableBatch.new 3).write (.tag "t" none ["a", "b"])).2.write
      (.tag "t" none ["a", "a", "a"])).2.commit.2.batch
    let calls : List WriteCall := [.tag "t" none ["c"], .i64 "x" none []]
    Reachable (.idle b) ∧ b.table.RollsBack calls ((Writer.new b 1).writeAll calls).drop.table :=
  have hb : Reachable (.idle (((Writer.new MutableBatch.new 3).write (.tag "t" none ["a", "b"])).2.write
      (.tag "t" none ["a", "a", "a"])).2.commit.2.batch) :=
    .tail (.tail (.tail (.single (.new _ 3)) (.write (.tag "t" none ["a", "b"]) (Prod.ext rfl rfl) (by rfl)))
      (.write (.tag "t" none ["a", "a", "a"]) (Prod.ext rfl rfl) (by rfl))) (.commit (Prod.ext rfl rfl))
  ⟨hb, drop_table hb 1 [.tag "t" none ["c"], .i64 "x" none []]⟩

/-- The drop above does not give the dictionary of `"t"` back: no kept row holds the
code of `"b"`, the last string the batch had interned, and the drop cuts it off. -/
example :
    let b := (((Writer.new MutableBatch.new 3).write (.tag "t" none ["a", "b"])).2.write
      (.tag "t" none ["a", "a", "a"])).2.commit.2.batch
    let d := ((Writer.new b 1).writeAll [.tag "t" none ["c"], .i64 "x" none []]).drop
    b.columns.map (fun col => match col.data with | .tag _ dict _ => dict.values | _ => []) =
        [["a", "b"]] ∧
      d.columns.map (fun col => match col.data with | .tag _ dict _ => dict.values | _ => []) =
        [["a"], []] := by
  constructor <;> decide

end BatchWriter
