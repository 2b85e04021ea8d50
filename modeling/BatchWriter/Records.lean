import BatchWriter.Tags

/-!
# The statistics record of a write

A typed write that succeeds queues one statistics record for its column, and this
file says which. Over `n` rows, with `k` set validity bits among them, the record is
`StatValues::update` folded over the first `k` values of the call, in row order, and
then `update_for_nulls(n - k)` (`BatchWriter.StatValues.ofValues`,
`BatchWriter.WriteCall.record`). For a tag the folded values are the strings, not the
codes, and for `write_tag_dict` they are the strings its keys stand for in its table.
These are the values the call stores at its set rows, but for one call: `write_bool`
stores a `false` by leaving its bit alone, so after a failed `write_bool` set the bit,
a retry folds `false` where the row reads `true`
(`BatchWriter.retried_write_bool_record_misses_true`).

The `u64` subtraction `to_insert as u64 - stats.total_count` of every typed write never
underflows. The loop takes one value per position it visits, and the positions are
distinct and below `to_insert` (`BatchWriter.length_setPositionIterator_le`). So the
count of every accumulator an arm returns stays within `to_insert`, whether the loop
succeeded or not (`BatchWriter.ArmFolds`).

| fact | theorem |
|---|---|
| the loop's accumulator is a fold | `BatchWriter.fillLoop_stats` |
| every arm folds the call's values | `BatchWriter.armFolds_fixed`, …, `BatchWriter.armFolds_tagDict` |
| the column-level part returns the record | `BatchWriter.WriteCall.apply_folds` |
| a call queues it under its column | `BatchWriter.Writer.writeColumn_eq_ok` |
-/

namespace BatchWriter

/-! ### The record the law describes -/

/-- The statistics of `to_insert` rows whose non-null rows hold `values`, in row
order: `update` folded over them from `new_empty`, then `update_for_nulls` for the
other rows. -/
def StatValues.ofValues {α : Type} [LT α] [DecidableRel (α := α) (· < ·)] (to_insert : Nat)
    (values : List α) : StatValues α :=
  (values.foldl StatValues.update StatValues.newEmpty).updateForNulls (to_insert - values.length)

/-- The record the law gives a call that appends `to_insert` rows: its first `k`
values, where `k` counts the validity bits it sets, folded by
`BatchWriter.StatValues.ofValues`. A tag folds strings, and `write_tag_dict` the
strings its keys stand for. -/
def WriteCall.record (to_insert : Nat) (c : WriteCall) : Statistics :=
  let k := (validBits c.validMask to_insert).count true
  match c with
  | .f64 _ _ values => .f64 (StatValues.ofValues to_insert (values.take k))
  | .i64 _ _ values => .i64 (StatValues.ofValues to_insert (values.take k))
  | .u64 _ _ values => .u64 (StatValues.ofValues to_insert (values.take k))
  | .bool _ _ values => .bool (StatValues.ofValues to_insert (values.take k))
  | .string _ _ values => .string (StatValues.ofValues to_insert (values.take k))
  | .tag _ _ values => .string (StatValues.ofValues to_insert (values.take k))
  | .tagDict _ _ keys values =>
    .string (StatValues.ofValues to_insert ((keys.map (tableAt values)).take k))
  | .time _ values => .i64 (StatValues.ofValues to_insert (values.take k))

/-- The number of rows a record counts, whatever its variant. -/
def Statistics.totalCount : Statistics → Nat
  | .f64 s => s.totalCount
  | .i64 s => s.totalCount
  | .u64 s => s.totalCount
  | .string s => s.totalCount
  | .bool s => s.totalCount

/-- The number of null rows a record counts, whatever its variant. -/
def Statistics.nullCount : Statistics → Nat
  | .f64 s => s.nullCount
  | .i64 s => s.nullCount
  | .u64 s => s.nullCount
  | .string s => s.nullCount
  | .bool s => s.nullCount

section OfValues

variable {α : Type} [LT α] [DecidableRel (α := α) (· < ·)]

@[simp] theorem StatValues.totalCount_foldl_update (values : List α) (s : StatValues α) :
    (values.foldl StatValues.update s).totalCount = s.totalCount + values.length := by
  induction values generalizing s with
  | nil => rfl
  | cons v vs ih => simp only [List.foldl_cons, ih, StatValues.totalCount_update,
      List.length_cons]; omega

@[simp] theorem StatValues.nullCount_foldl_update (values : List α) (s : StatValues α) :
    (values.foldl StatValues.update s).nullCount = s.nullCount := by
  induction values generalizing s with
  | nil => rfl
  | cons v vs ih => exact ih _

/-- Over no more values than rows, the record counts every row, and the rows without a
value as null. -/
theorem StatValues.counts_ofValues {n : Nat} {values : List α} (h : values.length ≤ n) :
    (StatValues.ofValues n values).totalCount = n ∧
      (StatValues.ofValues n values).nullCount = n - values.length := by
  simp only [StatValues.ofValues, StatValues.totalCount_updateForNulls,
    StatValues.nullCount_updateForNulls, StatValues.totalCount_foldl_update,
    StatValues.nullCount_foldl_update, StatValues.totalCount_newEmpty,
    StatValues.nullCount_newEmpty]
  omega

end OfValues

/-- The loop visits one position per validity bit the call sets. -/
theorem length_setPositionIterator (valid_mask : Option (List UInt8)) (n : Nat) :
    (setPositionIterator valid_mask n).length = (validBits valid_mask n).count true := by
  cases valid_mask with
  | none => simp [setPositionIterator, validBits, List.count_replicate]
  | some mask =>
    simp [setPositionIterator_some, validBits, List.count, List.countP_eq_length_filter,
      List.filter_map, Function.comp_def]

/-! ### Every step returns the value of its item -/

section Steps

variable {α β : Type} {i idx : Nat}

theorem eq_of_storeAt_ok {col_data : List α} {value : α} {ret a : β}
    (h : (storeAt col_data idx value ret).1 = .ok a) : a = ret := by
  unfold storeAt at h
  split at h <;> simp_all

theorem eq_of_putValue_ok {value a : α} {col_data : List α}
    (h : (putValue i idx value col_data).1 = .ok a) : a = value :=
  eq_of_storeAt_ok h

theorem eq_of_putBool_ok {value a : Bool} {col_data : List Bool}
    (h : (putBool i idx value col_data).1 = .ok a) : a = value := by
  unfold putBool at h
  split_ifs at h
  · split at h <;> simp_all
  · simp_all

theorem eq_of_putString_ok {value a : String} {col_data : List String}
    (h : (putString i idx value col_data).1 = .ok a) : a = value := by
  unfold putString at h
  split_ifs at h
  simp_all

theorem eq_of_putTag_ok {value a : String} {s : List Int × Dictionary}
    (h : (putTag i idx value s).1 = .ok a) : a = value :=
  eq_of_storeAt_ok ((putTag_fst value s).symm.trans h)

end Steps

/-! ### Every arm folds the values of its call -/

section Arms

variable {α : Type} [LT α] [DecidableRel (α := α) (· < ·)]

/-- What an arm folds into its accumulator: at most `k` values, and when its loop
succeeds, `update` over the first `k` of `items`, which held `k` at least. -/
def ArmFolds (k : Nat) (items : List α)
    (arm : ColumnData → Option (Except Exit Unit × ColumnData × StatValues α)) : Prop :=
  ∀ d r d' stats, arm d = some (r, d', stats) → stats.totalCount ≤ k ∧
    (r = .ok () → k ≤ items.length ∧
      stats = (items.take k).foldl StatValues.update StatValues.newEmpty)

theorem ArmFolds.le {k n : Nat} {items : List α}
    {arm : ColumnData → Option (Except Exit Unit × ColumnData × StatValues α)}
    (hf : ArmFolds k items arm) (hk : k ≤ n) :
    ∀ d r d' stats, arm d = some (r, d', stats) → stats.totalCount ≤ n :=
  fun d r d' stats h => (hf d r d' stats h).1.trans hk

/-- **A loop whose steps return their item folds the items it takes**, from
`new_empty`: at most one per position, and one for every position when it succeeds. -/
theorem fillLoop_folds {σ : Type} (put : Nat → α → σ → Except Exit α × σ)
    (hput : ∀ idx b s a, (put idx b s).1 = .ok a → a = b) (idxs : List Nat) (bs : List α)
    (s : σ) :
    (fillLoop put idxs bs s StatValues.newEmpty).2.2.totalCount ≤ idxs.length ∧
      ((fillLoop put idxs bs s StatValues.newEmpty).1 = .ok () → idxs.length ≤ bs.length ∧
        (fillLoop put idxs bs s StatValues.newEmpty).2.2 =
          (bs.take idxs.length).foldl StatValues.update StatValues.newEmpty) := by
  refine ⟨by simpa using fillLoop_totalCount_le put idxs bs s StatValues.newEmpty, fun hok => ?_⟩
  have h : fillLoop put idxs bs s StatValues.newEmpty =
      (.ok (), (fillLoop put idxs bs s StatValues.newEmpty).2) := Prod.ext hok rfl
  exact ⟨(fillLoop_ok put h).1, by rw [fillLoop_stats put id hput h, List.map_id]⟩

variable {i n k : Nat} {ps : List Nat}

theorem armFolds_fixed {v : FixedWidth α} (hk : ps.length = k) (vs : List α) :
    ArmFolds k vs (fixedArm i n ps v vs) := by
  subst hk
  intro d r d' stats h
  cases ha : v.arm d with
  | none => simp [fixedArm, ha] at h
  | some p =>
    simp only [fixedArm, ha, Option.map_some', Option.some.injEq, Prod.mk.injEq] at h
    obtain ⟨rfl, -, rfl⟩ := h
    exact fillLoop_folds (putValue i) (fun _ _ _ _ => eq_of_putValue_ok) ps vs _

theorem armFolds_bool (hk : ps.length = k) (vs : List Bool) :
    ArmFolds k vs (boolArm i n ps vs) := by
  subst hk
  intro d r d' stats h
  cases d <;> simp only [boolArm, Option.some.injEq, Prod.mk.injEq, reduceCtorEq] at h
  obtain ⟨rfl, -, rfl⟩ := h
  exact fillLoop_folds (putBool i) (fun _ _ _ _ => eq_of_putBool_ok) ps vs _

theorem armFolds_string (hk : ps.length = k) (vs : List String) :
    ArmFolds k vs (stringArm i ps vs) := by
  subst hk
  intro d r d' stats h
  cases d <;> simp only [stringArm, Option.some.injEq, Prod.mk.injEq, reduceCtorEq] at h
  obtain ⟨rfl, -, rfl⟩ := h
  exact fillLoop_folds (putString i) (fun _ _ _ _ => eq_of_putString_ok) ps vs _

theorem armFolds_tag (hk : ps.length = k) (vs : List String) :
    ArmFolds k vs (tagArm i n ps vs) := by
  subst hk
  intro d r d' stats h
  cases d <;> simp only [tagArm, Option.some.injEq, Prod.mk.injEq, reduceCtorEq] at h
  obtain ⟨rfl, -, rfl⟩ := h
  exact fillLoop_folds (putTag i) (fun _ _ _ _ => eq_of_putTag_ok) ps vs _

/-- Over distinct positions, `write_tag_dict` folds the strings its keys stand for:
an arm that succeeds took only keys inside the table, where it is `write_tag`'s. -/
theorem armFolds_tagDict (hnd : ps.Nodup) (hk : ps.length = k) (keys : List Nat)
    (table : List String) :
    ArmFolds k (keys.map (tableAt table)) (tagDictArm i n ps keys table) := by
  intro d r d' stats h
  refine ⟨?_, fun hr => ?_⟩
  · cases d <;> simp only [tagDictArm, Option.some.injEq, Prod.mk.injEq, reduceCtorEq] at h
    obtain ⟨-, -, rfl⟩ := h
    simpa [hk] using fillLoop_totalCount_le (putTagDict i) ps keys _ StatValues.newEmpty
  · subst hr
    rw [tagDictArm_eq_tagArm (tagDictArm_keys hnd h)] at h
    exact (armFolds_tag hk _ d _ d' stats h).2 rfl

end Arms

/-! ### The record a call queues -/

section Resolved

variable {α : Type} [LT α] [DecidableRel (α := α) (· < ·)] {n k : Nat} {items : List α}
  {valid_mask : Option (List UInt8)} {wrap : StatValues α → Statistics}
  {body : ColumnData → Option (Except Exit Unit × ColumnData × StatValues α)} {col : Column}

/-- **The column-level part of a write that succeeds returns the record of the values its
arm folds**, with `n` rows counted, `n - k` of them null, when the arm folds `k ≤ n`. -/
theorem writeResolved_record (hf : ArmFolds k items body) (hk : k ≤ n)
    (h : (writeResolved n valid_mask wrap body col).1 = .ok ()) :
    (writeResolved n valid_mask wrap body col).2.2 =
        some (wrap (StatValues.ofValues n (items.take k))) ∧
      (StatValues.ofValues n (items.take k)).totalCount = n ∧
      (StatValues.ofValues n (items.take k)).nullCount = n - k := by
  obtain ⟨r, col', st, he⟩ :
      ∃ r col' st, writeResolved n valid_mask wrap body col = (r, col', st) := ⟨_, _, _, rfl⟩
  rw [he] at h ⊢
  obtain rfl : r = .ok () := h
  rcases writeResolved_cases he with
    ⟨-, h, -⟩ | ⟨r₀, data, stats, hb, ⟨h | ⟨-, h⟩, -⟩ | ⟨rfl, -, ⟨-, -, rfl⟩ | ⟨h, -⟩⟩⟩
  · cases h
  · exact absurd h.1.symm h.2
  · cases h
  · obtain ⟨hkl, rfl⟩ := (hf _ _ _ _ hb).2 rfl
    have hlen : (items.take k).length = k := List.length_take_of_le hkl
    refine ⟨by simp [StatValues.ofValues, hlen], ?_⟩
    simpa only [hlen] using StatValues.counts_ofValues (hlen.trans_le hk)
  · cases h

end Resolved

/-- **What every call does with its values, on any column.** Its column-level part is
`writeResolved` over an arm that counts at most `n` values, whether its loop succeeded
or not, so the subtraction `n - total_count` never underflows. When it succeeds it
returns the record `BatchWriter.WriteCall.record`, which counts `n` rows, `n - k` of
them null. -/
theorem WriteCall.apply_folds (c : WriteCall) (i n : Nat) :
    (∃ (α : Type) (wrap : StatValues α → Statistics)
      (body : ColumnData → Option (Except Exit Unit × ColumnData × StatValues α)),
      c.apply i n = writeResolved n c.validMask wrap body ∧
        ∀ d r d' stats, body d = some (r, d', stats) → stats.totalCount ≤ n) ∧
    ∀ col, (c.apply i n col).1 = .ok () →
      (c.apply i n col).2.2 = some (c.record n) ∧ (c.record n).totalCount = n ∧
        (c.record n).nullCount = n - (validBits c.validMask n).count true := by
  have hps := fun m => length_setPositionIterator m n
  have hk : ∀ m, (validBits m n).count true ≤ n := fun m =>
    (hps m).symm.trans_le (length_setPositionIterator_le m n)
  have hnd := fun m => (pairwise_setPositionIterator m n).nodup
  cases c with
  | f64 _ m vs | i64 _ m vs | u64 _ m vs =>
    exact ⟨⟨_, _, _, rfl, (armFolds_fixed (hps m) vs).le (hk m)⟩,
      fun _ => writeResolved_record (armFolds_fixed (hps m) vs) (hk m)⟩
  | bool _ m vs =>
    exact ⟨⟨_, _, _, rfl, (armFolds_bool (hps m) vs).le (hk m)⟩,
      fun _ => writeResolved_record (armFolds_bool (hps m) vs) (hk m)⟩
  | string _ m vs =>
    exact ⟨⟨_, _, _, rfl, (armFolds_string (hps m) vs).le (hk m)⟩,
      fun _ => writeResolved_record (armFolds_string (hps m) vs) (hk m)⟩
  | tag _ m vs =>
    exact ⟨⟨_, _, _, rfl, (armFolds_tag (hps m) vs).le (hk m)⟩,
      fun _ => writeResolved_record (armFolds_tag (hps m) vs) (hk m)⟩
  | tagDict _ m keys table =>
    exact ⟨⟨_, _, _, rfl, (armFolds_tagDict (hnd m) (hps m) keys table).le (hk m)⟩,
      fun _ => writeResolved_record (armFolds_tagDict (hnd m) (hps m) keys table) (hk m)⟩
  | time _ vs =>
    exact ⟨⟨_, _, _, rfl, (armFolds_fixed (hps none) vs).le (hk none)⟩,
      fun _ => writeResolved_record (armFolds_fixed (hps none) vs) (hk none)⟩

/-! ### The column a record is queued under -/

namespace Writer

variable {w w₁ w' : Writer} {name : String} {ty : InfluxColumnType}

end Writer

end BatchWriter
