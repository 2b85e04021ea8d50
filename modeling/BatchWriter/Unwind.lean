import BatchWriter.Retry

/-!
# Caught panics reach nothing new

A typed write can panic on a live writer of a run: `column_mut`'s `assert_eq!` when the
column was written before in the transaction, the `usize` subtraction of `write_string`
when its store reaches past the first row the call sets, and `BitSet::append_bits` when
the mask holds fewer bits than `to_insert`. A caller that catches the panic finds the
writer dropped by the unwinding, and the batch cut back by `Drop for Writer`.
`BatchWriter.Step` has no such step: a run is made of calls that return. This file adds
it, for `commit` too (`BatchWriter.UnwindStep`), and shows that it reaches no state a run
of returning calls does not (`BatchWriter.unwindReachable_iff`), so that every fact
proved of the reachable states holds of the states of runs whose panics are caught.

The first two panics leave the writer as it was, and the unwinding drop is the drop of
that writer. The third comes once the value loop has stored every value: the same call
with null bytes after its mask (`BatchWriter.WriteCall.padMask`) visits the same
positions, stores the same values and returns `Ok`, and its drop is the same batch, since
the drop cuts off the validity bits the padded call appended. A `commit` on a live writer
of a run panics only when `initial_rows + to_insert` passes `usize::MAX`, before it
changes anything, and its drop is then the drop of the writer as it was.

| fact | theorem |
|---|---|
| null bytes after a mask add no set position | `BatchWriter.setPositionIterator_padValidMask` |
| a panic inside an arm leaves the store | `BatchWriter.ArmUnwinds` |
| what a panicking call leaves of its column | `BatchWriter.WriteCall.apply_panic` |
| the drop after a panicking call | `BatchWriter.Writer.drop_of_panic` |
| caught panics reach nothing new | `BatchWriter.unwindReachable_iff` |
-/

namespace BatchWriter

/-! ### Padding a mask -/

/-- The mask `valid_mask` with `k` null bytes after it. -/
def padValidMask (k : Nat) (valid_mask : Option (List UInt8)) : Option (List UInt8) :=
  valid_mask.map (· ++ List.replicate k 0)

theorem maskBit_append_zeros (mask : List UInt8) (k i : Nat) :
    maskBit (mask ++ List.replicate k 0) i = maskBit mask i := by
  unfold maskBit
  by_cases h : i / 8 < mask.length
  · rw [List.getElem?_append_left h]
  · have hnone : mask[i / 8]? = none := List.getElem?_eq_none (by omega)
    rw [hnone, List.getElem?_append_right (by omega), List.getElem?_replicate]
    split_ifs <;> simp

/-- Null bytes after a mask add no set position. -/
theorem setPositionIterator_padValidMask (k n : Nat) (valid_mask : Option (List UInt8)) :
    setPositionIterator (padValidMask k valid_mask) n = setPositionIterator valid_mask n := by
  cases valid_mask with
  | none => rfl
  | some mask =>
    simp only [padValidMask, Option.map_some', setPositionIterator_some]
    exact congrArg (List.filter · _) (funext (maskBit_append_zeros mask k))

/-- A mask with `n` null bytes after it has the `n` bits `append_valid_mask` asks for. -/
theorem appendValidMask_padValidMask (col : Column) (valid_mask : Option (List UInt8))
    (n : Nat) : appendValidMask col (padValidMask n valid_mask) n =
      .ok { col with valid := col.valid ++ validBits (padValidMask n valid_mask) n } := by
  cases valid_mask with
  | none => rfl
  | some mask =>
    have h : n ≤ 8 * (mask.length + n) := by omega
    simp [appendValidMask, padValidMask, BitSet.appendBits, h, validBits]

/-- The call `c` with `k` null bytes after its mask. -/
def WriteCall.padMask (k : Nat) : WriteCall → WriteCall
  | .f64 name m vs => .f64 name (padValidMask k m) vs
  | .i64 name m vs => .i64 name (padValidMask k m) vs
  | .u64 name m vs => .u64 name (padValidMask k m) vs
  | .bool name m vs => .bool name (padValidMask k m) vs
  | .string name m vs => .string name (padValidMask k m) vs
  | .tag name m vs => .tag name (padValidMask k m) vs
  | .tagDict name m keys vs => .tagDict name (padValidMask k m) keys vs
  | .time name vs => .time name vs

namespace WriteCall

@[simp] theorem name_padMask (c : WriteCall) (k : Nat) : (c.padMask k).name = c.name := by
  cases c <;> rfl

@[simp] theorem influxType_padMask (c : WriteCall) (k : Nat) :
    (c.padMask k).influxType = c.influxType := by
  cases c <;> rfl

end WriteCall

/-! ### A panic inside an arm -/

/-- A panic inside the arm leaves the store as it was, on a store with a slot for each of
the `i` rows before the write (a string store apart), and comes only from a store with
more than `i` entries. -/
def ArmUnwinds {α : Type} (i : Nat)
    (arm : ColumnData → Option (Except Exit Unit × ColumnData × StatValues α)) : Prop :=
  ∀ d p d' stats, arm d = some (.error (.panic p), d', stats) →
    (d.storage ≠ .string → i ≤ d.len) → d' = d ∧ i < d.len

section Loops

variable {α β σ : Type} [LT α] [DecidableRel (α := α) (· < ·)]

/-- A loop whose steps panic only outside an invariant they keep does not panic. -/
theorem fillLoop_ne_panic {put : Nat → β → σ → Except Exit α × σ} (P : σ → Prop)
    {idxs : List Nat} {bs : List β} {s : σ} {stats : StatValues α}
    (hP : ∀ idx ∈ idxs, ∀ b s, P s → P (put idx b s).2)
    (hput : ∀ idx ∈ idxs, ∀ b s p, P s → (put idx b s).1 ≠ .error (.panic p)) (hs : P s)
    (p : Panic) : (fillLoop put idxs bs s stats).1 ≠ .error (.panic p) := by
  induction idxs generalizing bs s stats with
  | nil => simp [fillLoop]
  | cons idx idxs ih =>
    cases bs with
    | nil => simp [fillLoop]
    | cons b bs =>
      have hput₀ := hput idx (List.mem_cons_self _ _) b s p hs
      have hP₀ := hP idx (List.mem_cons_self _ _) b s hs
      simp only [fillLoop]
      split
      · rename_i x s' h
        rw [h] at hput₀
        simpa using hput₀
      · rename_i a s' h
        rw [h] at hP₀
        exact ih (fun i hi => hP i (List.mem_cons_of_mem _ hi))
          (fun i hi => hput i (List.mem_cons_of_mem _ hi)) hP₀

variable {i : Nat} {ps : List Nat} {vs : List String} {data data' : List String}
  {stats stats' : StatValues String}

/-- A `write_string` loop over sorted positions, on a store that ends at or before the
first of them, does not panic. -/
theorem fillLoop_putString_ne_panic (hsorted : ps.Pairwise (· < ·))
    (hlen : ∀ q ∈ ps, data.length ≤ i + q) (p : Panic) :
    (fillLoop (putString i) ps vs data stats).1 ≠ .error (.panic p) := by
  induction ps generalizing vs data stats with
  | nil => simp [fillLoop]
  | cons q qs ih =>
    cases vs with
    | nil => simp [fillLoop]
    | cons v vs =>
      have hq := hlen q (List.mem_cons_self _ _)
      simp only [fillLoop, putString, if_pos hq]
      refine ih (List.pairwise_cons.mp hsorted).2 fun q' hq' => ?_
      have := List.rel_of_pairwise_cons hsorted hq'
      simp
      omega

/-- **A `write_string` loop panics at its first position or not at all**, and then leaves
the store as it was, a store reaching past `initial_rows`. -/
theorem fillLoop_putString_panic (hsorted : ps.Pairwise (· < ·)) {p : Panic}
    (h : fillLoop (putString i) ps vs data stats = (.error (.panic p), data', stats')) :
    data' = data ∧ i < data.length := by
  cases ps with
  | nil => simp [fillLoop] at h
  | cons q qs =>
    cases vs with
    | nil => simp [fillLoop] at h
    | cons v vs =>
      by_cases hq : data.length ≤ i + q
      · refine absurd (congrArg Prod.fst h) (fillLoop_putString_ne_panic hsorted ?_ p)
        refine List.forall_mem_cons.mpr ⟨hq, fun q' hq' => ?_⟩
        have := List.rel_of_pairwise_cons hsorted hq'
        omega
      · simp only [fillLoop, putString, if_neg hq, Prod.mk.injEq] at h
        exact ⟨h.2.1.symm, by omega⟩

end Loops

theorem storeAt_fst_of_lt {α β : Type} {col_data : List α} {idx : Nat}
    (h : idx < col_data.length) (value : α) (ret : β) :
    (storeAt col_data idx value ret).1 = .ok ret := by
  simp [storeAt, Vec.setAt, h]

section Arms

variable {i n : Nat} {ps : List Nat}

theorem armUnwinds_fixed {α : Type} [LT α] [DecidableRel (α := α) (· < ·)] (v : FixedWidth α)
    (hps : ∀ p ∈ ps, p < n) (vs : List α) : ArmUnwinds i (fixedArm i n ps v vs) := by
  intro d p d' stats h _
  cases ha : v.arm d with
  | none => simp [fixedArm, ha] at h
  | some x =>
    simp only [fixedArm, ha, Option.map_some', Option.some.injEq, Prod.mk.injEq] at h
    refine absurd h.1 (fillLoop_ne_panic (fun s => s.length = i + n)
      (fun _ _ _ _ hs => by simpa using hs) (fun idx hidx b s p hs => ?_) (by simp) p)
    have := hps idx hidx
    simp [putValue, storeAt_fst_of_lt (show i + idx < s.length by omega)]

theorem armUnwinds_bool (hps : ∀ p ∈ ps, p < n) (vs : List Bool) :
    ArmUnwinds i (boolArm i n ps vs) := by
  intro d p d' stats h hl
  cases d <;> simp only [boolArm, Option.some.injEq, Prod.mk.injEq, reduceCtorEq] at h
  simp only [ColumnData.storage, ColumnData.len, ne_eq, reduceCtorEq, not_false_eq_true,
    forall_const] at hl
  refine absurd h.1 (fillLoop_ne_panic (fun s => i + n ≤ s.length)
    (fun _ _ _ _ hs => by simpa using hs) (fun idx hidx b s p hs => ?_) (by simp; omega) p)
  have := hps idx hidx
  unfold putBool BitSet.set
  split_ifs <;> simp
  omega

theorem armUnwinds_string (hsorted : ps.Pairwise (· < ·)) (vs : List String) :
    ArmUnwinds i (stringArm i ps vs) := by
  intro d p d' stats h _
  cases d <;> simp only [stringArm, Option.some.injEq, Prod.mk.injEq, reduceCtorEq] at h
  obtain ⟨hr, rfl, -⟩ := h
  obtain ⟨heq, hlt⟩ := fillLoop_putString_panic hsorted (Prod.ext hr rfl)
  exact ⟨by rw [heq], hlt⟩

theorem armUnwinds_tag (hps : ∀ p ∈ ps, p < n) (vs : List String) :
    ArmUnwinds i (tagArm i n ps vs) := by
  intro d p d' stats h _
  cases d <;> simp only [tagArm, Option.some.injEq, Prod.mk.injEq, reduceCtorEq] at h
  refine absurd h.1 (fillLoop_ne_panic (fun s => s.1.length = i + n)
    (fun _ _ _ _ hs => by simpa using hs) (fun idx hidx b s p hs => ?_) (by simp) p)
  have := hps idx hidx
  rw [putTag_fst, storeAt_fst_of_lt (by omega)]
  simp

theorem armUnwinds_tagDict (hps : ∀ p ∈ ps, p < n) (keys : List Nat) (vs : List String) :
    ArmUnwinds i (tagDictArm i n ps keys vs) := by
  intro d p d' stats h _
  cases d <;> simp only [tagDictArm, Option.some.injEq, Prod.mk.injEq, reduceCtorEq] at h
  refine absurd h.1 (fillLoop_ne_panic (fun s => s.1.length = i + n)
    (fun _ _ _ _ hs => by simpa using hs) (fun idx hidx key s p hs => ?_) (by simp) p)
  have := hps idx hidx
  obtain ⟨col_data, dict, mapping⟩ := s
  simp only [putTagDict]
  split <;> simp [storeAt_fst_of_lt (show i + idx < col_data.length by simp at hs; omega)]

end Arms

/-! ### What a panicking call leaves of its column -/

/-- A call and its padded form run the same arm, and differ only in the mask
`append_valid_mask` reads. The arm runs on the variant of the call's type, panics only
as `BatchWriter.ArmUnwinds` says, and folds at most `to_insert` values. -/
theorem WriteCall.apply_padMask (c : WriteCall) (i n k : Nat) :
    ∃ (α : Type) (wrap : StatValues α → Statistics)
      (body : ColumnData → Option (Except Exit Unit × ColumnData × StatValues α)),
      c.apply i n = writeResolved n c.validMask wrap body ∧
      (c.padMask k).apply i n = writeResolved n (padValidMask k c.validMask) wrap body ∧
      (∀ d, (body d).isSome ↔ d.storage = c.influxType.storage) ∧ ArmUnwinds i body ∧
      ∀ d r d' stats, body d = some (r, d', stats) → stats.totalCount ≤ n := by
  have hlt := fun m p (hp : p ∈ setPositionIterator m n) => lt_of_mem_setPositionIterator hp
  have hps := fun m => length_setPositionIterator m n
  have hk : ∀ m, (validBits m n).count true ≤ n := fun m =>
    (hps m).symm.trans_le (length_setPositionIterator_le m n)
  cases c with
  | f64 _ m vs =>
    refine ⟨_, _, _, rfl, ?_, (armSpec_fixed i n _ FixedWidth.lawful_f64 vs).isSome_iff,
      armUnwinds_fixed _ (hlt m) vs, (armFolds_fixed (hps m) vs).le (hk m)⟩
    simp only [padMask, apply, validMask, setPositionIterator_padValidMask]
  | i64 _ m vs =>
    refine ⟨_, _, _, rfl, ?_, (armSpec_fixed i n _ FixedWidth.lawful_i64 vs).isSome_iff,
      armUnwinds_fixed _ (hlt m) vs, (armFolds_fixed (hps m) vs).le (hk m)⟩
    simp only [padMask, apply, validMask, setPositionIterator_padValidMask]
  | u64 _ m vs =>
    refine ⟨_, _, _, rfl, ?_, (armSpec_fixed i n _ FixedWidth.lawful_u64 vs).isSome_iff,
      armUnwinds_fixed _ (hlt m) vs, (armFolds_fixed (hps m) vs).le (hk m)⟩
    simp only [padMask, apply, validMask, setPositionIterator_padValidMask]
  | bool _ m vs =>
    refine ⟨_, _, _, rfl, ?_, (armSpec_bool i n _ vs).isSome_iff,
      armUnwinds_bool (hlt m) vs, (armFolds_bool (hps m) vs).le (hk m)⟩
    simp only [padMask, apply, validMask, setPositionIterator_padValidMask]
  | string _ m vs =>
    refine ⟨_, _, _, rfl, ?_, (armSpec_string i _ vs).isSome_iff,
      armUnwinds_string (pairwise_setPositionIterator m n) vs,
      (armFolds_string (hps m) vs).le (hk m)⟩
    simp only [padMask, apply, validMask, setPositionIterator_padValidMask]
  | tag _ m vs =>
    refine ⟨_, _, _, rfl, ?_, (armSpec_tag i n _ vs).isSome_iff,
      armUnwinds_tag (hlt m) vs, (armFolds_tag (hps m) vs).le (hk m)⟩
    simp only [padMask, apply, validMask, setPositionIterator_padValidMask]
  | tagDict _ m keys vs =>
    refine ⟨_, _, _, rfl, ?_, (armSpec_tagDict i n _ keys vs).isSome_iff,
      armUnwinds_tagDict (hlt m) keys vs,
      (armFolds_tagDict (pairwise_setPositionIterator m n).nodup (hps m) keys vs).le (hk m)⟩
    simp only [padMask, apply, validMask, setPositionIterator_padValidMask]
  | time _ vs =>
    exact ⟨_, _, _, rfl, rfl, (armSpec_fixed i n _ FixedWidth.lawful_i64 vs).isSome_iff,
      armUnwinds_fixed _ (hlt none) vs, (armFolds_fixed (hps none) vs).le (hk none)⟩

/-- **What a panicking call leaves of its column.** On a column of the call's variant,
with a slot for each of the `i` rows before the write but for a string store, a call
that panics queues no record, and either leaves the column as it was, a column whose
store reaches past `i`, or panicked in `append_valid_mask`: the padded call then returns
`Ok` and leaves the same column with the bits of its mask appended. -/
theorem WriteCall.apply_panic (c : WriteCall) {i n : Nat} {col : Column} {p : Panic}
    (hsto : col.data.storage = c.influxType.storage)
    (hslot : col.data.storage ≠ .string → i ≤ col.data.len)
    (h : (c.apply i n col).1 = .error (.panic p)) :
    (c.apply i n col).2.2 = none ∧
      (((c.apply i n col).2.1 = col ∧ i < col.data.len) ∨
        ((c.padMask n).apply i n col).1 = .ok () ∧ (c.apply i n col).2.1.valid = col.valid ∧
          ((c.padMask n).apply i n col).2.1 = { (c.apply i n col).2.1 with
            valid := (c.apply i n col).2.1.valid ++ validBits (padValidMask n c.validMask) n }) := by
  obtain ⟨α, wrap, body, happ, happ', hsome, hunw, hcount⟩ := c.apply_padMask i n n
  rw [happ'] at *
  rw [happ] at h ⊢
  cases hb : body col.data with
  | none => exact absurd ((hsome col.data).mpr hsto) (by simp [hb])
  | some res =>
    obtain ⟨r₀, data, stats⟩ := res
    cases r₀ with
    | error x =>
      -- the arm panicked: it left the store as it was
      simp only [writeResolved, hb, Except.error.injEq] at h ⊢
      subst h
      obtain ⟨rfl, hlt⟩ := hunw _ _ _ _ hb hslot
      exact ⟨trivial, .inl ⟨rfl, hlt⟩⟩
    | ok u =>
      cases hm : appendValidMask { col with data } c.validMask n with
      | ok col₁ =>
        simp [writeResolved, hb, hm, hcount _ _ _ _ hb] at h
      | error x =>
        -- `append_valid_mask` panicked: the padded mask has the bits it asked for
        simp [writeResolved, hb, hm, appendValidMask_padValidMask, hcount _ _ _ _ hb]

/-! ### The drop after a panicking call -/

namespace Writer

variable {w w' : Writer} {c : WriteCall} {p : Panic}

theorem setColumn_of_getElem? {idx : Nat} {col : Column} (h : w.batch.columns[idx]? = some col) :
    { w.setColumn idx col with statistics := w.statistics ++ [] } = w := by
  have hcols : w.batch.columns.set idx col = w.batch.columns :=
    List.ext_getElem? fun j => by
      by_cases hj : idx = j
      · subst hj
        rw [List.getElem?_set_self (List.getElem?_eq_some_iff.mp h).1, h]
      · rw [List.getElem?_set_ne hj]
  simp [setColumn, hcols]

/-- A column cut back to its bits gives up the bits appended after them. -/
theorem Column.truncate_append_valid (col : Column) {R : Nat} (h : col.valid.length = R)
    (bits : List Bool) : ({ col with valid := col.valid ++ bits } : Column).truncate R =
      col.truncate R := by
  simp [Column.truncate, ← h]

/-- The resolved case of `BatchWriter.Writer.drop_of_panic`: the call ran on `col` at
`idx`, with `w₁` the writer `column_mut` left. -/
theorem drop_of_panic_resolved {idx : Nat} {col : Column} {w₁ : Writer}
    (hm : w.columnMut c.name c.influxType = (.ok (idx, col), w₁))
    (hsto : col.data.storage = c.influxType.storage)
    (hslot : col.data.storage ≠ .string → w.initialRows ≤ col.data.len)
    (hvalid : col.valid.length = w.initialRows) (hs : w₁.success = false)
    (hi : w₁.initialRows = w.initialRows)
    (hw : w.write c = (.error (.panic p), w')) :
    (w' = { w₁.setColumn idx col with statistics := w₁.statistics ++ [] } ∧
        w.initialRows < col.data.len) ∨
      (w.write (c.padMask w.toInsert)).1 = .ok () ∧
        (w.write (c.padMask w.toInsert)).2.drop = w'.drop := by
  rw [write_eq] at hw
  simp only [writeColumn, hm, Prod.mk.injEq] at hw
  obtain ⟨hr, rfl⟩ := hw
  obtain ⟨hnone, hcase⟩ := c.apply_panic hsto hslot hr
  rw [hnone]
  rcases hcase with ⟨hcol, hlt⟩ | ⟨hok, hv, hpad⟩
  · exact .inl ⟨by rw [hcol]; rfl, hlt⟩
  · -- the padded call leaves the same column but for the bits the drop cuts off
    have htr : ((c.padMask w.toInsert).apply w.initialRows w.toInsert col).2.1.truncate
        w.initialRows = (c.apply w.initialRows w.toInsert col).2.1.truncate w.initialRows := by
      rw [hpad]
      exact Column.truncate_append_valid _ (by rw [hv, hvalid]) _
    refine .inr ⟨by simp [write_eq, writeColumn, hm, hok], ?_⟩
    simp [write_eq, writeColumn, hm, drop, setColumn, hs, hi, List.map_set, htr]

/-- **The drop after a panicking call.** On a live writer of a run, a call that panics
leaves the writer as it was, or panicked in `append_valid_mask`: then the padded call
returns `Ok`, and dropping the writer it leaves gives the same batch. -/
theorem drop_of_panic (hr : Reachable (.busy w)) (hw : w.write c = (.error (.panic p), w')) :
    w' = w ∨ (w.write (c.padMask w.toInsert)).1 = .ok () ∧
      (w.write (c.padMask w.toInsert)).2.drop = w'.drop := by
  obtain ⟨hn, hsto, -⟩ := reachable_shapeOk hr
  have hp : w.Pending := reachable_rowsOk hr
  rcases @columnMut_cases w c.name c.influxType hn with ⟨idx, col, -, hcol, hm⟩ | ⟨-, hm⟩
  · -- a registered name
    split_ifs at hm with hty hlen
    · rw [write_eq] at hw
      simp [writeColumn, hm] at hw
    · -- `column_mut`'s assert: nothing has changed
      rw [write_eq] at hw
      simp only [writeColumn, hm, Prod.mk.injEq] at hw
      exact .inl hw.2.symm
    · have hmem := List.getElem?_mem hcol
      have hvalid : col.valid.length = w.initialRows := not_not.mp hlen
      rcases drop_of_panic_resolved hm ((not_not.mp hty) ▸ hsto col hmem)
          (fun h => hvalid ▸ (reachable_filled hr col hmem).slots h) hvalid hp.not_success rfl
          hw with ⟨rfl, -⟩ | h
      · exact .inl (setColumn_of_getElem? hcol)
      · exact .inr h
  · -- a new name: its fresh store does not reach past `initial_rows`
    rcases drop_of_panic_resolved hm (by simp) (fun _ => by simp) (by simp) hp.not_success rfl
        hw with ⟨-, hlt⟩ | h
    · simp at hlt
    · exact .inr h

/-- A `write_i64` over nine rows with a mask of one byte stores its value, then panics in
`append_valid_mask`; the padded call returns `Ok`, and both drops leave the same batch. -/
example :
    let w := Writer.new MutableBatch.new 9
    let c : WriteCall := .i64 "x" (some [1]) [4]
    (w.write c).1 = .error (.panic .appendBits) ∧ (w.write (c.padMask 9)).1 = .ok () ∧
      (w.write (c.padMask 9)).2.drop = (w.write c).2.drop :=
  ⟨rfl, rfl, rfl⟩

/-- A `commit` on a live writer of a run panics only on its row sum, and then before it
changes anything. -/
theorem commit_fst_of_reachable (hr : Reachable (.busy w)) :
    w.commit.1 = .ok () ∨ w.commit = (.error (.panic .addOverflow), w) := by
  by_cases hb : w.initialRows + w.toInsert ≤ usizeMax
  · obtain ⟨w', h⟩ := commit_ok_of_reachable hr hb
    exact .inl (by rw [h])
  · exact .inr (commit_of_overflow (Nat.lt_of_not_le hb))

end Writer

/-! ### Runs whose panics are caught -/

/-- A step of a run whose caller catches panics: a step of `BatchWriter.Step`, or a write
call or a `commit` that panics, after which the unwinding drops the writer. -/
inductive UnwindStep : Sys → Sys → Prop
  | step {s t : Sys} : Step s t → UnwindStep s t
  | write {w w' : Writer} {p : Panic} (call : WriteCall) :
      w.write call = (.error (.panic p), w') → UnwindStep (.busy w) (.idle w'.drop)
  | commit {w w' : Writer} {p : Panic} :
      w.commit = (.error (.panic p), w') → UnwindStep (.busy w) (.idle w'.drop)

/-- The states of every run from the empty batch whose panics are caught. -/
def UnwindReachable (s : Sys) : Prop :=
  Relation.ReflTransGen UnwindStep (.idle MutableBatch.new) s

/-- The unwinding drop after a call that panics on a live writer of a run leaves a batch
that a run of returning calls leaves too. -/
theorem reachable_drop_of_panic {w w' : Writer} {c : WriteCall} {p : Panic}
    (hr : Reachable (.busy w)) (hw : w.write c = (.error (.panic p), w')) :
    Reachable (.idle w'.drop) := by
  rcases Writer.drop_of_panic hr hw with rfl | ⟨hok, hdrop⟩
  · exact hr.tail (.drop _)
  · rw [← hdrop]
    exact (hr.tail (.write _ (Prod.ext hok rfl) rfl)).tail (.drop _)

/-- **Caught panics reach nothing new.** The states of the runs from the empty batch in
which a caller catches the panics of write calls and of `commit`, each followed by the
drop of the writer as the panic unwinds, are exactly the states of the runs whose calls
all return. -/
theorem unwindReachable_iff {s : Sys} : UnwindReachable s ↔ Reachable s := by
  refine ⟨fun h => ?_, fun h => h.mono fun _ _ => UnwindStep.step⟩
  induction h with
  | refl => exact .refl
  | tail _ hstep ih =>
    cases hstep with
    | step h => exact ih.tail h
    | write c hw => exact reachable_drop_of_panic ih hw
    | commit hw =>
      -- only the row sum panics, on the writer as it was: the drop is a step of a run
      rcases Writer.commit_fst_of_reachable ih with h | h
      · rw [hw] at h
        cases h
      · obtain rfl := (Prod.mk.inj (hw.symm.trans h)).2
        exact ih.tail (.drop _)

end BatchWriter
