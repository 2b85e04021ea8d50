import BatchWriter.Resolve

/-!
# The shape of a reachable batch

Three things hold of every batch a run can reach, and of every writer on it.

* The name index is a bijection from pairwise distinct names onto the positions
  `0, 1, …` of the columns (`BatchWriter.MutableBatch.NamesOk`), and a name keeps its
  position for the rest of the run, even when the transaction that created its
  column is dropped: names are only ever appended.
* Every column has the storage variant its semantic type prescribes
  (`BatchWriter.MutableBatch.StorageOk`): `Column::new` builds it so, and no typed
  write, commit or rollback changes a variant.
* Every pending record of a writer fits the storage of its column
  (`BatchWriter.Writer.RecordsFit`).

From these, no typed write and no statistics merge of `commit` ever reaches its
`unreachable!` arm (`BatchWriter.reachable_shape`).
-/

namespace BatchWriter

/-! ### Storage variants and records -/

/-- Every column of a batch has the storage variant its type prescribes. -/
def MutableBatch.StorageOk (b : MutableBatch) : Prop :=
  ∀ col ∈ b.columns, col.data.storage = col.influxType.storage

/-- A pending record fits a storage variant when `commit` merges it there. -/
def Statistics.Fits : Statistics → Storage → Prop
  | .f64 _, .f64 => True
  | .i64 _, .i64 => True
  | .u64 _, .u64 => True
  | .bool _, .bool => True
  | .string _, .string => True
  | .string _, .tag => True
  | _, _ => False

/-- Every pending record of a writer fits the storage of the column it is for. -/
def Writer.RecordsFit (w : Writer) : Prop :=
  ∀ p ∈ w.statistics, ∃ col, w.batch.columns[p.1]? = some col ∧ p.2.Fits col.data.storage

theorem Column.mergeStatistics_isSome_iff (col : Column) (rec : Statistics) :
    (col.mergeStatistics rec).isSome ↔ rec.Fits col.data.storage := by
  rcases col with ⟨t, v, d⟩
  cases d <;> cases rec <;> simp [Column.mergeStatistics, Statistics.Fits, ColumnData.storage]

theorem Column.mergeStatistics_shape {col col' : Column} {rec : Statistics}
    (h : col.mergeStatistics rec = some col') :
    col'.influxType = col.influxType ∧ col'.valid = col.valid ∧
      col'.data.storage = col.data.storage ∧ col'.data.len = col.data.len := by
  rcases col with ⟨t, v, d⟩
  cases d <;> cases rec <;> simp [Column.mergeStatistics] at h <;> subst h <;>
    simp [ColumnData.storage, ColumnData.len]

/-! ### The arms keep their variant -/

/-- A fixed-width variant matches exactly one storage variant, rebuilds into it, and
queues records that fit it. -/
structure FixedWidth.Lawful {α : Type} (v : FixedWidth α) (sto : Storage) : Prop where
  arm_some : ∀ d x s, v.arm d = some (x, s) → d = v.rebuild x s
  arm_none : ∀ d, v.arm d = none → d.storage ≠ sto
  storage_rebuild : ∀ x s, (v.rebuild x s).storage = sto
  fits_wrap : ∀ s, (v.wrap s).Fits sto

theorem FixedWidth.lawful_f64 : FixedWidth.f64.Lawful .f64 where
  arm_some d _ _ h := by cases d <;> simp_all [FixedWidth.f64]
  arm_none d h := by cases d <;> simp_all [FixedWidth.f64, ColumnData.storage]
  storage_rebuild _ _ := rfl
  fits_wrap _ := trivial

theorem FixedWidth.lawful_i64 : FixedWidth.i64.Lawful .i64 where
  arm_some d _ _ h := by cases d <;> simp_all [FixedWidth.i64]
  arm_none d h := by cases d <;> simp_all [FixedWidth.i64, ColumnData.storage]
  storage_rebuild _ _ := rfl
  fits_wrap _ := trivial

theorem FixedWidth.lawful_u64 : FixedWidth.u64.Lawful .u64 where
  arm_some d _ _ h := by cases d <;> simp_all [FixedWidth.u64]
  arm_none d h := by cases d <;> simp_all [FixedWidth.u64, ColumnData.storage]
  storage_rebuild _ _ := rfl
  fits_wrap _ := trivial

/-- How an arm can stop early: for want of an input value, on a key past the table
(`KeyNotFound`), or on a panic other than `unreachable!`. `TypeMismatch` is
`column_mut`'s error, never an arm's. -/
def ArmError : Exit → Prop
  | .err (.typeMismatch _ _) => False
  | .err _ => True
  | .panic p => p ≠ .unreachable

theorem armError_indexOutOfBounds : ArmError (.panic .indexOutOfBounds) := nofun

/-- What every arm of a typed write does to the variant: it runs on the variant `sto`
and on no other, it leaves a store of that variant, and it stops early only in the
ways of `BatchWriter.ArmError`. -/
structure ArmSpec {α : Type} (sto : Storage)
    (arm : ColumnData → Option (Except Exit Unit × ColumnData × StatValues α)) : Prop where
  isSome_iff : ∀ d, (arm d).isSome ↔ d.storage = sto
  storage : ∀ d r d' stats, arm d = some (r, d', stats) → d'.storage = sto
  errors : ∀ d x d' stats, arm d = some (.error x, d', stats) → ArmError x

theorem storeAt_error {α β : Type} {col_data : List α} {idx : Nat} {value : α} {ret : β} {x : Exit}
    (h : (storeAt col_data idx value ret).1 = .error x) : x = .panic .indexOutOfBounds := by
  unfold storeAt Vec.setAt at h
  split_ifs at h
  simp_all

/-- A loop whose steps stop only as an arm may stops only so. -/
theorem fillLoop_armError {α β σ : Type} [LT α] [DecidableRel (α := α) (· < ·)]
    {put : Nat → β → σ → Except Exit α × σ}
    (hput : ∀ idx b s x, (put idx b s).1 = .error x → ArmError x) {idxs : List Nat}
    {bs : List β} {s : σ} {stats : StatValues α} {x : Exit}
    (h : (fillLoop put idxs bs s stats).1 = .error x) : ArmError x := by
  rcases fillLoop_error h with rfl | ⟨idx, b, s, h⟩
  · trivial
  · exact hput idx b s x h

section Arms

variable (i n : Nat) (ps : List Nat)

theorem armSpec_fixed {α : Type} [LT α] [DecidableRel (α := α) (· < ·)] {v : FixedWidth α}
    {sto : Storage} (hv : v.Lawful sto) (vs : List α) : ArmSpec sto (fixedArm i n ps v vs) where
  isSome_iff d := by
    cases h : v.arm d with
    | none => simpa [fixedArm, h] using hv.arm_none d h
    | some p =>
      simp only [fixedArm, h, Option.map_some', Option.isSome_some, true_iff]
      rw [hv.arm_some d p.1 p.2 h, hv.storage_rebuild]
  storage d r d' stats h := by
    simp only [fixedArm, Option.map_eq_some'] at h
    obtain ⟨_, -, h⟩ := h
    simp only [Prod.mk.injEq] at h
    rw [← h.2.1, hv.storage_rebuild]
  errors d x d' stats h := by
    simp only [fixedArm, Option.map_eq_some'] at h
    obtain ⟨_, -, h⟩ := h
    simp only [Prod.mk.injEq] at h
    exact fillLoop_armError (fun _ _ _ _ hx => storeAt_error hx ▸ armError_indexOutOfBounds) h.1

theorem armSpec_bool (vs : List Bool) : ArmSpec .bool (boolArm i n ps vs) where
  isSome_iff d := by cases d <;> simp [boolArm, ColumnData.storage]
  storage d r d' stats h := by
    cases d <;> simp only [boolArm, Option.some.injEq, Prod.mk.injEq, reduceCtorEq] at h
    rw [← h.2.1]; rfl
  errors d x d' stats h := by
    cases d <;> simp only [boolArm, Option.some.injEq, Prod.mk.injEq, reduceCtorEq] at h
    refine fillLoop_armError (fun idx b s y hy => ?_) h.1
    unfold putBool BitSet.set at hy
    split_ifs at hy
    cases hy
    exact armError_indexOutOfBounds

theorem armSpec_string (vs : List String) : ArmSpec .string (stringArm i ps vs) where
  isSome_iff d := by cases d <;> simp [stringArm, ColumnData.storage]
  storage d r d' stats h := by
    cases d <;> simp only [stringArm, Option.some.injEq, Prod.mk.injEq, reduceCtorEq] at h
    rw [← h.2.1]; rfl
  errors d x d' stats h := by
    cases d <;> simp only [stringArm, Option.some.injEq, Prod.mk.injEq, reduceCtorEq] at h
    refine fillLoop_armError (fun idx b s y hy => ?_) h.1
    unfold putString at hy
    split_ifs at hy
    cases hy
    exact nofun

theorem armSpec_tag (vs : List String) : ArmSpec .tag (tagArm i n ps vs) where
  isSome_iff d := by cases d <;> simp [tagArm, ColumnData.storage]
  storage d r d' stats h := by
    cases d <;> simp only [tagArm, Option.some.injEq, Prod.mk.injEq, reduceCtorEq] at h
    rw [← h.2.1]; rfl
  errors d x d' stats h := by
    cases d <;> simp only [tagArm, Option.some.injEq, Prod.mk.injEq, reduceCtorEq] at h
    refine fillLoop_armError (fun idx b s y hy => ?_) h.1
    simp only [putTag, Prod.map_fst] at hy
    exact storeAt_error hy ▸ armError_indexOutOfBounds

theorem armSpec_tagDict (keys : List Nat) (vs : List String) :
    ArmSpec .tag (tagDictArm i n ps keys vs) where
  isSome_iff d := by cases d <;> simp [tagDictArm, ColumnData.storage]
  storage d r d' stats h := by
    cases d <;> simp only [tagDictArm, Option.some.injEq, Prod.mk.injEq, reduceCtorEq] at h
    rw [← h.2.1]; rfl
  errors d x d' stats h := by
    cases d <;> simp only [tagDictArm, Option.some.injEq, Prod.mk.injEq, reduceCtorEq] at h
    refine fillLoop_armError (fun idx key s y hy => ?_) h.1
    obtain ⟨col_data, dict, mapping⟩ := s
    simp only [putTagDict] at hy
    split at hy
    · cases hy
      trivial
    · exact storeAt_error (by simpa using hy) ▸ armError_indexOutOfBounds
    · exact storeAt_error (by simpa using hy) ▸ armError_indexOutOfBounds

end Arms

/-! ### One call keeps the shape -/

section Resolved

variable {α : Type} {sto : Storage} {n : Nat} {valid_mask : Option (List UInt8)}
  {wrap : StatValues α → Statistics}
  {body : ColumnData → Option (Except Exit Unit × ColumnData × StatValues α)}
  {col col' : Column} {r : Except Exit Unit} {st : Option Statistics}

/-- The column-level part of a write whose arm keeps `sto` keeps the column's type and
variant, queues only records that fit it, and reaches `unreachable!` only on a column
of another variant. -/
theorem writeResolved_shape (hb : ArmSpec sto body) (hw : ∀ s, (wrap s).Fits sto)
    (h : writeResolved n valid_mask wrap body col = (r, col', st)) :
    col'.influxType = col.influxType ∧ col'.data.storage = col.data.storage ∧
      (∀ rec, st = some rec → rec.Fits col.data.storage) ∧
      (col.data.storage = sto → r ≠ .error (.panic .unreachable)) := by
  refine ⟨influxType_writeResolved h, ?_⟩
  rcases writeResolved_cases h with ⟨hn, -, hc, hst⟩ | ⟨r₀, data, stats, hd, hcase⟩
  · exact ⟨by rw [hc], by simp [hst],
      fun hs => absurd ((hb.isSome_iff col.data).mpr hs) (by simp [hn])⟩
  · have hsto := (hb.isSome_iff col.data).mp (by simp [hd])
    have hdata : data.storage = col.data.storage := (hb.storage _ _ _ _ hd).trans hsto.symm
    have hr₀ : r₀ ≠ .error (.panic .unreachable) := fun he =>
      (hb.errors _ _ _ _ (he ▸ hd) : Panic.unreachable ≠ .unreachable) rfl
    rcases hcase with ⟨hr, hst, hc⟩ | ⟨-, hc, ⟨-, hr, hst⟩ | ⟨hr, hst⟩⟩ <;> subst hc hst
    · refine ⟨hdata, by simp, fun _ => ?_⟩
      rcases hr with ⟨rfl, -⟩ | ⟨-, rfl⟩
      · exact hr₀
      · simp
    · exact ⟨hdata, by simpa [hsto] using hw _, by simp [hr]⟩
    · exact ⟨hdata, by simp, by simp [hr]⟩

/-- The column-level part of a write never returns `TypeMismatch`, which is
`column_mut`'s error, and on a column of another variant than its arm's it changes
nothing. -/
theorem writeResolved_other (hb : ArmSpec sto body) :
    (∀ t t', (writeResolved n valid_mask wrap body col).1 ≠ .error (.err (.typeMismatch t t'))) ∧
      (col.data.storage ≠ sto → (writeResolved n valid_mask wrap body col).2.1 = col) := by
  refine ⟨fun t t' h => ?_, fun hs => ?_⟩
  · rcases writeResolved_error h with h | ⟨data, stats, hd⟩ | h | h
    · cases h
    · exact hb.errors _ _ _ _ hd
    · cases h
    · cases h
  · unfold writeResolved
    rw [Option.not_isSome_iff_eq_none.mp (mt (hb.isSome_iff _).mp hs)]

end Resolved

theorem WriteCall.apply_shape (c : WriteCall) (i n : Nat) (col : Column) :
    (c.apply i n col).2.1.influxType = col.influxType ∧
      (c.apply i n col).2.1.data.storage = col.data.storage ∧
      (∀ rec, (c.apply i n col).2.2 = some rec → rec.Fits col.data.storage) ∧
      (col.data.storage = c.influxType.storage →
        (c.apply i n col).1 ≠ .error (.panic .unreachable)) := by
  cases c with
  | f64 =>
    exact writeResolved_shape (armSpec_fixed _ _ _ FixedWidth.lawful_f64 _)
      FixedWidth.lawful_f64.fits_wrap rfl
  | i64 =>
    exact writeResolved_shape (armSpec_fixed _ _ _ FixedWidth.lawful_i64 _)
      FixedWidth.lawful_i64.fits_wrap rfl
  | u64 =>
    exact writeResolved_shape (armSpec_fixed _ _ _ FixedWidth.lawful_u64 _)
      FixedWidth.lawful_u64.fits_wrap rfl
  | bool => refine writeResolved_shape (armSpec_bool _ _ _ _) ?_ rfl; exact fun _ => trivial
  | string => refine writeResolved_shape (armSpec_string _ _ _) ?_ rfl; exact fun _ => trivial
  | tag => refine writeResolved_shape (armSpec_tag _ _ _ _) ?_ rfl; exact fun _ => trivial
  | tagDict => refine writeResolved_shape (armSpec_tagDict _ _ _ _ _) ?_ rfl; exact fun _ => trivial
  | time _ values =>
    have h : writeResolved n none FixedWidth.i64.wrap
        (fixedArm i n (List.range n) FixedWidth.i64 values) col = _ := rfl
    exact writeResolved_shape (armSpec_fixed i n (List.range n) FixedWidth.lawful_i64 values)
      FixedWidth.lawful_i64.fits_wrap h

/-- A column-level call never returns `TypeMismatch`, and on a column of another variant
than its type prescribes it changes nothing. -/
theorem WriteCall.apply_other (c : WriteCall) (i n : Nat) (col : Column) :
    (∀ t t', (c.apply i n col).1 ≠ .error (.err (.typeMismatch t t'))) ∧
      (col.data.storage ≠ c.influxType.storage → (c.apply i n col).2.1 = col) := by
  cases c with
  | f64 => exact writeResolved_other (armSpec_fixed _ _ _ FixedWidth.lawful_f64 _)
  | i64 => exact writeResolved_other (armSpec_fixed _ _ _ FixedWidth.lawful_i64 _)
  | u64 => exact writeResolved_other (armSpec_fixed _ _ _ FixedWidth.lawful_u64 _)
  | bool => exact writeResolved_other (armSpec_bool _ _ _ _)
  | string => exact writeResolved_other (armSpec_string _ _ _)
  | tag => exact writeResolved_other (armSpec_tag _ _ _ _)
  | tagDict => exact writeResolved_other (armSpec_tagDict _ _ _ _ _)
  | time _ values =>
    exact writeResolved_other (armSpec_fixed i n (List.range n) FixedWidth.lawful_i64 values)

/-! ### One call keeps the batch's shape -/

namespace Writer

variable {w w' : Writer} {c : WriteCall} {r : Except Exit Unit}

theorem namesOk_register {name : String} {ty : InfluxColumnType} (h : w.batch.NamesOk)
    (hl : w.batch.columnNames.lookup name = none) : (w.register name ty).batch.NamesOk := by
  refine ⟨by simp [h.1, List.range_succ], ?_⟩
  simpa [List.nodup_append, h.2] using lookup_eq_none_iff_not_mem.mp hl

/-- The fields of a writer a write call never touches. -/
theorem write_frame (h : w.batch.NamesOk) (hw : w.write c = (r, w')) :
    w'.initialRows = w.initialRows ∧ w'.toInsert = w.toInsert ∧ w'.success = w.success ∧
      w'.batch.rowCount = w.batch.rowCount ∧ w.batch.columnNames <+: w'.batch.columnNames ∧
      w.batch.columns.length ≤ w'.batch.columns.length := by
  rw [write_eq] at hw
  rcases writeColumn_cases h hw with ⟨rfl, -⟩ | ⟨idx, col, w₁, -, -, hw₁, -, -, -, rfl⟩
  · exact ⟨rfl, rfl, rfl, rfl, List.prefix_refl _, le_rfl⟩
  · rcases hw₁ with rfl | ⟨-, -, -, rfl⟩ <;> simp [setColumn, register]

/-- **A property of every column survives a write call** when a fresh column has it
and the column-level part of the call keeps it, given what the call returned. -/
theorem write_columns {P : Column → Prop} (h : w.batch.NamesOk)
    (hP : ∀ col ∈ w.batch.columns, P col) (hnew : P (Column.new w.initialRows c.influxType))
    (hstep : ∀ col, P col → col.influxType = c.influxType → col.valid.length = w.initialRows →
      r = (c.apply w.initialRows w.toInsert col).1 → P (c.apply w.initialRows w.toInsert col).2.1)
    (hw : w.write c = (r, w')) : ∀ col ∈ w'.batch.columns, P col := by
  rw [write_eq] at hw
  rcases writeColumn_cases h hw with ⟨rfl, -⟩ | ⟨idx, col, w₁, hcol, -, hw₁, hty, hlen, hr, rfl⟩
  · exact hP
  · have hP₁ : ∀ col ∈ w₁.batch.columns, P col := by
      rcases hw₁ with rfl | ⟨-, -, -, rfl⟩
      · exact hP
      · simpa [or_imp, forall_and] using And.intro hP hnew
    intro x hx
    rcases List.mem_or_eq_of_mem_set hx with hx | rfl
    · exact hP₁ x hx
    · exact hstep col (hP₁ col (List.getElem?_mem hcol)) hty hlen hr

/-- Replacing a column by one of the same variant keeps the variant at every position. -/
theorem getElem?_set_storage {cols : List Column} {idx j : Nat} {col col' x : Column}
    (hcol : cols[idx]? = some col) (hsto : col'.data.storage = col.data.storage)
    (hx : cols[j]? = some x) :
    ∃ y, (cols.set idx col')[j]? = some y ∧ y.data.storage = x.data.storage := by
  by_cases hj : idx = j
  · subst hj
    rw [hcol] at hx
    cases hx
    exact ⟨col', by simp [List.getElem?_set, (List.getElem?_eq_some_iff.mp hcol).1], hsto⟩
  · exact ⟨x, by rw [List.getElem?_set_ne hj, hx], rfl⟩

/-- One write call keeps the name index well formed. -/
theorem write_namesOk (hn : w.batch.NamesOk) (hw : w.write c = (r, w')) : w'.batch.NamesOk := by
  rw [write_eq] at hw
  rcases writeColumn_cases hn hw with ⟨rfl, -⟩ | ⟨idx, col, w₁, -, -, hw₁, -, -, -, rfl⟩
  · exact hn
  · have : w₁.batch.NamesOk := by
      rcases hw₁ with rfl | ⟨hl, -, -, rfl⟩
      · exact hn
      · exact namesOk_register hn hl
    exact ⟨by simpa using this.1, this.2⟩

/-- **One write call keeps the shape**: the name index, the storage variants and the
fit of the records; and it never reaches `unreachable!`. -/
theorem write_shape (hn : w.batch.NamesOk) (hs : w.batch.StorageOk) (hf : w.RecordsFit)
    (hw : w.write c = (r, w')) :
    w'.batch.NamesOk ∧ w'.batch.StorageOk ∧ w'.RecordsFit ∧ r ≠ .error (.panic .unreachable) := by
  refine ⟨write_namesOk hn hw, write_columns hn hs (by simp) (fun col hcol _ _ _ => ?_) hw, ?_⟩
  · obtain ⟨h1, h2, -⟩ := c.apply_shape w.initialRows w.toInsert col
    rw [h1, h2, hcol]
  · rw [write_eq] at hw
    rcases writeColumn_cases hn hw with ⟨rfl, hr⟩ | ⟨idx, col, w₁, hcol, -, hw₁, hty, -, rfl, rfl⟩
    · exact ⟨hf, by rcases hr with ⟨_, rfl | rfl⟩ <;> simp⟩
    · obtain ⟨-, hsto, hfits, hne⟩ := c.apply_shape w.initialRows w.toInsert col
      have hcols₁ : ∀ (j : Nat) (x : Column), w.batch.columns[j]? = some x →
          w₁.batch.columns[j]? = some x := by
        rcases hw₁ with rfl | ⟨-, -, -, rfl⟩
        · exact fun _ _ => id
        · intro j x hx
          rw [register_columns, List.getElem?_append_left (List.getElem?_eq_some_iff.mp hx).1]
          exact hx
      have hsto₁ : col.data.storage = col.influxType.storage := by
        rcases hw₁ with rfl | ⟨-, -, rfl, rfl⟩
        · exact hs col (List.getElem?_mem hcol)
        · simp
      refine ⟨fun p hp => ?_, hne (hsto₁.trans (congrArg _ hty))⟩
      simp only [List.mem_append, List.mem_map, Option.mem_toList] at hp
      rcases hp with hp | ⟨rec, hrec, rfl⟩
      · obtain ⟨x, hx, hfx⟩ := hf p hp
        obtain ⟨y, hy, hyx⟩ := getElem?_set_storage hcol hsto (hcols₁ _ _ hx)
        exact ⟨y, by simpa using hy, hyx ▸ hfx⟩
      · obtain ⟨y, hy, hyx⟩ := getElem?_set_storage hcol hsto hcol
        exact ⟨y, by simpa using hy, hyx ▸ hfits rec hrec⟩

end Writer

end BatchWriter
