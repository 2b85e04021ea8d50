import BatchWriter.Loop

/-!
# What one write call does

Every later proof about a write goes through the three inversion lemmas of this
file and never unfolds a write again.

* `BatchWriter.Writer.writeColumn_cases`: in a batch whose name index is well
  formed, a call either leaves the writer as it was (a type mismatch, or the
  row-count assertion of `column_mut`), or it resolves its column, possibly new, and
  replaces it by what the column-level part of the call returns, queueing that
  part's record.
* `BatchWriter.writeResolved_cases`: the column-level part either stops in the arm
  (the store as the arm left it), or appends the validity bits of the mask and,
  unless the `u64` subtraction fails, returns the record.
* `BatchWriter.fillLoop_error`: the loop stops only for want of an input item or
  because a step of `put` stopped.

The well-formedness of the name index, `BatchWriter.MutableBatch.NamesOk`, says
that the names are registered at the positions `0, 1, …` of the columns in order,
each name once. It is an invariant of every reachable batch
(`BatchWriter.Shape`), and it is what rules out `column_mut`'s other paths.
-/

namespace BatchWriter

/-! ### Name lookup -/

section Lookup

variable {α β : Type} [BEq α] [LawfulBEq α] {l : List (α × β)} {a : α} {b : β}

theorem lookup_eq_none_iff_not_mem : l.lookup a = none ↔ a ∉ l.map Prod.fst := by
  simp only [List.lookup_eq_none_iff, bne_iff_ne, List.mem_map, not_exists, not_and]
  exact ⟨fun h p hp ha => h p hp ha.symm, fun h p hp ha => h p hp ha.symm⟩

theorem mem_of_lookup_eq_some (h : l.lookup a = some b) : (a, b) ∈ l := by
  obtain ⟨l₁, l₂, rfl, -⟩ := List.lookup_eq_some_iff.mp h
  simp

/-- With distinct keys, `lookup` finds exactly the entries of the list. -/
theorem lookup_eq_some_iff_mem (h : (l.map Prod.fst).Nodup) :
    l.lookup a = some b ↔ (a, b) ∈ l := by
  induction l with
  | nil => simp
  | cons p l ih =>
    obtain ⟨k, c⟩ := p
    rw [List.map_cons, List.nodup_cons] at h
    by_cases hk : a = k
    · subst hk
      have : (a, b) ∉ l := fun hm => h.1 (List.mem_map.mpr ⟨_, hm, rfl⟩)
      simp [this, eq_comm]
    · simp [List.lookup_cons, beq_false_of_ne hk, hk, ih h.2]

/-- With distinct keys, a permutation of a list looks up the same. -/
theorem lookup_eq_of_perm {l' : List (α × β)} (hp : l.Perm l') (h : (l'.map Prod.fst).Nodup)
    (a : α) : l.lookup a = l'.lookup a := by
  have h' : (l.map Prod.fst).Nodup := ((hp.map Prod.fst).nodup_iff).mpr h
  ext b
  rw [Option.mem_def, Option.mem_def, lookup_eq_some_iff_mem h', lookup_eq_some_iff_mem h,
    hp.mem_iff]

end Lookup

/-! ### The name index -/

/-- The name index of a batch registers pairwise distinct names at the positions
`0, 1, …` of its columns, in order. -/
def MutableBatch.NamesOk (b : MutableBatch) : Prop :=
  b.columnNames.map Prod.snd = List.range b.columns.length ∧ (b.columnNames.map Prod.fst).Nodup

theorem MutableBatch.NamesOk.lookup_lt {b : MutableBatch} {name : String} {idx : Nat}
    (h : b.NamesOk) (hl : b.columnNames.lookup name = some idx) : idx < b.columns.length := by
  have : idx ∈ b.columnNames.map Prod.snd := List.mem_map.mpr ⟨_, mem_of_lookup_eq_some hl, rfl⟩
  simpa [h.1] using this

namespace Writer

/-- The writer after `column_mut` has registered the new name `name` at the next
free position and pushed a column of type `ty` there. -/
def register (w : Writer) (name : String) (ty : InfluxColumnType) : Writer :=
  { w with batch := { w.batch with
      columnNames := w.batch.columnNames ++ [(name, w.batch.columns.length)]
      columns := w.batch.columns ++ [Column.new w.initialRows ty] } }

variable {w : Writer} {name : String} {ty : InfluxColumnType}

@[simp] theorem register_columns :
    (w.register name ty).batch.columns = w.batch.columns ++ [Column.new w.initialRows ty] := rfl

@[simp] theorem register_columnNames : (w.register name ty).batch.columnNames =
    w.batch.columnNames ++ [(name, w.batch.columns.length)] := rfl

@[simp] theorem register_initialRows : (w.register name ty).initialRows = w.initialRows := rfl

@[simp] theorem register_toInsert : (w.register name ty).toInsert = w.toInsert := rfl

@[simp] theorem register_statistics : (w.register name ty).statistics = w.statistics := rfl

@[simp] theorem register_rowCount : (w.register name ty).batch.rowCount = w.batch.rowCount := rfl

@[simp] theorem setColumn_columns (idx : Nat) (col : Column) :
    (w.setColumn idx col).batch.columns = w.batch.columns.set idx col := rfl

@[simp] theorem setColumn_columnNames (idx : Nat) (col : Column) :
    (w.setColumn idx col).batch.columnNames = w.batch.columnNames := rfl

@[simp] theorem setColumn_initialRows (idx : Nat) (col : Column) :
    (w.setColumn idx col).initialRows = w.initialRows := rfl

@[simp] theorem setColumn_toInsert (idx : Nat) (col : Column) :
    (w.setColumn idx col).toInsert = w.toInsert := rfl

@[simp] theorem setColumn_statistics (idx : Nat) (col : Column) :
    (w.setColumn idx col).statistics = w.statistics := rfl

@[simp] theorem setColumn_rowCount (idx : Nat) (col : Column) :
    (w.setColumn idx col).batch.rowCount = w.batch.rowCount := rfl

/-- **How `column_mut` resolves a name** in a batch whose name index is well formed:
a registered name gives its column, which is then checked; a new name is
registered, and its new column passes the checks. -/
theorem columnMut_cases (h : w.batch.NamesOk) :
    (∃ idx col, w.batch.columnNames.lookup name = some idx ∧ w.batch.columns[idx]? = some col ∧
      w.columnMut name ty =
        (if col.influxType ≠ ty then .error (.err (.typeMismatch col.influxType ty))
          else if col.valid.length ≠ w.initialRows then .error (.panic .columnRows)
          else .ok (idx, col), w)) ∨
    (w.batch.columnNames.lookup name = none ∧
      w.columnMut name ty = (.ok (w.batch.columns.length, Column.new w.initialRows ty),
        w.register name ty)) := by
  cases hl : w.batch.columnNames.lookup name with
  | some idx =>
    have hlt := h.lookup_lt hl
    obtain ⟨col, hcol⟩ : ∃ col, w.batch.columns[idx]? = some col :=
      ⟨_, List.getElem?_eq_getElem hlt⟩
    refine .inl ⟨idx, col, rfl, hcol, ?_⟩
    simp only [columnMut, hl, checkColumn, Nat.ne_of_gt hlt, if_false, hcol]
    split_ifs <;> rfl
  | none =>
    refine .inr ⟨rfl, ?_⟩
    simp [columnMut, hl, checkColumn, register]

/-- **How a write resolves its column.** In a batch whose name index is well formed,
a write either leaves the writer as it was, with a type mismatch or a failed
row-count assertion, or it resolves a column of its type with `initial_rows`
validity bits, registered under its name (a new one, when the name is new), and
stores back what `write` returns for it, queueing its record. -/
theorem writeColumn_cases {f : Column → Except Exit Unit × Column × Option Statistics}
    {r : Except Exit Unit} {w' : Writer} (h : w.batch.NamesOk)
    (hw : w.writeColumn name ty f = (r, w')) :
    (w' = w ∧ ∃ col, r = .error (.err (.typeMismatch col ty)) ∨ r = .error (.panic .columnRows)) ∨
    ∃ idx col w₁, w₁.batch.columns[idx]? = some col ∧ w₁.batch.columnNames.lookup name = some idx ∧
      (w₁ = w ∨ (w.batch.columnNames.lookup name = none ∧ idx = w.batch.columns.length ∧
        col = Column.new w.initialRows ty ∧ w₁ = w.register name ty)) ∧
      col.influxType = ty ∧ col.valid.length = w.initialRows ∧ r = (f col).1 ∧
      w' = { w₁.setColumn idx (f col).2.1 with
        statistics := w.statistics ++ (f col).2.2.toList.map (idx, ·) } := by
  rcases @columnMut_cases w name ty h with ⟨idx, col, hl, hcol, hm⟩ | ⟨hl, hm⟩
  · simp only [writeColumn, hm] at hw
    split_ifs at hw with h1 h2
    · exact .inl ⟨(Prod.mk.inj hw).2.symm, col.influxType, .inl (Prod.mk.inj hw).1.symm⟩
    · exact .inl ⟨(Prod.mk.inj hw).2.symm, ty, .inr (Prod.mk.inj hw).1.symm⟩
    · refine .inr ⟨idx, col, w, hcol, hl, .inl rfl, not_not.mp h1, not_not.mp h2, ?_⟩
      simp only at hw
      exact ⟨(Prod.mk.inj hw).1.symm, (Prod.mk.inj hw).2.symm⟩
  · simp only [writeColumn, hm] at hw
    refine .inr ⟨_, _, _, ?_, ?_, .inr ⟨hl, rfl, rfl, rfl⟩, rfl, by simp, ?_⟩
    · simp
    · simp [List.lookup_append, hl]
    · exact ⟨(Prod.mk.inj hw).1.symm, (Prod.mk.inj hw).2.symm⟩

end Writer

/-! ### The column-level part of a write -/

/-- The validity bits `append_valid_mask` appends: the first `n` bits of the mask, or
`n` set bits without one. -/
def validBits (valid_mask : Option (List UInt8)) (n : Nat) : List Bool :=
  match valid_mask with
  | some mask => (List.range n).map (maskBit mask)
  | none => List.replicate n true

@[simp] theorem length_validBits (valid_mask : Option (List UInt8)) (n : Nat) :
    (validBits valid_mask n).length = n := by
  cases valid_mask <;> simp [validBits]

theorem appendValidMask_eq_ok {col col' : Column} {valid_mask : Option (List UInt8)} {n : Nat}
    (h : appendValidMask col valid_mask n = .ok col') :
    col' = { col with valid := col.valid ++ validBits valid_mask n } := by
  cases valid_mask with
  | none => simpa [appendValidMask, validBits, eq_comm] using h
  | some mask =>
    simp only [appendValidMask, BitSet.appendBits] at h
    split_ifs at h
    simp_all [validBits, eq_comm]

theorem appendValidMask_eq_error {col : Column} {valid_mask : Option (List UInt8)} {n : Nat}
    {x : Exit} (h : appendValidMask col valid_mask n = .error x) : x = .panic .appendBits := by
  cases valid_mask with
  | none => simp [appendValidMask] at h
  | some mask =>
    simp only [appendValidMask, BitSet.appendBits] at h
    split_ifs at h
    simp_all

section Resolved

variable {α : Type} {n : Nat} {valid_mask : Option (List UInt8)} {wrap : StatValues α → Statistics}
  {body : ColumnData → Option (Except Exit Unit × ColumnData × StatValues α)}
  {col col' : Column} {r : Except Exit Unit} {st : Option Statistics}

/-- **What the column-level part of a write returns.** Either the arm is the
`unreachable!` one, and nothing changed; or the arm ran, and the column holds the
store it left, with the validity bits of the mask appended when its loop
succeeded; the record is returned exactly when the call succeeds. -/
theorem writeResolved_cases (h : writeResolved n valid_mask wrap body col = (r, col', st)) :
    (body col.data = none ∧ r = .error (.panic .unreachable) ∧ col' = col ∧ st = none) ∨
    ∃ r₀ data stats, body col.data = some (r₀, data, stats) ∧
      ((((r = r₀ ∧ r₀ ≠ .ok ()) ∨ (r₀ = .ok () ∧ r = .error (.panic .appendBits))) ∧ st = none ∧
          col' = { col with data }) ∨
       (r₀ = .ok () ∧ col' = { col with data, valid := col.valid ++ validBits valid_mask n } ∧
        ((stats.totalCount ≤ n ∧ r = .ok () ∧
            st = some (wrap (stats.updateForNulls (n - stats.totalCount)))) ∨
          (r = .error (.panic .subtractOverflow) ∧ st = none)))) := by
  unfold writeResolved at h
  split at h
  · rename_i hb
    simp only [Prod.mk.injEq] at h
    exact .inl ⟨hb, h.1.symm, h.2.1.symm, h.2.2.symm⟩
  · rename_i x data stats hb
    simp only [Prod.mk.injEq] at h
    exact .inr ⟨_, data, stats, hb, .inl ⟨.inl ⟨h.1.symm, by simp⟩, h.2.2.symm, h.2.1.symm⟩⟩
  · rename_i data stats hb
    refine .inr ⟨_, data, stats, hb, ?_⟩
    split at h
    · rename_i x hx
      simp only [Prod.mk.injEq] at h
      exact .inl ⟨.inr ⟨rfl, by rw [← h.1, appendValidMask_eq_error hx]⟩, h.2.2.symm, h.2.1.symm⟩
    · rename_i c hc
      obtain rfl := appendValidMask_eq_ok hc
      split_ifs at h with hle <;> simp only [Prod.mk.injEq] at h
      · exact .inr ⟨rfl, h.2.1.symm, .inl ⟨hle, h.1.symm, h.2.2.symm⟩⟩
      · exact .inr ⟨rfl, h.2.1.symm, .inr ⟨h.1.symm, h.2.2.symm⟩⟩

/-- Where the column-level part of a write stops: at the `unreachable!` arm, in its arm,
in `append_valid_mask`, or on the subtraction of the record's null count. -/
theorem writeResolved_error {x : Exit} (h : (writeResolved n valid_mask wrap body col).1 = .error x) :
    x = .panic .unreachable ∨ (∃ data stats, body col.data = some (.error x, data, stats)) ∨
      x = .panic .appendBits ∨ x = .panic .subtractOverflow := by
  unfold writeResolved at h
  split at h
  · exact .inl (Except.error.inj h).symm
  · rename_i data stats hb
    obtain rfl := Except.error.inj h
    exact .inr (.inl ⟨data, stats, hb⟩)
  · split at h
    · rename_i hx
      obtain rfl := Except.error.inj h
      exact .inr (.inr (.inl (appendValidMask_eq_error hx)))
    · split_ifs at h
      exact .inr (.inr (.inr (Except.error.inj h).symm))

theorem influxType_writeResolved (h : writeResolved n valid_mask wrap body col = (r, col', st)) :
    col'.influxType = col.influxType := by
  rcases writeResolved_cases h with ⟨-, -, rfl, -⟩ | ⟨_, _, _, -, ⟨-, -, rfl⟩ | ⟨-, rfl, -⟩⟩ <;> rfl

/-- Whatever the call returns, it leaves the store its arm left. -/
theorem data_writeResolved {r₀ : Except Exit Unit} {data : ColumnData} {stats : StatValues α}
    (hb : body col.data = some (r₀, data, stats)) :
    (writeResolved n valid_mask wrap body col).2.1.data = data := by
  obtain ⟨r, col', st, h⟩ : ∃ r col' st, writeResolved n valid_mask wrap body col = (r, col', st) :=
    ⟨_, _, _, rfl⟩
  rw [h]
  rcases writeResolved_cases h with ⟨hn, -⟩ | ⟨r₁, d, s, hb', ⟨-, -, rfl⟩ | ⟨-, rfl, -⟩⟩
  · rw [hb] at hn
    cases hn
  all_goals
    simp only [hb, Option.some.injEq, Prod.mk.injEq] at hb'
    obtain ⟨-, rfl, -⟩ := hb'
    rfl

end Resolved

/-! ### Where the loop stops -/

/-- The loop stops early only for want of an input item, or where a step of `put`
stopped. -/
theorem fillLoop_error {α β σ : Type} [LT α] [DecidableRel (α := α) (· < ·)]
    {put : Nat → β → σ → Except Exit α × σ} {idxs : List Nat} {bs : List β} {s : σ}
    {stats : StatValues α} {x : Exit} (h : (fillLoop put idxs bs s stats).1 = .error x) :
    x = .err .insufficientValues ∨ ∃ idx b s, (put idx b s).1 = .error x := by
  induction idxs generalizing bs s stats with
  | nil => simp [fillLoop] at h
  | cons idx idxs ih =>
    cases bs with
    | nil => simp_all [fillLoop]
    | cons b bs =>
      simp only [fillLoop] at h
      split at h
      · rename_i hp
        exact .inr ⟨idx, b, s, by simp_all⟩
      · exact ih h

end BatchWriter
