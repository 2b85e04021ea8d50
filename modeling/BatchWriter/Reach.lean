import BatchWriter.Walk

/-!
# The shape of every reachable state

A run is any sequence of the calls of `BatchWriter.Step`: transactions opened on the
batch, write calls that return, commits that complete, drops. This file proves what
each call keeps, then what every run keeps.

`commit` and a drop keep the name index and the positions outright: `commit` only
walks the columns, and a rollback cuts their rows but keeps every column, the ones
the transaction created included. Both keep each column's storage variant. With the
per-call results of `BatchWriter.Shape`, that makes the three facts of the shape
invariant (`BatchWriter.Sys.ShapeOk`) hold along every run, and a name's
`(name, position)` entry, once registered, stays in the index for good
(`BatchWriter.reachable_shape`).
-/

namespace BatchWriter

namespace Writer

variable {w w' : Writer} {r : Except Exit Unit}

/-- The pending records in the order `commit` consumes them, once the row sum is
within `usize::MAX`. -/
theorem commit_fst (h : w.initialRows + w.toInsert ≤ usizeMax) :
    w.commit.1 = (commitColumns w.initialRows (w.initialRows + w.toInsert) 0 w.batch.columns
      (w.statistics.insertionSort fun a b => a.1 ≤ b.1)).1 := by
  rw [commit_of_le h]
  dsimp only [commitRows]
  split <;> simp_all

/-- **What a commit that completes leaves**: the columns of a walk that completed,
the same names, and `initial_rows + to_insert` rows. -/
theorem commit_eq_ok (h : w.commit = (.ok (), w')) :
    commitColumns w.initialRows (w.initialRows + w.toInsert) 0 w.batch.columns
        (w.statistics.insertionSort fun a b => a.1 ≤ b.1) = (.ok (), w'.batch.columns) ∧
      w'.batch.columnNames = w.batch.columnNames ∧
      w'.batch.rowCount = w.initialRows + w.toInsert := by
  rw [commit_of_le (le_usizeMax_of_commit h)] at h
  dsimp only [commitRows] at h
  split at h <;> simp only [Prod.mk.injEq, reduceCtorEq, false_and] at h
  rename_i cols hc
  obtain ⟨-, rfl⟩ := h
  exact ⟨hc, rfl, rfl⟩

/-- Each column a commit that completes leaves is one the walk may leave of the column
at its position. -/
theorem commit_forall₂ (h : w.commit = (.ok (), w')) :
    List.Forall₂ (CommitsTo (w.initialRows + w.toInsert)) w.batch.columns w'.batch.columns := by
  have := @commitColumns_forall₂ w.initialRows (w.initialRows + w.toInsert) 0 w.batch.columns
    (w.statistics.insertionSort fun a b => a.1 ≤ b.1)
  rwa [(commit_eq_ok h).1] at this

@[simp] theorem drop_columnNames (w : Writer) : w.drop.columnNames = w.batch.columnNames := by
  unfold drop
  split <;> rfl

@[simp] theorem drop_rowCount (w : Writer) : w.drop.rowCount = w.batch.rowCount := by
  unfold drop
  split <;> rfl

theorem drop_columns_of_not_success (h : w.success = false) :
    w.drop.columns = w.batch.columns.map (·.truncate w.initialRows) := by
  simp [drop, h]

end Writer

/-! ### The shape invariant -/

/-- The shape of a state: a well-formed name index and the right storage variants,
and for a live writer, records that fit their columns. -/
def Sys.ShapeOk : Sys → Prop
  | .idle b => b.NamesOk ∧ b.StorageOk
  | .busy w => w.batch.NamesOk ∧ w.batch.StorageOk ∧ w.RecordsFit

theorem Sys.ShapeOk.batch {s : Sys} (h : s.ShapeOk) : s.batch.NamesOk ∧ s.batch.StorageOk := by
  cases s with
  | idle b => exact h
  | busy w => exact ⟨h.1, h.2.1⟩

/-- Columns related one to one by a change that keeps their type and variant keep the
shape of a batch with the same names. -/
theorem MutableBatch.shape_of_forall₂ {b b' : MutableBatch} {R : Column → Column → Prop}
    (hR : ∀ {c c'}, R c c' → c'.influxType = c.influxType ∧ c'.data.storage = c.data.storage)
    (h : List.Forall₂ R b.columns b'.columns) (hnames : b'.columnNames = b.columnNames)
    (hb : b.NamesOk ∧ b.StorageOk) : b'.NamesOk ∧ b'.StorageOk := by
  refine ⟨by rw [MutableBatch.NamesOk, hnames, ← h.length_eq]; exact hb.1, ?_⟩
  refine forall_mem_of_forall₂ h (fun hr hc => ?_) hb.2
  rw [(hR hr).1, (hR hr).2, hc]

/-- A commit that completes keeps the shape of the batch. -/
theorem Writer.commit_shape {w w' : Writer} (hb : w.batch.NamesOk ∧ w.batch.StorageOk)
    (h : w.commit = (.ok (), w')) : w'.batch.NamesOk ∧ w'.batch.StorageOk :=
  MutableBatch.shape_of_forall₂ CommitsTo.storage (commit_forall₂ h) (commit_eq_ok h).2.1 hb

/-- A drop keeps the shape of the batch. -/
theorem Writer.drop_shape {w : Writer} (hb : w.batch.NamesOk ∧ w.batch.StorageOk) :
    w.drop.NamesOk ∧ w.drop.StorageOk := by
  unfold drop
  split
  · exact hb
  · have h : List.Forall₂ (fun c c' => c' = c.truncate w.initialRows) w.batch.columns
        (w.batch.columns.map (·.truncate w.initialRows)) := by
      simp [List.forall₂_map_right_iff, List.forall₂_same]
    exact MutableBatch.shape_of_forall₂ (by rintro c _ rfl; simp) h rfl hb

/-- **Every step keeps the shape**, and only ever appends to the name index. -/
theorem Step.shapeOk {s t : Sys} (h : Step s t) (hs : s.ShapeOk) :
    t.ShapeOk ∧ s.batch.columnNames <+: t.batch.columnNames := by
  cases h with
  | new b n => exact ⟨⟨hs.1, hs.2, fun _ h => by simp [Writer.new] at h⟩, List.prefix_refl _⟩
  | write c hw _ =>
    obtain ⟨hn, hsto, hf, -⟩ := Writer.write_shape hs.1 hs.2.1 hs.2.2 hw
    exact ⟨⟨hn, hsto, hf⟩, (Writer.write_frame hs.1 hw).2.2.2.2.1⟩
  | commit hw =>
    exact ⟨Writer.commit_shape ⟨hs.1, hs.2.1⟩ hw, by simp [Sys.batch, (Writer.commit_eq_ok hw).2.1]⟩
  | drop w => exact ⟨Writer.drop_shape ⟨hs.1, hs.2.1⟩, by simp [Sys.batch]⟩

/-- Every run keeps the shape, and only ever appends to the name index. -/
theorem shapeOk_of_reflTransGen {s t : Sys} (h : Relation.ReflTransGen Step s t)
    (hs : s.ShapeOk) : t.ShapeOk ∧ s.batch.columnNames <+: t.batch.columnNames := by
  induction h with
  | refl => exact ⟨hs, List.prefix_refl _⟩
  | tail _ hstep ih =>
    have := hstep.shapeOk ih.1
    exact ⟨this.1, ih.2.trans this.2⟩

theorem reachable_shapeOk {s : Sys} (h : Reachable s) : s.ShapeOk :=
  (shapeOk_of_reflTransGen h ⟨⟨rfl, List.nodup_nil⟩, fun _ h => by cases h⟩).1

/-- The pending records of a writer whose records fit never send `commit` to its
`unreachable!` arm. -/
theorem Writer.commit_ne_unreachable {w : Writer} (hf : w.RecordsFit) :
    w.commit.1 ≠ .error (.panic .unreachable) := by
  by_cases h : w.initialRows + w.toInsert ≤ usizeMax
  case neg => simp [commit_of_overflow (Nat.lt_of_not_le h)]
  rw [commit_fst h]
  refine commitColumns_ne_unreachable fun p hp _ => ?_
  simpa using hf p ((List.perm_insertionSort _ _).subset hp)

/-- **The shape of every reachable state.** The name index maps pairwise distinct
names one to one onto the positions `0, 1, …` of the columns, every column has the
storage variant of its type, every `(name, position)` entry stays in the index for
the rest of the run, and no write call and no commit of a live writer reaches an
`unreachable!` arm. -/
theorem reachable_shape {s : Sys} (hs : Reachable s) :
    s.batch.NamesOk ∧ s.batch.StorageOk ∧
      (∀ t, Relation.ReflTransGen Step s t → s.batch.columnNames <+: t.batch.columnNames) ∧
      ∀ w, s = .busy w → ∀ c, (w.write c).1 ≠ .error (.panic .unreachable) ∧
        w.commit.1 ≠ .error (.panic .unreachable) := by
  have hshape := reachable_shapeOk hs
  refine ⟨hshape.batch.1, hshape.batch.2, fun t ht => (shapeOk_of_reflTransGen ht hshape).2, ?_⟩
  rintro w rfl c
  exact ⟨(Writer.write_shape hshape.1 hshape.2.1 hshape.2.2 rfl).2.2.2,
    Writer.commit_ne_unreachable hshape.2.2⟩

/-- The shape after one `write_tag` on a fresh batch. -/
theorem reachable_shape_after_write_tag :
    let w := ((Writer.new MutableBatch.new 1).write (.tag "t" none ["a"])).2
    Reachable (.busy w) ∧ w.batch.NamesOk ∧ w.batch.StorageOk ∧
      (∀ t, Relation.ReflTransGen Step (.busy w) t → w.batch.columnNames <+: t.batch.columnNames) ∧
      ∀ w', Sys.busy w = .busy w' → ∀ c, (w'.write c).1 ≠ .error (.panic .unreachable) ∧
        w'.commit.1 ≠ .error (.panic .unreachable) :=
  have h : Reachable (.busy ((Writer.new MutableBatch.new 1).write (.tag "t" none ["a"])).2) :=
    .tail (.single (.new _ 1)) (.write (.tag "t" none ["a"]) (Prod.ext rfl rfl) (by rfl))
  ⟨h, reachable_shape h⟩

end BatchWriter
