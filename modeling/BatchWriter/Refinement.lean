import BatchWriter.Unwind

/-!
# Runs of the batch refine a store of tables

`BatchWriter.commit_table_log` and `BatchWriter.drop_table` each look at one transaction.
This file looks at whole runs: any number of transactions, each ended by a commit, a
drop, or a call that panics and is unwound, with calls in between that return `Ok` or an
error. A run is read here as the list
of its events (`BatchWriter.Event`), and the same list drives an abstract batch
(`BatchWriter.TableSys`): a table between transactions, a draft during one. Opening a
writer begins a draft (`BatchWriter.Table.begin`), a call steps it by what it returned
(`BatchWriter.Draft.step`), a commit pads it (`BatchWriter.Draft.commit`) and a drop cuts
every column back to the rows before the transaction (`BatchWriter.Draft.rollback`). A
caught panic is read as a failed call, then a drop.

The batch refines this store on every run from a reachable batch in which no
`write_bool` returns `Ok` under a name that a failed `write_bool` of the same
transaction left set bits under (`BatchWriter.RetryFree`): between transactions, the
batch read as a table is the table the store computes from the same events
(`BatchWriter.run_table`). The proof is a forward simulation: one lemma for each kind of
event (`BatchWriter.Sys.Does.refines`), then induction over the run
(`BatchWriter.Sys.Runs.refines`).

| fact | theorem |
|---|---|
| every step of a run is an event | `BatchWriter.Step.does` |
| what a drop makes of a writer's view | `BatchWriter.Writer.drop_view` |
| a drop cuts the draft back | `BatchWriter.Writer.drop_drafts` |
| so does a caught panic, after a failed call | `BatchWriter.Writer.drop_drafts_of_panic` |
| one event refines the store's | `BatchWriter.Sys.Does.refines` |
| so does a whole run | `BatchWriter.Sys.Runs.refines` |
| the tables of a run are the store's | `BatchWriter.run_table` |
-/

namespace BatchWriter

/-! ### Cutting a column back -/

namespace Column

/-- Cutting a column back to `R` rows keeps the cells of those rows. -/
theorem cells_truncate (col : Column) (R : Nat) : (col.truncate R).cells R = col.cells R :=
  List.map_congr_left fun r hr => by
    have hr := List.mem_range.mp hr
    simp [cell, List.getElem?_take, hr, ColumnData.value?_truncate _ hr]

theorem take_cells (col : Column) {R L : Nat} (h : R ≤ L) :
    (col.cells L).take R = col.cells R := by
  simp [cells, ← List.map_take, List.take_range, Nat.min_eq_left h]

end Column

/-- **The spec of a drop**: the rows before the transaction, and under every name the
draft has, the column's type and the cells of those rows. A name the transaction
registered keeps its column, with the null cells it had before its first call. -/
def Draft.rollback (d : Draft) : Table where
  rowCount := d.rowCount
  column name := (d.column name).map fun e => (e.1, e.2.take d.rowCount)
  length_cells name e h := by
    obtain ⟨e, he, rfl⟩ := Option.map_eq_some'.mp h
    rcases d.length_cells name e he with hl | hl <;> simp [hl]

/-- **What a drop makes of a live writer's view.** On a reachable live writer, the batch
the drop leaves, read as a table, has `initial_rows` rows, and under each name the type
the writer shows and the first `initial_rows` of its cells. -/
theorem Writer.drop_view {w : Writer} (hr : Reachable (.busy w)) :
    w.drop.table.rowCount = w.initialRows ∧ ∀ name,
      w.drop.table.column name = (w.view name).map fun e => (e.1, e.2.take w.initialRows) := by
  have hp : w.Pending := reachable_rowsOk hr
  refine ⟨by simp [MutableBatch.table, ← hp.rows], fun name => ?_⟩
  simp only [MutableBatch.table, view, Writer.columnByName_drop hp.not_success, Option.map_map,
    drop_rowCount, ← hp.rows]
  cases hcol : w.batch.columnByName name with
  | none => rfl
  | some col =>
    have hle : w.initialRows ≤ col.valid.length := by
      rcases hp.valid col (MutableBatch.mem_of_columnByName hcol) with h | h <;> omega
    simp [Column.cells_truncate, Column.take_cells _ hle]

/-- **A drop cuts the draft back.** On a reachable live writer, the batch the drop leaves
is, read as a table, what `BatchWriter.Draft.rollback` makes of the writer's draft. -/
theorem Writer.drop_drafts {w : Writer} {d : Draft} (hr : Reachable (.busy w))
    (hd : w.Drafts d) : w.drop.table = d.rollback := by
  obtain ⟨hrow, hcol⟩ := drop_view hr
  refine Table.ext (by rw [hrow, hd.rowCount]; rfl) (funext fun name => ?_)
  rw [hcol, hd.column, hd.rowCount]
  rfl

/-- **What a caught panic makes of a live writer's view.** On a reachable live writer, a
call that panics, and the drop the unwinding makes, leave `initial_rows` rows, under
every other name the first `initial_rows` cells the writer shows, and under the call's
name those of the column the writer shows, or of a column of the call's type with null
cells. -/
theorem Writer.drop_view_of_panic {w w' : Writer} {c : WriteCall} {p : Panic}
    (hr : Reachable (.busy w)) (hw : w.write c = (.error (.panic p), w')) :
    w'.drop.table.rowCount = w.initialRows ∧ ∀ name, w'.drop.table.column name =
      (if c.name = name then
        some ((w.view name).getD (c.influxType, List.replicate w.initialRows none))
      else w.view name).map fun e => (e.1, e.2.take w.initialRows) := by
  have hn := (reachable_shapeOk hr).1
  have hp : w.Pending := reachable_rowsOk hr
  obtain ⟨hi, -, hs, hrow, -⟩ := write_frame hn hw
  have hs' : w'.success = false := hs.trans hp.not_success
  refine ⟨by simp [MutableBatch.table, hrow, ← hp.rows], fun name => ?_⟩
  split_ifs with hne
  · subst hne
    rcases write_own hn hw with ⟨heq, -, col, hcol⟩ | ⟨col, hcol, hty, hlen, -, hcol'⟩
    · -- `column_mut` stopped on a registered name: the writer is the one before the call
      rw [heq, (drop_view hr).2, show w.view c.name = some _ by rw [view, hcol]; rfl]
      rfl
    · -- the call ran on `col`: the drop cuts what it made of it back to the rows of `col`
      obtain ⟨hfill, hget⟩ := resolved_view hr hcol hty hlen
      simp only [MutableBatch.table, drop_rowCount, hrow, ← hp.rows, columnByName_drop hs',
        hcol', hi, Option.map_some', hget, Column.influxType_truncate, Column.cells_truncate,
        (c.apply_shape _ _ col).1, hty, Column.cells_of_keeps c.apply_keeps hfill hlen]
      simp
  · -- another name: the drop reads the column the writer had before the call
    rw [← (drop_view hr).2]
    simp only [MutableBatch.table, drop_rowCount, hrow, columnByName_drop hs',
      columnByName_drop hp.not_success, columnByName_write_of_ne hn hw hne, hi]

/-- **A caught panic is a failed call, then a drop.** On a reachable live writer that reads
as the draft `d`, a call that panics, and the drop the unwinding makes, leave the table
the spec's drop makes of the draft after a failed call. -/
theorem Writer.drop_drafts_of_panic {w w' : Writer} {d : Draft} {c : WriteCall} {p : Panic}
    (hr : Reachable (.busy w)) (hd : w.Drafts d) (hw : w.write c = (.error (.panic p), w')) :
    w'.drop.table = (d.step c (.error (.panic p))).rollback := by
  obtain ⟨hrow, hcol⟩ := drop_view_of_panic hr hw
  refine Table.ext (by rw [hrow, hd.rowCount]; rfl) (funext fun name => ?_)
  rw [hcol, hd.column, hd.rowCount]
  rfl

/-! ### Runs as lists of events -/

/-- What a step of a run does, as its caller sees it. -/
inductive Event where
  /-- `Writer::new(batch, to_insert)`. -/
  | new (to_insert : Nat)
  /-- A typed write call, with what it returned. -/
  | write (call : WriteCall) (r : Except Exit Unit)
  /-- `commit()`, completed. -/
  | commit
  /-- The writer dropped without a commit. -/
  | drop
  /-- A typed write call that panics, after which the unwinding drops the writer. -/
  | panic (call : WriteCall) (p : Panic)

/-- One step of a run, with its event. -/
inductive Sys.Does : Sys → Event → Sys → Prop
  | new (batch : MutableBatch) (to_insert : Nat) :
      Sys.Does (.idle batch) (.new to_insert) (.busy (Writer.new batch to_insert))
  | write {w w' : Writer} {r : Except Exit Unit} (call : WriteCall) :
      w.write call = (r, w') → returned r = true → Sys.Does (.busy w) (.write call r) (.busy w')
  | commit {w w' : Writer} : w.commit = (.ok (), w') → Sys.Does (.busy w) .commit (.idle w'.batch)
  | drop (w : Writer) : Sys.Does (.busy w) .drop (.idle w.drop)
  | panic {w w' : Writer} {p : Panic} (call : WriteCall) :
      w.write call = (.error (.panic p), w') → Sys.Does (.busy w) (.panic call p) (.idle w'.drop)

/-- A run, event by event. -/
inductive Sys.Runs : Sys → List Event → Sys → Prop
  | nil (s : Sys) : Sys.Runs s [] s
  | cons {s s' s'' : Sys} {e : Event} {es : List Event} :
      Sys.Does s e s' → Sys.Runs s' es s'' → Sys.Runs s (e :: es) s''

variable {s s' : Sys} {e : Event} {es : List Event}

/-- An event leads from a reachable state to a reachable state: a caught panic too, by
`BatchWriter.reachable_drop_of_panic`. -/
theorem Sys.Does.reachable (h : s.Does e s') (hs : Reachable s) : Reachable s' := by
  cases h with
  | new b n => exact hs.tail (.new b n)
  | write c hw hret => exact hs.tail (.write c hw hret)
  | commit hw => exact hs.tail (.commit hw)
  | drop w => exact hs.tail (.drop w)
  | panic c hw => exact reachable_drop_of_panic hs hw

/-- Every step of a run is an event. -/
theorem Step.does (h : Step s s') : ∃ e, s.Does e s' := by
  cases h with
  | new b n => exact ⟨_, .new b n⟩
  | write c hw hret => exact ⟨_, .write c hw hret⟩
  | commit hw => exact ⟨_, .commit hw⟩
  | drop w => exact ⟨_, .drop w⟩

theorem Sys.Runs.reachable (h : s.Runs es s') (hs : Reachable s) : Reachable s' := by
  induction h with
  | nil => exact hs
  | cons hd _ ih => exact ih (hd.reachable hs)

theorem Sys.Runs.exists_of_reflTransGen {s₀ : Sys} (h : Relation.ReflTransGen Step s₀ s) :
    ∃ es, s₀.Runs es s := by
  induction h using Relation.ReflTransGen.head_induction_on with
  | refl => exact ⟨[], .nil _⟩
  | head hstep _ ih =>
    obtain ⟨e, he⟩ := hstep.does
    obtain ⟨es, hes⟩ := ih
    exact ⟨e :: es, .cons he hes⟩

/-- The reachable states are those at the end of a run of events from the empty batch. -/
theorem reachable_iff_runs : Reachable s ↔ ∃ es, (Sys.idle MutableBatch.new).Runs es s :=
  ⟨Sys.Runs.exists_of_reflTransGen, fun ⟨_, h⟩ => h.reachable .refl⟩

/-! ### The store of tables -/

/-- The batch as the spec sees it: a table between transactions, a draft during one. -/
inductive TableSys where
  | idle (t : Table)
  | busy (d : Draft)

namespace TableSys

/-- **The spec of one event**; `none` for an event out of turn. -/
def next : TableSys → Event → Option TableSys
  | .idle t, .new n => some (.busy (t.begin n))
  | .busy d, .write c r => some (.busy (d.step c r))
  | .busy d, .commit => some (.idle d.commit)
  | .busy d, .drop => some (.idle d.rollback)
  | .busy d, .panic c p => some (.idle (d.step c (.error (.panic p))).rollback)
  | _, _ => none

/-- **The spec of a run**: its events one after the other. -/
def run (a : TableSys) : List Event → Option TableSys
  | [] => some a
  | e :: es => (a.next e).bind fun a' => a'.run es

@[simp] theorem run_nil (a : TableSys) : a.run [] = some a := rfl

theorem run_cons {a a' : TableSys} (h : a.next e = some a') (es : List Event) :
    a.run (e :: es) = a'.run es := by
  simp [run, h]

end TableSys

/-! ### The exception: a `write_bool` retried after a failed one -/

/-- An event is safe after the failed `write_bool` calls under `dirty` unless it is a
`write_bool` that returns `Ok` under one of their names. -/
def Event.Safe (dirty : List String) : Event → Prop
  | .write c r => c.influxType = .field .boolean → r.isOk → c.name ∉ dirty
  | _ => True

instance Event.Safe.decidable (dirty : List String) : (e : Event) → Decidable (e.Safe dirty)
  | .write _ _ => inferInstanceAs (Decidable (_ → _ → _))
  | .new _ => isTrue trivial
  | .commit => isTrue trivial
  | .drop => isTrue trivial
  | .panic _ _ => isTrue trivial

/-- The names under which a failed `write_bool` has left set bits, after the event `e`:
a transaction starts and ends with none. -/
def Event.dirty (dirty : List String) : Event → List String
  | .write c r => dirtyAfter dirty c r
  | _ => []

/-- No `write_bool` of the run returns `Ok` under a name a failed `write_bool` of the same
transaction left set bits under. -/
def RetryFree (dirty : List String) : List Event → Prop
  | [] => True
  | e :: es => e.Safe dirty ∧ RetryFree (e.dirty dirty) es

instance RetryFree.decidable (dirty : List String) :
    (es : List Event) → Decidable (RetryFree dirty es)
  | [] => isTrue trivial
  | e :: es =>
    have := RetryFree.decidable (e.dirty dirty) es
    inferInstanceAs (Decidable (_ ∧ _))

/-! ### The simulation -/

/-- The batch state `s` shows the store state `a`: an idle batch, read as a table, is the
store's table; a live writer reads as the store's draft, its boolean stores clear but
under the names in `dirty`. -/
def Sys.Refines (dirty : List String) : Sys → TableSys → Prop
  | .idle b, .idle t => b.table = t
  | .busy w, .busy d => w.Drafts d ∧ w.ClearExcept dirty
  | _, _ => False

variable {dirty : List String} {a : TableSys}

/-- A batch between transactions shows its table and nothing else. -/
theorem Sys.refines_idle {b : MutableBatch} :
    (Sys.idle b).Refines dirty a ↔ a = .idle b.table := by
  cases a <;> simp [Refines, eq_comm]

/-- **One event refines the store's.** From a reachable state that shows `a`, a safe
event leads to a state that shows what the store makes of `a` on the same event. -/
theorem Sys.Does.refines (h : s.Does e s') (hs : Reachable s) (ha : s.Refines dirty a)
    (hsafe : e.Safe dirty) : ∃ a', a.next e = some a' ∧ s'.Refines (e.dirty dirty) a' := by
  cases h with
  | new b n =>
    cases a with
    | idle t =>
      obtain rfl : b.table = t := ha
      exact ⟨_, rfl, Writer.drafts_new hs n, Writer.clearExcept_new hs n⟩
    | busy => exact ha.elim
  | write c hw hret =>
    cases a with
    | busy d => exact ⟨_, rfl, ha.1.write hs ha.2 hw hret hsafe⟩
    | idle => exact ha.elim
  | commit hw =>
    cases a with
    | busy d =>
      obtain ⟨v, hv, htab⟩ := Writer.commit_drafts hs ha.1 (Writer.le_usizeMax_of_commit hw)
      obtain rfl : _ = v := (Prod.mk.inj (hw.symm.trans hv)).2
      exact ⟨_, rfl, htab⟩
    | idle => exact ha.elim
  | drop w =>
    cases a with
    | busy d => exact ⟨_, rfl, Writer.drop_drafts hs ha.1⟩
    | idle => exact ha.elim
  | panic c hw =>
    cases a with
    | busy d => exact ⟨_, rfl, Writer.drop_drafts_of_panic hs ha.1 hw⟩
    | idle => exact ha.elim

/-- **A run refines the store's.** From a reachable state that shows `a`, a run without a
`write_bool` retried after a failed one leads to a state that shows what the store makes
of `a` on the same events. -/
theorem Sys.Runs.refines (h : s.Runs es s') (hs : Reachable s) (ha : s.Refines dirty a)
    (hfree : RetryFree dirty es) : ∃ a' dirty', a.run es = some a' ∧ s'.Refines dirty' a' := by
  induction h generalizing a dirty with
  | nil => exact ⟨a, dirty, rfl, ha⟩
  | cons hd _ ih =>
    obtain ⟨a', hnext, ha'⟩ := hd.refines hs ha hfree.1
    rw [TableSys.run_cons hnext]
    exact ih (hd.reachable hs) ha' hfree.2

/-- **The tables of a run are the store's.** On a batch reachable from the empty batch,
take any run that ends between transactions: any number of transactions, each committed,
dropped or unwound from a panicking call, with calls that return `Ok` or an error, and no `write_bool` returning `Ok`
under a name on which a `write_bool` of the same transaction failed. The batch it ends
on, read as a table, is the table the store computes from the batch's table over the
same events. -/
theorem run_table {b b' : MutableBatch} (hb : Reachable (.idle b)) {es : List Event}
    (h : (Sys.idle b).Runs es (.idle b')) (hfree : RetryFree [] es) :
    (TableSys.idle b.table).run es = some (.idle b'.table) := by
  obtain ⟨a', _, hrun, ha'⟩ := h.refines hb (Sys.refines_idle.mpr rfl) hfree
  rwa [Sys.refines_idle.mp ha'] at hrun

/-- On the empty batch, a transaction of two rows fails a `write_i64` to `"x"`, retries it
with a mask and commits; a transaction of one row then writes `"a"` to the new tag
column `"t"`, fails a `write_bool` to `"x"` on a type mismatch, and is dropped; a
transaction of nine rows then panics in a `write_i64` to `"y"` whose mask has eight bits. -/
theorem run_table_commit_then_drop :
    let es : List Event := [.new 2, .write (.i64 "x" none [5]) (.error (.err .insufficientValues)),
      .write (.i64 "x" (some [2]) [7]) (.ok ()), .commit, .new 1,
      .write (.tag "t" none ["a"]) (.ok ()),
      .write (.bool "x" none [true])
        (.error (.err (.typeMismatch (.field .integer) (.field .boolean)))), .drop, .new 9,
      .panic (.i64 "y" (some [1]) [4]) .appendBits]
    let b := (((Writer.new MutableBatch.new 2).write (.i64 "x" none [5])).2.write
      (.i64 "x" (some [2]) [7])).2.commit.2.batch
    let b' := (((Writer.new b 1).write (.tag "t" none ["a"])).2.write
      (.bool "x" none [true])).2.drop
    let b'' := ((Writer.new b' 9).write (.i64 "y" (some [1]) [4])).2.drop
    Reachable (.idle MutableBatch.new) ∧ (Sys.idle MutableBatch.new).Runs es (.idle b'') ∧
      RetryFree [] es ∧ (TableSys.idle MutableBatch.new.table).run es = some (.idle b''.table) :=
  have hrun : (Sys.idle MutableBatch.new).Runs
      [.new 2, .write (.i64 "x" none [5]) (.error (.err .insufficientValues)),
        .write (.i64 "x" (some [2]) [7]) (.ok ()), .commit, .new 1,
        .write (.tag "t" none ["a"]) (.ok ()),
        .write (.bool "x" none [true])
          (.error (.err (.typeMismatch (.field .integer) (.field .boolean)))), .drop, .new 9,
        .panic (.i64 "y" (some [1]) [4]) .appendBits]
      (.idle ((Writer.new (((Writer.new (((Writer.new MutableBatch.new 2).write
        (.i64 "x" none [5])).2.write (.i64 "x" (some [2]) [7])).2.commit.2.batch 1).write
          (.tag "t" none ["a"])).2.write (.bool "x" none [true])).2.drop 9).write
            (.i64 "y" (some [1]) [4])).2.drop) :=
    .cons (.new _ 2) <| .cons (.write _ (Prod.ext rfl rfl) rfl) <|
      .cons (.write _ (Prod.ext rfl rfl) rfl) <| .cons (.commit (Prod.ext rfl rfl)) <|
      .cons (.new _ 1) <| .cons (.write _ (Prod.ext rfl rfl) rfl) <|
      .cons (.write _ (Prod.ext rfl rfl) rfl) <| .cons (.drop _) <|
      .cons (.new _ 9) <| .cons (.panic _ (Prod.ext rfl rfl)) (.nil _)
  ⟨.refl, hrun, by decide, run_table .refl hrun (by decide)⟩

/-- After that run, `"x"` has the cells of the retry, null at the unset bit of its mask,
and the drop and the unwinding have left the new names `"t"` and `"y"` with null cells. -/
example :
    let b := (((Writer.new MutableBatch.new 2).write (.i64 "x" none [5])).2.write
      (.i64 "x" (some [2]) [7])).2.commit.2.batch
    let b' := (((Writer.new b 1).write (.tag "t" none ["a"])).2.write
      (.bool "x" none [true])).2.drop
    let b'' := ((Writer.new b' 9).write (.i64 "y" (some [1]) [4])).2.drop
    b''.table.column "x" = some (.field .integer, [none, some (.inr (.inl 7))]) ∧
      b''.table.column "t" = some (.tag, [none, none]) ∧
      b''.table.column "y" = some (.field .integer, [none, none]) := by
  refine ⟨rfl, rfl, rfl⟩

end BatchWriter
