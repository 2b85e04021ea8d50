import BatchWriter.Column

/-!
# The writer and its typed writes

`Writer` holds a batch for one append of `to_insert` rows. Each typed write
resolves its column by name (`column_mut`), runs a value loop over the set
positions of the validity mask, appends the mask to the validity bitset, closes
its statistics accumulator with the nulls and queues it for commit.

The model keeps the writer's state explicit: every call takes a `Writer` and
returns how it ended, `Except Exit Unit`, together with the writer after it. A
call that returns early, by an error or by a panic, still returns the writer as
the Rust code leaves it: the store grown by `resize`, the values written so far,
the strings interned so far. That partial state is exactly what rollback must
undo and what a commit after a failed write keeps, so it is never discarded.

All the typed writes share one skeleton, `BatchWriter.Writer.writeColumn`, and
differ in the arm of `match &mut col.data` that they run. The three fixed-width
field writes are one definition, `BatchWriter.Writer.writeFixed`, applied to
their variant; `write_time` keeps its own body, since it takes no mask.
-/

namespace BatchWriter

/-! ### Errors, batches and writers -/

/-- `writer::Error`, the recoverable errors of a write. -/
inductive Error
  /-- `TypeMismatch { existing, inserted }`. -/
  | typeMismatch (existing inserted : InfluxColumnType)
  /-- `InsufficientValues`. -/
  | insufficientValues
  /-- `KeyNotFound { key }`. -/
  | keyNotFound (key : Nat)
  deriving DecidableEq, Repr

/-- How a call ends early: with a recoverable error, returned to the caller, or
with a panic, which unwinds out of it. -/
inductive Exit
  /-- An `Err` returned by the call. -/
  | err (e : Error)
  /-- A panic. -/
  | panic (p : Panic)
  deriving DecidableEq, Repr

/-- `MutableBatch`. -/
structure MutableBatch where
  /-- The columns, by position. -/
  columns : List Column
  /-- The position of each column name, in order of registration. -/
  columnNames : List (String × Nat)
  /-- The number of rows. -/
  rowCount : Nat

/-- The empty batch, `MutableBatch::new()`. -/
def MutableBatch.new : MutableBatch := ⟨[], [], 0⟩

/-- `Writer`. -/
structure Writer where
  /-- The batch being appended to. -/
  batch : MutableBatch
  /-- The pending statistics records, with the position of their column. -/
  statistics : List (Nat × Statistics)
  /-- The row count of the batch when the writer was created. -/
  initialRows : Nat
  /-- The number of rows to append. -/
  toInsert : Nat
  /-- Whether the writer has committed. -/
  success : Bool

namespace Writer

/-- `Writer::new(batch, to_insert)`. -/
def new (batch : MutableBatch) (to_insert : Nat) : Writer :=
  { batch, statistics := [], initialRows := batch.rowCount, toInsert := to_insert,
    success := false }

/-- Store `col` at position `idx` of the batch: the write back of a `&mut Column`. -/
def setColumn (w : Writer) (idx : Nat) (col : Column) : Writer :=
  { w with batch := { w.batch with columns := w.batch.columns.set idx col } }

/-! ### Column resolution -/

/-- The part of `column_mut` after the name has a position: a column is pushed when
the position is the next free one, then the column's type and its number of rows
are checked. -/
def checkColumn (w : Writer) (column_idx : Nat) (influx_type : InfluxColumnType) :
    Except Exit (Nat × Column) × Writer :=
  let w := if w.batch.columns.length = column_idx then
      { w with batch := { w.batch with
        columns := w.batch.columns ++ [Column.new w.initialRows influx_type] } }
    else w
  match w.batch.columns[column_idx]? with
  | none => (.error (.panic .indexOutOfBounds), w)
  | some col =>
    if col.influxType ≠ influx_type then
      (.error (.err (.typeMismatch col.influxType influx_type)), w)
    else if col.valid.length ≠ w.initialRows then (.error (.panic .columnRows), w)
    else (.ok (column_idx, col), w)

/-- `column_mut(name, influx_type)`: a new name is registered at the next free
position (`or_insert_with`), then `checkColumn`. -/
def columnMut (w : Writer) (name : String) (influx_type : InfluxColumnType) :
    Except Exit (Nat × Column) × Writer :=
  match w.batch.columnNames.lookup name with
  | some column_idx => w.checkColumn column_idx influx_type
  | none =>
    let columns_len := w.batch.columns.length
    checkColumn { w with batch := { w.batch with
      columnNames := w.batch.columnNames ++ [(name, columns_len)] } } columns_len influx_type

end Writer

/-! ### The value loop -/

/-- `set_position_iterator(valid_mask, to_insert)`: the set positions of the mask
below `to_insert`, or every position below it when there is no mask. -/
def setPositionIterator (valid_mask : Option (List UInt8)) (to_insert : Nat) : List Nat :=
  match valid_mask with
  | some mask => (iterSetPositions mask).takeWhile (· < to_insert)
  | none => List.range to_insert

/-- The value loop of a typed write. For each position `idx`, in order, it pulls the
next item of the input, failing with `InsufficientValues` when there is none, and
`put` stores it at offset `idx` and returns the value to fold into the accumulator.
What `put` has done persists when it fails. -/
def fillLoop {α β σ : Type} [LT α] [DecidableRel (α := α) (· < ·)]
    (put : Nat → β → σ → Except Exit α × σ) :
    List Nat → List β → σ → StatValues α → Except Exit Unit × σ × StatValues α
  | [], _, s, stats => (.ok (), s, stats)
  | _ :: _, [], s, stats => (.error (.err .insufficientValues), s, stats)
  | idx :: idxs, b :: bs, s, stats =>
    match put idx b s with
    | (.error x, s) => (.error x, s, stats)
    | (.ok a, s) => fillLoop put idxs bs s (stats.update a)

/-- `col_data[idx] = value` inside a loop step that folds `ret`. -/
def storeAt {α β : Type} (col_data : List α) (idx : Nat) (value : α) (ret : β) :
    Except Exit β × List α :=
  match Vec.setAt col_data idx value with
  | .ok col_data => (.ok ret, col_data)
  | .error p => (.error (.panic p), col_data)

/-- One step of the loop of the fixed-width writes:
`col_data[initial_rows + idx] = value`. -/
def putValue {α : Type} (initial_rows idx : Nat) (value : α) (col_data : List α) :
    Except Exit α × List α :=
  storeAt col_data (initial_rows + idx) value value

/-- One step of the loop of `write_bool`: the bit of a `true` value is set. -/
def putBool (initial_rows idx : Nat) (value : Bool) (col_data : List Bool) :
    Except Exit Bool × List Bool :=
  if value then
    match BitSet.set col_data (initial_rows + idx) with
    | .ok col_data => (.ok value, col_data)
    | .error p => (.error (.panic p), col_data)
  else (.ok value, col_data)

/-- One step of the loop of `write_string`:
`col_data.extend(initial_rows + idx - col_data.len()); col_data.append(value)`, where
the subtraction is of `usize`s and panics below zero. -/
def putString (initial_rows idx : Nat) (value : String) (col_data : List String) :
    Except Exit String × List String :=
  if col_data.length ≤ initial_rows + idx then
    (.ok value, col_data ++ List.replicate (initial_rows + idx - col_data.length) "" ++ [value])
  else (.error (.panic .subtractOverflow), col_data)

/-- One step of the loop of `write_tag`:
`col_data[initial_rows + idx] = dict.lookup_value_or_insert(value)`. The right-hand
side is evaluated first, so the string is interned even where the store fails. -/
def putTag (initial_rows idx : Nat) (value : String) (s : List Int × Dictionary) :
    Except Exit String × (List Int × Dictionary) :=
  let (did, dict) := s.2.lookupValueOrInsert value
  (storeAt s.1 (initial_rows + idx) did value).map id (·, dict)

/-- The local table of `write_tag_dict`: each string of the input table, with the
code it has been resolved to in this call. -/
abbrev Mapping := List (String × Option Int)

/-- One step of the loop of `write_tag_dict`: the key is looked up in the local
table (`KeyNotFound` past its end); a string not resolved yet in this call is
interned and its code cached before it is stored. -/
def putTagDict (initial_rows idx key : Nat) (s : List Int × Dictionary × Mapping) :
    Except Exit String × (List Int × Dictionary × Mapping) :=
  let (col_data, dict, mapping) := s
  match mapping[key]? with
  | none => (.error (.err (.keyNotFound key)), s)
  | some (value, some did) =>
    (storeAt col_data (initial_rows + idx) did value).map id (·, dict, mapping)
  | some (value, none) =>
    let (did, dict) := dict.lookupValueOrInsert value
    (storeAt col_data (initial_rows + idx) did value).map id
      (·, dict, mapping.set key (value, some did))

/-- `append_valid_mask(column, valid_mask, to_insert)`. -/
def appendValidMask (column : Column) (valid_mask : Option (List UInt8)) (to_insert : Nat) :
    Except Exit Column :=
  match valid_mask with
  | some mask =>
    match BitSet.appendBits column.valid to_insert mask with
    | .ok valid => .ok { column with valid }
    | .error p => .error (.panic p)
  | none => .ok { column with valid := column.valid ++ List.replicate to_insert true }

/-! ### The typed writes -/

/-- The part of a typed write that works on the column `column_mut` resolved: the
arm `body` of `match &mut col.data` (`none` is its `unreachable!` arm), then
`append_valid_mask`, then `stats.update_for_nulls(to_insert as u64 - stats.total_count)`,
a `u64` subtraction. It returns the column as the write leaves it, and the record
to queue when the write succeeds. -/
def writeResolved {α : Type} (to_insert : Nat) (valid_mask : Option (List UInt8))
    (wrap : StatValues α → Statistics)
    (body : ColumnData → Option (Except Exit Unit × ColumnData × StatValues α)) (col : Column) :
    Except Exit Unit × Column × Option Statistics :=
  match body col.data with
  | none => (.error (.panic .unreachable), col, none)
  | some (.error x, data, _) => (.error x, { col with data }, none)
  | some (.ok (), data, stats) =>
    match appendValidMask { col with data } valid_mask to_insert with
    | .error x => (.error x, { col with data }, none)
    | .ok col =>
      if stats.totalCount ≤ to_insert then
        (.ok (), col, some (wrap (stats.updateForNulls (to_insert - stats.totalCount))))
      else (.error (.panic .subtractOverflow), col, none)

namespace Writer

/-- The skeleton of every typed write: `column_mut`, then `write` on the resolved
column, which is stored back whether or not the write succeeded, and its record
queued. -/
def writeColumn (w : Writer) (name : String) (influx_type : InfluxColumnType)
    (write : Column → Except Exit Unit × Column × Option Statistics) :
    Except Exit Unit × Writer :=
  match w.columnMut name influx_type with
  | (.error x, w) => (.error x, w)
  | (.ok (col_idx, col), w) =>
    let (r, col, stats) := write col
    (r, { w.setColumn col_idx col with
      statistics := w.statistics ++ stats.toList.map (col_idx, ·) })

end Writer

/-- What tells the three fixed-width field writes apart: the column type they ask
for, the arm of `ColumnData` they match and rebuild, the value `resize` pads with,
and the `Statistics` variant of their record. -/
structure FixedWidth (α : Type) where
  /-- The semantic type of the column. -/
  influxType : InfluxColumnType
  /-- The arm of `match &mut col.data` the write runs. -/
  arm : ColumnData → Option (List α × StatValues α)
  /-- The same arm, rebuilt. -/
  rebuild : List α → StatValues α → ColumnData
  /-- The null value of the store. -/
  null : α
  /-- The variant of the pending record. -/
  wrap : StatValues α → Statistics

/-- The arms of `write_f64`. -/
def FixedWidth.f64 : FixedWidth Float where
  influxType := .field .float
  arm | .f64 d s => some (d, s) | _ => none
  rebuild := .f64
  null := 0
  wrap := .f64

/-- The arms of `write_i64`. -/
def FixedWidth.i64 : FixedWidth Int where
  influxType := .field .integer
  arm | .i64 d s => some (d, s) | _ => none
  rebuild := .i64
  null := 0
  wrap := .i64

/-- The arms of `write_u64`. -/
def FixedWidth.u64 : FixedWidth UInt64 where
  influxType := .field .uInteger
  arm | .u64 d s => some (d, s) | _ => none
  rebuild := .u64
  null := 0
  wrap := .u64

/-! ### The arms of the typed writes -/

section Arms

variable (initial_rows to_insert : Nat) (positions : List Nat)

/-- The arm of the fixed-width writes: `resize` the store to
`initial_rows + to_insert`, then store each value at its offset. -/
def fixedArm {α : Type} [LT α] [DecidableRel (α := α) (· < ·)] (v : FixedWidth α)
    (values : List α) (data : ColumnData) : Option (Except Exit Unit × ColumnData × StatValues α) :=
  (v.arm data).map fun (col_data, s) =>
    let (r, col_data, stats) := fillLoop (putValue initial_rows) positions values
      (Vec.resize col_data (initial_rows + to_insert) v.null) StatValues.newEmpty
    (r, v.rebuild col_data s, stats)

/-- The arm of `write_bool`: `append_unset(to_insert)` on the store, then the bits of
the `true` values are set. -/
def boolArm (values : List Bool) :
    ColumnData → Option (Except Exit Unit × ColumnData × StatValues Bool)
  | .bool col_data s =>
    let (r, col_data, stats) := fillLoop (putBool initial_rows) positions values
      (col_data ++ List.replicate to_insert false) StatValues.newEmpty
    some (r, .bool col_data s, stats)
  | _ => none

/-- The arm of `write_string`: each value is appended after padding the store with
empty strings up to its offset. Nothing pads the store after the last value. -/
def stringArm (values : List String) :
    ColumnData → Option (Except Exit Unit × ColumnData × StatValues String)
  | .string col_data s =>
    let (r, col_data, stats) := fillLoop (putString initial_rows) positions values col_data
      StatValues.newEmpty
    some (r, .string col_data s, stats)
  | _ => none

/-- The arm of `write_tag`: `resize` the codes with `INVALID_DID`, then intern each
value and store its code. -/
def tagArm (values : List String) :
    ColumnData → Option (Except Exit Unit × ColumnData × StatValues String)
  | .tag col_data dict s =>
    let (r, (col_data, dict), stats) := fillLoop (putTag initial_rows) positions values
      (Vec.resize col_data (initial_rows + to_insert) invalidDid, dict) StatValues.newEmpty
    some (r, .tag col_data dict s, stats)
  | _ => none

/-- The arm of `write_tag_dict`: the local table starts with every string
unresolved, and the loop pulls keys into it. -/
def tagDictArm (keys : List Nat) (values : List String) :
    ColumnData → Option (Except Exit Unit × ColumnData × StatValues String)
  | .tag col_data dict s =>
    let mapping : Mapping := values.map fun value => (value, none)
    let (r, (col_data, dict, _), stats) := fillLoop (putTagDict initial_rows) positions keys
      (Vec.resize col_data (initial_rows + to_insert) invalidDid, dict, mapping)
      StatValues.newEmpty
    some (r, .tag col_data dict s, stats)
  | _ => none

end Arms

namespace Writer

/-- The fixed-width field writes. -/
def writeFixed {α : Type} [LT α] [DecidableRel (α := α) (· < ·)] (v : FixedWidth α)
    (w : Writer) (name : String) (valid_mask : Option (List UInt8)) (values : List α) :
    Except Exit Unit × Writer :=
  w.writeColumn name v.influxType <| writeResolved w.toInsert valid_mask v.wrap <|
    fixedArm w.initialRows w.toInsert (setPositionIterator valid_mask w.toInsert) v values

/-- `write_f64(name, valid_mask, values)`. -/
def writeF64 (w : Writer) (name : String) (valid_mask : Option (List UInt8))
    (values : List Float) : Except Exit Unit × Writer :=
  w.writeFixed FixedWidth.f64 name valid_mask values

/-- `write_i64(name, valid_mask, values)`. -/
def writeI64 (w : Writer) (name : String) (valid_mask : Option (List UInt8))
    (values : List Int) : Except Exit Unit × Writer :=
  w.writeFixed FixedWidth.i64 name valid_mask values

/-- `write_u64(name, valid_mask, values)`. -/
def writeU64 (w : Writer) (name : String) (valid_mask : Option (List UInt8))
    (values : List UInt64) : Except Exit Unit × Writer :=
  w.writeFixed FixedWidth.u64 name valid_mask values

/-- `write_bool(name, valid_mask, values)`. -/
def writeBool (w : Writer) (name : String) (valid_mask : Option (List UInt8))
    (values : List Bool) : Except Exit Unit × Writer :=
  w.writeColumn name (.field .boolean) <| writeResolved w.toInsert valid_mask .bool <|
    boolArm w.initialRows w.toInsert (setPositionIterator valid_mask w.toInsert) values

/-- `write_string(name, valid_mask, values)`. -/
def writeString (w : Writer) (name : String) (valid_mask : Option (List UInt8))
    (values : List String) : Except Exit Unit × Writer :=
  w.writeColumn name (.field .string) <| writeResolved w.toInsert valid_mask .string <|
    stringArm w.initialRows (setPositionIterator valid_mask w.toInsert) values

/-- `write_tag(name, valid_mask, values)`. -/
def writeTag (w : Writer) (name : String) (valid_mask : Option (List UInt8))
    (values : List String) : Except Exit Unit × Writer :=
  w.writeColumn name .tag <| writeResolved w.toInsert valid_mask .string <|
    tagArm w.initialRows w.toInsert (setPositionIterator valid_mask w.toInsert) values

/-- `write_tag_dict(name, valid_mask, keys, values)`. -/
def writeTagDict (w : Writer) (name : String) (valid_mask : Option (List UInt8))
    (keys : List Nat) (values : List String) : Except Exit Unit × Writer :=
  w.writeColumn name .tag <| writeResolved w.toInsert valid_mask .string <|
    tagDictArm w.initialRows w.toInsert (setPositionIterator valid_mask w.toInsert) keys values

/-- `write_time(name, values)`: the arm of `write_i64` over every offset
`0..to_insert`, on a timestamp column, with every validity bit set. -/
def writeTime (w : Writer) (name : String) (values : List Int) : Except Exit Unit × Writer :=
  w.writeColumn name .timestamp <| writeResolved w.toInsert none .i64 <|
    fixedArm w.initialRows w.toInsert (List.range w.toInsert) FixedWidth.i64 values

/-- `write_time` is `write_i64` without a mask, on a timestamp column. -/
theorem writeTime_eq_writeFixed (w : Writer) (name : String) (values : List Int) :
    w.writeTime name values =
      w.writeFixed { FixedWidth.i64 with influxType := .timestamp } name none values :=
  rfl

end Writer

end BatchWriter
