import BatchWriter.Basic

/-!
# Columns

A column of a `MutableBatch` is a semantic type, a validity bitset and a value
store; the value store is one of the six variants of `ColumnData`, and carries
the column's cumulative statistics beside the values. A tag column's store is a
vector of dictionary codes together with the dictionary.

Nothing in the type ties the variant to the semantic type: that is an invariant
of the batches the writer can reach (`BatchWriter.Storage` names the six
variants, and the invariant says `col.data.storage = col.influxType.storage`).
The type does not tie the lengths together either: the bitset and the store grow
by separate calls, and between them a write can fail.

Besides the data, this file holds the three things `writer.rs` does to a column
outside of a typed write: pad it with nulls (`Column::push_nulls_to_len`, at
commit), merge a pending record into its statistics (the `match` of `commit`), and
cut it back to the row count it had before the transaction (the body of
`Writer::drop`).
-/

namespace BatchWriter

/-! ### Types and data -/

/-- `schema::InfluxFieldType`. -/
inductive InfluxFieldType
  | float
  | integer
  | uInteger
  | string
  | boolean
  deriving DecidableEq, Repr

/-- `schema::InfluxColumnType`, the semantic type of a column. -/
inductive InfluxColumnType
  | tag
  | field (t : InfluxFieldType)
  | timestamp
  deriving DecidableEq, Repr

/-- `ColumnData`: the value store of a column, with its cumulative statistics. -/
inductive ColumnData
  | f64 (data : List Float) (stats : StatValues Float)
  | i64 (data : List Int) (stats : StatValues Int)
  | u64 (data : List UInt64) (stats : StatValues UInt64)
  | string (data : List String) (stats : StatValues String)
  | bool (data : List Bool) (stats : StatValues Bool)
  | tag (data : List Int) (dict : Dictionary) (stats : StatValues String)

/-- `Statistics`: a pending statistics record, tagged with its value type. -/
inductive Statistics
  | f64 (s : StatValues Float)
  | i64 (s : StatValues Int)
  | u64 (s : StatValues UInt64)
  | string (s : StatValues String)
  | bool (s : StatValues Bool)

/-- `Column`. -/
structure Column where
  /-- The semantic type, fixed when the column is created. -/
  influxType : InfluxColumnType
  /-- The validity bitset: bit `r` is set when row `r` holds a value. -/
  valid : List Bool
  /-- The value store. -/
  data : ColumnData

/-! ### Storage variants -/

/-- The six storage variants of `ColumnData`. -/
inductive Storage
  | f64
  | i64
  | u64
  | string
  | bool
  | tag
  deriving DecidableEq, Repr

/-- The storage variant a semantic type prescribes. -/
def InfluxColumnType.storage : InfluxColumnType → Storage
  | .field .float => .f64
  | .field .integer => .i64
  | .timestamp => .i64
  | .field .uInteger => .u64
  | .field .string => .string
  | .field .boolean => .bool
  | .tag => .tag

namespace ColumnData

/-- The storage variant of a value store. -/
def storage : ColumnData → Storage
  | .f64 .. => .f64
  | .i64 .. => .i64
  | .u64 .. => .u64
  | .string .. => .string
  | .bool .. => .bool
  | .tag .. => .tag

/-- The length of the value store. -/
def len : ColumnData → Nat
  | .f64 d _ => d.length
  | .i64 d _ => d.length
  | .u64 d _ => d.length
  | .string d _ => d.length
  | .bool d _ => d.length
  | .tag d _ _ => d.length

/-- Modelled from the spec: the store of a column of `rows` null rows
(`Column::new`). -/
def new (rows : Nat) : InfluxColumnType → ColumnData
  | .field .float => .f64 (List.replicate rows 0) (StatValues.newAllNull rows)
  | .field .integer => .i64 (List.replicate rows 0) (StatValues.newAllNull rows)
  | .timestamp => .i64 (List.replicate rows 0) (StatValues.newAllNull rows)
  | .field .uInteger => .u64 (List.replicate rows 0) (StatValues.newAllNull rows)
  | .field .string => .string (List.replicate rows "") (StatValues.newAllNull rows)
  | .field .boolean => .bool (List.replicate rows false) (StatValues.newAllNull rows)
  | .tag => .tag (List.replicate rows invalidDid) Dictionary.empty (StatValues.newAllNull rows)

/-- Modelled from the spec: the store side of `Column::push_nulls_to_len`, which pads
the store with `delta` null entries and counts them as nulls. -/
def pushNulls (delta : Nat) : ColumnData → ColumnData
  | .f64 d s => .f64 (d ++ List.replicate delta 0) (s.updateForNulls delta)
  | .i64 d s => .i64 (d ++ List.replicate delta 0) (s.updateForNulls delta)
  | .u64 d s => .u64 (d ++ List.replicate delta 0) (s.updateForNulls delta)
  | .string d s => .string (d ++ List.replicate delta "") (s.updateForNulls delta)
  | .bool d s => .bool (d ++ List.replicate delta false) (s.updateForNulls delta)
  | .tag d dict s => .tag (d ++ List.replicate delta invalidDid) dict (s.updateForNulls delta)

/-- The store side of `Writer::drop`: every store is truncated to `initial_rows`,
and a tag column's dictionary is truncated to the greatest code the retained rows
hold, or cleared when no row is retained. -/
def truncate (initial_rows : Nat) : ColumnData → ColumnData
  | .f64 d s => .f64 (d.take initial_rows) s
  | .i64 d s => .i64 (d.take initial_rows) s
  | .u64 d s => .u64 (d.take initial_rows) s
  | .string d s => .string (d.take initial_rows) s
  | .bool d s => .bool (d.take initial_rows) s
  | .tag d dict s =>
    let d := d.take initial_rows
    .tag d (match d.max? with
      | some max => dict.truncate max
      | none => Dictionary.empty) s

/-- The value stored at row `r`: for a tag column, the string its code decodes to. -/
def value? (r : Nat) : ColumnData → Option (Float ⊕ Int ⊕ UInt64 ⊕ String ⊕ Bool)
  | .f64 d _ => d[r]?.map .inl
  | .i64 d _ => d[r]?.map (.inr ∘ .inl)
  | .u64 d _ => d[r]?.map (.inr ∘ .inr ∘ .inl)
  | .string d _ => d[r]?.map (.inr ∘ .inr ∘ .inr ∘ .inl)
  | .bool d _ => d[r]?.map (.inr ∘ .inr ∘ .inr ∘ .inr)
  | .tag d dict _ => (d[r]?.bind dict.lookupId).map (.inr ∘ .inr ∘ .inr ∘ .inl)

@[simp] theorem storage_new (rows : Nat) (t : InfluxColumnType) :
    (new rows t).storage = t.storage := by
  cases t with
  | field f => cases f <;> rfl
  | _ => rfl

@[simp] theorem len_new (rows : Nat) (t : InfluxColumnType) : (new rows t).len = rows := by
  cases t with
  | field f => cases f <;> simp [new, len]
  | _ => simp [new, len]

@[simp] theorem storage_pushNulls (delta : Nat) (d : ColumnData) :
    (d.pushNulls delta).storage = d.storage := by
  cases d <;> rfl

@[simp] theorem len_pushNulls (delta : Nat) (d : ColumnData) :
    (d.pushNulls delta).len = d.len + delta := by
  cases d <;> simp [pushNulls, len]

@[simp] theorem storage_truncate (n : Nat) (d : ColumnData) :
    (d.truncate n).storage = d.storage := by
  cases d <;> rfl

end ColumnData

/-! ### Columns -/

namespace Column

/-- Modelled from the spec: `Column::new(rows, column_type)`, a column of `rows`
null rows. -/
def new (rows : Nat) (column_type : InfluxColumnType) : Column :=
  { influxType := column_type
    valid := List.replicate rows false
    data := ColumnData.new rows column_type }

/-- Modelled from the spec: `Column::push_nulls_to_len(len)`, which pads the bitset
and the store with null rows until the bitset has `len` bits. -/
def pushNullsToLen (col : Column) (len : Nat) : Column :=
  let delta := len - col.valid.length
  { col with valid := col.valid ++ List.replicate delta false, data := col.data.pushNulls delta }

/-- `NonZeroU64::new(n)`. -/
def nonZero (n : Nat) : Option Nat := if n = 0 then none else some n

/-- The statistics merge of `commit`: a pending record is merged into the column's
statistics when its variant fits the store (`none` is the `unreachable!` arm). A
tag column then takes its distinct count from its dictionary, one more when it has
nulls. -/
def mergeStatistics (col : Column) (stats : Statistics) : Option Column :=
  match col.data, stats with
  | .f64 d s, .f64 new => some { col with data := .f64 d (s.updateFrom new) }
  | .i64 d s, .i64 new => some { col with data := .i64 d (s.updateFrom new) }
  | .u64 d s, .u64 new => some { col with data := .u64 d (s.updateFrom new) }
  | .string d s, .string new => some { col with data := .string d (s.updateFrom new) }
  | .bool d s, .bool new => some { col with data := .bool d (s.updateFrom new) }
  | .tag d dict s, .string new =>
    let s := s.updateFrom new
    some { col with data := .tag d dict { s with distinctCount := match s.nullCount with
      | 0 => nonZero dict.values.length
      | _ => nonZero (dict.values.length + 1) } }
  | _, _ => none

/-- The body of `Writer::drop` for one column: the bitset and the store are cut
back to `initial_rows`. -/
def truncate (col : Column) (initial_rows : Nat) : Column :=
  { col with valid := col.valid.take initial_rows, data := col.data.truncate initial_rows }

@[simp] theorem influxType_new (rows : Nat) (t : InfluxColumnType) :
    (new rows t).influxType = t := rfl

@[simp] theorem valid_new (rows : Nat) (t : InfluxColumnType) :
    (new rows t).valid = List.replicate rows false := rfl

@[simp] theorem data_new (rows : Nat) (t : InfluxColumnType) :
    (new rows t).data = ColumnData.new rows t := rfl

@[simp] theorem influxType_pushNullsToLen (col : Column) (len : Nat) :
    (col.pushNullsToLen len).influxType = col.influxType := rfl

@[simp] theorem valid_pushNullsToLen (col : Column) (len : Nat) :
    (col.pushNullsToLen len).valid = col.valid ++ List.replicate (len - col.valid.length) false :=
  rfl

@[simp] theorem data_pushNullsToLen (col : Column) (len : Nat) :
    (col.pushNullsToLen len).data = col.data.pushNulls (len - col.valid.length) := rfl

@[simp] theorem influxType_truncate (col : Column) (n : Nat) :
    (col.truncate n).influxType = col.influxType := rfl

@[simp] theorem valid_truncate (col : Column) (n : Nat) :
    (col.truncate n).valid = col.valid.take n := rfl

@[simp] theorem data_truncate (col : Column) (n : Nat) :
    (col.truncate n).data = col.data.truncate n := rfl

end Column

end BatchWriter
