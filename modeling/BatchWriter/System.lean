import BatchWriter.Commit
import Mathlib.Logic.Relation

/-!
# Runs of transactions

The writer is used one transaction at a time: `Writer::new(batch, n)`, any number
of typed write calls, then `commit` or a drop. This file puts the pieces
together into a system whose state is either a batch with no writer on it
(`BatchWriter.Sys.idle`) or a live writer (`BatchWriter.Sys.busy`), and whose
steps are the calls a caller can make.

Following the laws this development settles, a write step is a call that
returns, `Ok` or a recoverable error; the caller may go on after an error, with
more writes and with a commit. A commit step is a commit that completes.
`BatchWriter.Reachable` is every state of every such run from the empty batch.

A single transaction whose calls may also panic is `BatchWriter.Writer.writeAll`:
the calls run in order until one panics, and the writer is then dropped from where
the panic left it.
-/

namespace BatchWriter

/-- One typed write call, with the arguments its caller passes. -/
inductive WriteCall
  /-- `write_f64(name, valid_mask, values)`. -/
  | f64 (name : String) (valid_mask : Option (List UInt8)) (values : List Float)
  /-- `write_i64(name, valid_mask, values)`. -/
  | i64 (name : String) (valid_mask : Option (List UInt8)) (values : List Int)
  /-- `write_u64(name, valid_mask, values)`. -/
  | u64 (name : String) (valid_mask : Option (List UInt8)) (values : List UInt64)
  /-- `write_bool(name, valid_mask, values)`. -/
  | bool (name : String) (valid_mask : Option (List UInt8)) (values : List Bool)
  /-- `write_string(name, valid_mask, values)`. -/
  | string (name : String) (valid_mask : Option (List UInt8)) (values : List String)
  /-- `write_tag(name, valid_mask, values)`. -/
  | tag (name : String) (valid_mask : Option (List UInt8)) (values : List String)
  /-- `write_tag_dict(name, valid_mask, keys, values)`. -/
  | tagDict (name : String) (valid_mask : Option (List UInt8)) (keys : List Nat)
      (values : List String)
  /-- `write_time(name, values)`. -/
  | time (name : String) (values : List Int)

/-- The column a call writes to. -/
def WriteCall.name : WriteCall → String
  | .f64 name .. | .i64 name .. | .u64 name .. | .bool name .. | .string name ..
  | .tag name .. | .tagDict name .. | .time name .. => name

/-- Make a write call on a writer. -/
def Writer.write (w : Writer) : WriteCall → Except Exit Unit × Writer
  | .f64 name valid_mask values => w.writeF64 name valid_mask values
  | .i64 name valid_mask values => w.writeI64 name valid_mask values
  | .u64 name valid_mask values => w.writeU64 name valid_mask values
  | .bool name valid_mask values => w.writeBool name valid_mask values
  | .string name valid_mask values => w.writeString name valid_mask values
  | .tag name valid_mask values => w.writeTag name valid_mask values
  | .tagDict name valid_mask keys values => w.writeTagDict name valid_mask keys values
  | .time name values => w.writeTime name values

/-- The semantic type a call asks `column_mut` for. -/
def WriteCall.influxType : WriteCall → InfluxColumnType
  | .f64 .. => .field .float
  | .i64 .. => .field .integer
  | .u64 .. => .field .uInteger
  | .bool .. => .field .boolean
  | .string .. => .field .string
  | .tag .. | .tagDict .. => .tag
  | .time .. => .timestamp

/-- What a call does to the column `column_mut` resolved for it. -/
def WriteCall.apply (initial_rows to_insert : Nat) :
    WriteCall → Column → Except Exit Unit × Column × Option Statistics
  | .f64 _ valid_mask values => writeResolved to_insert valid_mask .f64 <|
    fixedArm initial_rows to_insert (setPositionIterator valid_mask to_insert) FixedWidth.f64 values
  | .i64 _ valid_mask values => writeResolved to_insert valid_mask .i64 <|
    fixedArm initial_rows to_insert (setPositionIterator valid_mask to_insert) FixedWidth.i64 values
  | .u64 _ valid_mask values => writeResolved to_insert valid_mask .u64 <|
    fixedArm initial_rows to_insert (setPositionIterator valid_mask to_insert) FixedWidth.u64 values
  | .bool _ valid_mask values => writeResolved to_insert valid_mask .bool <|
    boolArm initial_rows to_insert (setPositionIterator valid_mask to_insert) values
  | .string _ valid_mask values => writeResolved to_insert valid_mask .string <|
    stringArm initial_rows (setPositionIterator valid_mask to_insert) values
  | .tag _ valid_mask values => writeResolved to_insert valid_mask .string <|
    tagArm initial_rows to_insert (setPositionIterator valid_mask to_insert) values
  | .tagDict _ valid_mask keys values => writeResolved to_insert valid_mask .string <|
    tagDictArm initial_rows to_insert (setPositionIterator valid_mask to_insert) keys values
  | .time _ values => writeResolved to_insert none .i64 <|
    fixedArm initial_rows to_insert (List.range to_insert) FixedWidth.i64 values

/-- The mask a call passes: `write_time` has none. -/
def WriteCall.validMask : WriteCall → Option (List UInt8)
  | .f64 _ valid_mask _ | .i64 _ valid_mask _ | .u64 _ valid_mask _ | .bool _ valid_mask _
  | .string _ valid_mask _ | .tag _ valid_mask _ | .tagDict _ valid_mask _ _ => valid_mask
  | .time .. => none

/-- Every call's work on its column is `writeResolved` under the call's own mask, with
its own record variant and arm. -/
theorem WriteCall.apply_eq (c : WriteCall) (initial_rows to_insert : Nat) :
    ∃ (α : Type) (wrap : StatValues α → Statistics)
      (body : ColumnData → Option (Except Exit Unit × ColumnData × StatValues α)),
      c.apply initial_rows to_insert = writeResolved to_insert c.validMask wrap body := by
  cases c <;> exact ⟨_, _, _, rfl⟩

/-- Every typed write is `column_mut` for its name and type, then its own work on the
column it resolved. -/
theorem Writer.write_eq (w : Writer) (c : WriteCall) :
    w.write c = w.writeColumn c.name c.influxType (c.apply w.initialRows w.toInsert) := by
  cases c <;> rfl

/-- A call returned to its caller: with `Ok`, or with a recoverable error. -/
def returned : Except Exit Unit → Bool
  | .ok () => true
  | .error (.err _) => true
  | .error (.panic _) => false

/-- The writer after a transaction's calls, made in order up to the first that
panics: the panic unwinds out of the transaction, and the writer is dropped from
there. -/
def Writer.writeAll (w : Writer) : List WriteCall → Writer
  | [] => w
  | c :: cs =>
    match w.write c with
    | (.error (.panic _), w) => w
    | (_, w) => w.writeAll cs

/-- The state of a batch: no writer on it, or a live writer. -/
inductive Sys
  /-- A batch between transactions. -/
  | idle (batch : MutableBatch)
  /-- A transaction in flight. -/
  | busy (writer : Writer)

/-- The batch of a state, with or without a writer on it. -/
def Sys.batch : Sys → MutableBatch
  | .idle batch => batch
  | .busy writer => writer.batch

@[simp] theorem Sys.batch_idle (batch : MutableBatch) : (Sys.idle batch).batch = batch := rfl

@[simp] theorem Sys.batch_busy (writer : Writer) : (Sys.busy writer).batch = writer.batch := rfl

/-- The calls a caller can make. After a commit the writer is dropped with `success`
set, which leaves its batch as it is. -/
inductive Step : Sys → Sys → Prop
  /-- `Writer::new(batch, to_insert)`. -/
  | new (batch : MutableBatch) (to_insert : Nat) :
      Step (.idle batch) (.busy (Writer.new batch to_insert))
  /-- A typed write call that returns. -/
  | write {w w' : Writer} {r : Except Exit Unit} (call : WriteCall) :
      w.write call = (r, w') → returned r = true → Step (.busy w) (.busy w')
  /-- A commit that completes. -/
  | commit {w w' : Writer} : w.commit = (.ok (), w') → Step (.busy w) (.idle w'.batch)
  /-- A drop without commit. -/
  | drop (w : Writer) : Step (.busy w) (.idle w.drop)

/-- The states of every run from the empty batch. -/
def Reachable (s : Sys) : Prop :=
  Relation.ReflTransGen Step (.idle MutableBatch.new) s

end BatchWriter
