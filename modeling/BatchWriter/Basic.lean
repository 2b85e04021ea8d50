import Mathlib.Data.List.Nodup
import Mathlib.Data.List.Infix
import Mathlib.Order.Basic
import Mathlib.Data.String.Basic

/-!
# The primitives the writer is built on

`writer.rs` drives a handful of collaborators it does not define: the validity
bitset and its mask iterator, the string-interning dictionary of a tag column,
and the running statistics of a column. This file gives each of them the
meaning the spec states for it (§6, "Collaborator contracts"), with the panics
the writer can run into, and nothing else.

Everything is a plain list underneath. A bitset is a `List Bool`, a packed
string array a `List String`, a `Vec<T>` a `List T`; a row index is a list
index. Their `truncate` is `List.take`, their appends are `++`; only the
operations that can panic, or that carry an invariant, get a definition of
their own here.

The one invariant is the dictionary's: its entries are pairwise distinct, and
`BatchWriter.Dictionary` carries that as a field, so that no operation of the
model can break it and no proof has to re-establish it.
-/

namespace BatchWriter

/-! ### Panics -/

/-- Where a panic comes from. The writer never catches a panic: it unwinds out of
the call and drops the writer, which rolls the batch back. -/
inductive Panic
  /-- A slice index past the end. -/
  | indexOutOfBounds
  /-- An unsigned subtraction below zero. -/
  | subtractOverflow
  /-- `BitSet::append_bits` asked for more bits than its mask holds. -/
  | appendBits
  /-- An `unreachable!` arm. -/
  | unreachable
  /-- `column_mut`'s `assert_eq!` on the validity length. -/
  | columnRows
  /-- `commit`'s `assert_eq!` on the validity length. -/
  | commitRows
  /-- `commit`'s `statistics.next().unwrap()`. -/
  | missingStatistics
  /-- `commit`'s `assert_eq!` on the column index of the statistics. -/
  | statisticsIndex
  /-- An unsigned addition past `usize::MAX`. -/
  | addOverflow
  deriving DecidableEq, Repr

/-- `usize::MAX` on a 64-bit target. Row counts are `usize`s in `writer.rs` and `Nat`s
here; `commit` checks its sum `initial_rows + to_insert` against this bound. -/
def usizeMax : Nat := 2 ^ 64 - 1

/-! ### Validity masks -/

/-- Bit `i` of a validity mask, least significant bit of each byte first. Past the
end of the mask every bit is unset. -/
def maskBit (mask : List UInt8) (i : Nat) : Bool :=
  match mask[i / 8]? with
  | some byte => byte.toNat.testBit (i % 8)
  | none => false

theorem maskBit_of_le {mask : List UInt8} {i : Nat} (h : 8 * mask.length ≤ i) :
    maskBit mask i = false := by
  have : mask[i / 8]? = none := List.getElem?_eq_none (by omega)
  simp [maskBit, this]

/-- Modelled from the spec: `arrow_util::bitset::iter_set_positions`, the positions
of the set bits of `bytes`, in increasing order. -/
def iterSetPositions (bytes : List UInt8) : List Nat :=
  (List.range (8 * bytes.length)).filter (maskBit bytes)

/-! ### The validity bitset -/

namespace BitSet

/-- Modelled from the spec: `BitSet::append_bits(count, to_set)`, which appends the
first `count` bits of `to_set` and asserts that `to_set` holds that many. -/
def appendBits (bits : List Bool) (count : Nat) (to_set : List UInt8) :
    Except Panic (List Bool) :=
  if count ≤ 8 * to_set.length then .ok (bits ++ (List.range count).map (maskBit to_set))
  else .error .appendBits

/-- Modelled from the spec: `BitSet::set(idx)`, which sets one bit of the set. -/
def set (bits : List Bool) (idx : Nat) : Except Panic (List Bool) :=
  if idx < bits.length then .ok (bits.set idx true) else .error .indexOutOfBounds

end BitSet

/-! ### Vectors -/

namespace Vec

/-- `Vec::resize(new_len, value)`: cut to `new_len`, or pad with `value` up to it. -/
def resize {α : Type} (v : List α) (new_len : Nat) (value : α) : List α :=
  v.take new_len ++ List.replicate (new_len - v.length) value

/-- The assignment `v[idx] = value`, which panics past the end. -/
def setAt {α : Type} (v : List α) (idx : Nat) (value : α) : Except Panic (List α) :=
  if idx < v.length then .ok (v.set idx value) else .error .indexOutOfBounds

variable {α : Type}

@[simp] theorem length_resize (v : List α) (n : Nat) (x : α) :
    (resize v n x).length = n := by
  simp only [resize, List.length_append, List.length_take, List.length_replicate]
  omega

theorem resize_of_length_le {v : List α} {n : Nat} (h : v.length ≤ n) (x : α) :
    resize v n x = v ++ List.replicate (n - v.length) x := by
  simp [resize, List.take_of_length_le h]

theorem setAt_eq_ok {v v' : List α} {i : Nat} {x : α} :
    setAt v i x = .ok v' ↔ i < v.length ∧ v' = v.set i x := by
  unfold setAt
  split <;> simp_all [eq_comm]

end Vec

/-! ### The dictionary of a tag column -/

/-- Modelled from the spec: the string-interning dictionary of a tag column
(`arrow_util::dictionary::StringDictionary`). A code is the position of its
string; the entries are pairwise distinct. -/
@[ext] structure Dictionary where
  /-- The interned strings, in order of first insertion. -/
  values : List String
  /-- No string is interned twice. -/
  nodup : values.Nodup

/-- The code a tag column stores for a null row. -/
def invalidDid : Int := -1

namespace Dictionary

/-- The dictionary with no entry. -/
def empty : Dictionary := ⟨[], List.nodup_nil⟩

/-- Modelled from the spec: `lookup_value_or_insert(value)`, the code of `value`,
which is appended first if it is new. -/
def lookupValueOrInsert (d : Dictionary) (value : String) : Int × Dictionary :=
  if h : value ∈ d.values then (d.values.indexOf value, d)
  else (d.values.length, ⟨d.values ++ [value], d.nodup.append (List.nodup_singleton _)
    (List.disjoint_singleton.mpr h)⟩)

/-- Modelled from the spec: `truncate(id)`, which drops every entry whose code is
above `id`. A negative `id` drops them all. -/
def truncate (d : Dictionary) (id : Int) : Dictionary :=
  ⟨d.values.take (id + 1).toNat, d.nodup.sublist (List.take_sublist _ _)⟩

/-- The string a code stands for, if the code is one of the dictionary's. -/
def lookupId (d : Dictionary) (id : Int) : Option String :=
  if 0 ≤ id then d.values[id.toNat]? else none

theorem mem_of_lookupId {d : Dictionary} {id : Int} {value : String}
    (h : d.lookupId id = some value) : value ∈ d.values := by
  unfold lookupId at h
  split_ifs at h
  exact List.getElem?_mem h

theorem values_lookupValueOrInsert (d : Dictionary) (value : String) :
    (d.lookupValueOrInsert value).2.values =
      if value ∈ d.values then d.values else d.values ++ [value] := by
  unfold lookupValueOrInsert
  split <;> simp_all

theorem prefix_lookupValueOrInsert (d : Dictionary) (value : String) :
    d.values <+: (d.lookupValueOrInsert value).2.values := by
  rw [values_lookupValueOrInsert]
  split
  · exact List.prefix_refl _
  · exact List.prefix_append _ _

/-- The code `lookup_value_or_insert` returns stands for the value it was given. -/
theorem lookupId_lookupValueOrInsert (d : Dictionary) (value : String) :
    (d.lookupValueOrInsert value).2.lookupId (d.lookupValueOrInsert value).1 = some value := by
  unfold lookupValueOrInsert lookupId
  split
  · rw [if_pos (by omega)]
    simp [List.indexOf_lt_length.mpr ‹_›, List.indexOf_get]
  · rw [if_pos (by omega)]
    simp

/-- A code keeps its string when the dictionary only grows at its end. -/
theorem lookupId_of_prefix {d d' : Dictionary} (h : d.values <+: d'.values) {id : Int}
    {value : String} (hv : d.lookupId id = some value) : d'.lookupId id = some value := by
  unfold lookupId at hv ⊢
  split_ifs at hv ⊢
  obtain ⟨t, ht⟩ := h
  rw [← ht, List.getElem?_append_left (List.getElem?_eq_some_iff.mp hv).1, hv]

/-- `truncate(id)` keeps the string of every code up to `id`. -/
theorem lookupId_truncate (d : Dictionary) {id code : Int} (h : code ≤ id) :
    (d.truncate id).lookupId code = d.lookupId code := by
  unfold lookupId truncate
  split_ifs
  · rw [List.getElem?_take, if_pos (by omega)]
  · rfl

end Dictionary

/-! ### Statistics -/

/-- Modelled from the spec: the running aggregate of a column
(`data_types::partition_metadata::StatValues`). -/
structure StatValues (α : Type) where
  /-- The least value seen. -/
  min : Option α
  /-- The greatest value seen. -/
  max : Option α
  /-- The number of rows seen, null or not. -/
  totalCount : Nat
  /-- The number of null rows seen. -/
  nullCount : Nat
  /-- The number of distinct values, where it is known (a `NonZeroU64`). -/
  distinctCount : Option Nat
  deriving DecidableEq, Repr

namespace StatValues

variable {α : Type}

/-- `StatValues::new_empty()`. -/
def newEmpty : StatValues α := ⟨none, none, 0, 0, none⟩

/-- Modelled from the spec: the statistics of `total` rows that are all null. -/
def newAllNull (total : Nat) : StatValues α := ⟨none, none, total, total, none⟩

/-- Modelled from the spec: `update(value)` folds one non-null value in. -/
def update [LT α] [DecidableRel (α := α) (· < ·)] (s : StatValues α) (value : α) : StatValues α :=
  { min := match s.min with
      | some m => if value < m then some value else some m
      | none => some value
    max := match s.max with
      | some m => if m < value then some value else some m
      | none => some value
    totalCount := s.totalCount + 1
    nullCount := s.nullCount
    distinctCount := none }

/-- Modelled from the spec: `update_for_nulls(num_nulls)`. -/
def updateForNulls (s : StatValues α) (num_nulls : Nat) : StatValues α :=
  { s with totalCount := s.totalCount + num_nulls, nullCount := s.nullCount + num_nulls }

/-- Modelled from the spec: `update_from(other)`, the merge of two aggregates. -/
def updateFrom [LT α] [DecidableRel (α := α) (· < ·)] (s other : StatValues α) : StatValues α :=
  { min := match s.min, other.min with
      | some m, some o => if o < m then some o else some m
      | some m, none => some m
      | none, o => o
    max := match s.max, other.max with
      | some m, some o => if m < o then some o else some m
      | some m, none => some m
      | none, o => o
    totalCount := s.totalCount + other.totalCount
    nullCount := s.nullCount + other.nullCount
    distinctCount := none }

@[simp] theorem totalCount_newEmpty : (newEmpty : StatValues α).totalCount = 0 := rfl

@[simp] theorem nullCount_newEmpty : (newEmpty : StatValues α).nullCount = 0 := rfl

@[simp] theorem totalCount_update [LT α] [DecidableRel (α := α) (· < ·)] (s : StatValues α)
    (v : α) :
    (s.update v).totalCount = s.totalCount + 1 := rfl

@[simp] theorem totalCount_updateForNulls (s : StatValues α) (k : Nat) :
    (s.updateForNulls k).totalCount = s.totalCount + k := rfl

@[simp] theorem nullCount_updateForNulls (s : StatValues α) (k : Nat) :
    (s.updateForNulls k).nullCount = s.nullCount + k := rfl

end StatValues

end BatchWriter
