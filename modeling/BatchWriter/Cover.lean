import Mathlib.Data.Bool.Count
import BatchWriter.Clean
import BatchWriter.Records

/-!
# The statistics cover the values

A record's least and greatest values are values it folded, and it has them exactly
when it folded one (`BatchWriter.StatValues.extremes_ofValues`); `update_from` keeps
those of one side. They bound every value it folded, and they still do after
`update_for_nulls`, after more `update`s and after `update_from` merges the record with
another on either side. The first three need only a strict order; the merge
keeping the bound of its right-hand side needs the order to be connected as well,
`¬ a < b → ¬ b < c → ¬ a < c` (`BatchWriter.StatValues.Covers.updateFrom_right`).
Integers and strings are linearly ordered; `u64` gets the two classes here from its
order on `toNat`. A float has no such order (`NaN` is below and above nothing), so a
float record bounds nothing; neither does a boolean one, for the reason
`BatchWriter.Sound` shows.

The second half of the file says what a successful call leaves at the rows it sets:
the value of the item its loop took there, which the call's record folded
(`BatchWriter.WriteCall.apply_rows`). For `write_tag` the value of a row is the
string its code decodes to, and `write_tag_dict` is `write_tag` on the strings its
keys stand for.
-/

namespace BatchWriter

/-! ### The order of `u64` -/

instance uint64IsStrictOrder : IsStrictOrder UInt64 (· < ·) where
  irrefl := UInt64.lt_irrefl
  trans _ _ _ := UInt64.lt_trans

instance uint64IsOrderConnected : IsOrderConnected UInt64 (· < ·) where
  conn a b c h := by
    by_cases hab : a < b
    · exact .inl hab
    · have hba : b.toNat ≤ a.toNat := UInt64.not_lt.mp hab
      have hac : a.toNat < c.toNat := h
      exact .inr (show b.toNat < c.toNat by omega)

/-! ### Bounds of a record -/

namespace StatValues

variable {α : Type} [LT α] {s : StatValues α} {v : α}

/-- The statistics cover the value `v`: they have a least and a greatest value, and `v`
is neither below the one nor above the other. -/
def Covers (s : StatValues α) (v : α) : Prop :=
  ∃ lo hi, s.min = some lo ∧ s.max = some hi ∧ ¬ v < lo ∧ ¬ hi < v

@[simp] theorem covers_updateForNulls (k : Nat) : (s.updateForNulls k).Covers v ↔ s.Covers v :=
  Iff.rfl

variable [DecidableRel (α := α) (· < ·)]

/-! #### Where the bounds come from

These need no law of the order: `update` and `update_from` only ever pick one of the
values they compare. -/

/-- Each bound `update(value)` leaves is `value` or the old bound. -/
theorem mem_update (s : StatValues α) (u : α) :
    (∀ m, (s.update u).min = some m → m = u ∨ s.min = some m) ∧
      ∀ m, (s.update u).max = some m → m = u ∨ s.max = some m := by
  constructor <;> intro m h <;> simp only [update] at h <;> split at h <;> (try split_ifs at h) <;>
    simp_all [eq_comm]

theorem isSome_update (s : StatValues α) (u : α) :
    (s.update u).min.isSome ∧ (s.update u).max.isSome := by
  constructor <;> simp only [update] <;> split <;> (try split_ifs) <;> rfl

/-- A fold of `update` leaves bounds that are folded values or the bounds it started
from. -/
theorem mem_foldl_update (l : List α) (s : StatValues α) :
    (∀ m, (l.foldl update s).min = some m → m ∈ l ∨ s.min = some m) ∧
      ∀ m, (l.foldl update s).max = some m → m ∈ l ∨ s.max = some m := by
  induction l generalizing s with
  | nil => simp
  | cons u l ih =>
    obtain ⟨h₁, h₂⟩ := ih (s.update u)
    obtain ⟨hu₁, hu₂⟩ := mem_update s u
    refine ⟨fun m hm => ?_, fun m hm => ?_⟩
    · rcases h₁ m hm with h | h
      · exact .inl (List.mem_cons_of_mem u h)
      · exact (hu₁ m h).imp (fun e => List.mem_cons.mpr (.inl e)) id
    · rcases h₂ m hm with h | h
      · exact .inl (List.mem_cons_of_mem u h)
      · exact (hu₂ m h).imp (fun e => List.mem_cons.mpr (.inl e)) id

theorem isSome_foldl_update (l : List α) (s : StatValues α) :
    ((l.foldl update s).min.isSome ↔ l ≠ [] ∨ s.min.isSome) ∧
      ((l.foldl update s).max.isSome ↔ l ≠ [] ∨ s.max.isSome) := by
  induction l generalizing s with
  | nil => simp
  | cons u l ih => simp [ih, isSome_update]

/-- **The bounds of a fold of values, read through `f`, are values it folded, and it has
them exactly when it folded a value.** -/
theorem extremes_ofValues {β : Type} (f : α → β) (n : Nat) (l : List α) :
    (∀ v, (ofValues n l).min.map f = some v ∨ (ofValues n l).max.map f = some v →
        v ∈ l.map f) ∧
      (((ofValues n l).min.map f).isSome ↔ l.map f ≠ []) ∧
      (((ofValues n l).max.map f).isSome ↔ l.map f ≠ []) := by
  obtain ⟨h₁, h₂⟩ := mem_foldl_update l newEmpty
  have hs := isSome_foldl_update l newEmpty
  simp only [newEmpty, Option.isSome_none, Bool.false_eq_true, or_false, reduceCtorEq] at h₁ h₂ hs
  refine ⟨fun v hv => ?_, by simpa [ofValues] using hs.1, by simpa [ofValues] using hs.2⟩
  rcases hv with hv | hv <;> obtain ⟨m, hm, rfl⟩ := Option.map_eq_some'.mp hv
  · exact List.mem_map_of_mem f (h₁ m hm)
  · exact List.mem_map_of_mem f (h₂ m hm)

/-- Each bound `update_from(other)` leaves is one of the two sides', and it has one when
either side has. -/
theorem mem_updateFrom (s o : StatValues α) :
    (∀ m, (s.updateFrom o).min = some m → s.min = some m ∨ o.min = some m) ∧
      ∀ m, (s.updateFrom o).max = some m → s.max = some m ∨ o.max = some m := by
  constructor <;> intro m h <;> simp only [updateFrom] at h <;> split at h <;>
    (try split_ifs at h) <;> simp_all

theorem isSome_updateFrom (s o : StatValues α) :
    ((s.updateFrom o).min.isSome ↔ s.min.isSome ∨ o.min.isSome) ∧
      ((s.updateFrom o).max.isSome ↔ s.max.isSome ∨ o.max.isSome) := by
  constructor <;> simp only [updateFrom] <;> split <;> (try split_ifs) <;> simp_all

/-- The merge's bounds read through `f`: each is a bound of one side, and it has them
when either side has. -/
theorem extremes_updateFrom {β : Type} (f : α → β) (s o : StatValues α) :
    (∀ v, (s.updateFrom o).min.map f = some v ∨ (s.updateFrom o).max.map f = some v →
        (s.min.map f = some v ∨ s.max.map f = some v) ∨
          (o.min.map f = some v ∨ o.max.map f = some v)) ∧
      (((s.updateFrom o).min.map f).isSome ↔ (s.min.map f).isSome ∨ (o.min.map f).isSome) ∧
      (((s.updateFrom o).max.map f).isSome ↔ (s.max.map f).isSome ∨ (o.max.map f).isSome) := by
  obtain ⟨h₁, h₂⟩ := mem_updateFrom s o
  refine ⟨fun v hv => ?_, by simpa using (isSome_updateFrom s o).1,
    by simpa using (isSome_updateFrom s o).2⟩
  rcases hv with hv | hv <;> obtain ⟨m, hm, rfl⟩ := Option.map_eq_some'.mp hv
  · rcases h₁ m hm with h | h <;> simp [h]
  · rcases h₂ m hm with h | h <;> simp [h]

section Strict

variable [IsStrictOrder α (· < ·)]

theorem Covers.update (h : s.Covers v) (u : α) : (s.update u).Covers v := by
  obtain ⟨lo, hi, hlo, hhi, h1, h2⟩ := h
  refine ⟨if u < lo then u else lo, if hi < u then u else hi, ?_, ?_, ?_, ?_⟩
  · simp only [StatValues.update, hlo]; split_ifs <;> rfl
  · simp only [StatValues.update, hhi]; split_ifs <;> rfl
  · split_ifs with hu
    · exact fun hv => h1 (trans_of _ hv hu)
    · exact h1
  · split_ifs with hu
    · exact fun hv => h2 (trans_of _ hu hv)
    · exact h2

/-- `update(value)` covers `value`. -/
theorem covers_update (s : StatValues α) (u : α) : (s.update u).Covers u := by
  have hu : ¬ u < u := irrefl_of _ u
  obtain ⟨_ | lo, _ | hi, _, _, _⟩ := s <;> simp only [Covers, StatValues.update] <;>
    (try split_ifs) <;> simp_all

theorem Covers.foldl (h : s.Covers v) (l : List α) : (l.foldl StatValues.update s).Covers v := by
  induction l generalizing s with
  | nil => exact h
  | cons u l ih => exact ih (h.update u)

/-- **A fold of `update` covers every value it folded.** -/
theorem covers_foldl_of_mem {l : List α} (hv : v ∈ l) (s : StatValues α) :
    (l.foldl StatValues.update s).Covers v := by
  induction l generalizing s with
  | nil => cases hv
  | cons u l ih =>
    rcases List.mem_cons.mp hv with rfl | hv
    · exact (covers_update s v).foldl l
    · exact ih hv _

theorem covers_ofValues {n : Nat} {values : List α} (hv : v ∈ values) :
    (ofValues n values).Covers v :=
  covers_foldl_of_mem hv _

/-- The merge keeps the bound of its left-hand side: each new bound is the old one, or
one past it. -/
theorem Covers.updateFrom_left (h : s.Covers v) (o : StatValues α) : (s.updateFrom o).Covers v := by
  obtain ⟨lo, hi, hlo, hhi, h1, h2⟩ := h
  obtain ⟨_ | lo', _ | hi', _, _, _⟩ := o <;> simp only [Covers, updateFrom, hlo, hhi] <;>
    (try split_ifs) <;> simp only [Option.some.injEq, exists_and_left, exists_eq_left'] <;>
    exact ⟨fun hv => by first | exact h1 hv | exact h1 (trans_of _ hv ‹_›),
      fun hv => by first | exact h2 hv | exact h2 (trans_of _ ‹_› hv)⟩

end Strict

/-- The merge keeps the bound of its right-hand side, when the order is connected: a
bound of the left-hand side it keeps is not past the right-hand side's. -/
theorem Covers.updateFrom_right [IsOrderConnected α (· < ·)] {o : StatValues α} (h : o.Covers v)
    (s : StatValues α) : (s.updateFrom o).Covers v := by
  obtain ⟨lo, hi, hlo, hhi, h1, h2⟩ := h
  obtain ⟨_ | lo', _ | hi', _, _, _⟩ := s <;> simp only [Covers, updateFrom, hlo, hhi] <;>
    (try split_ifs) <;> simp only [Option.some.injEq, exists_and_left, exists_eq_left'] <;>
    exact ⟨fun hv => by first | exact h1 hv | exact IsOrderConnected.neg_trans h1 ‹_› hv,
      fun hv => by first | exact h2 hv | exact IsOrderConnected.neg_trans ‹_› h2 hv⟩

end StatValues

/-! ### Records and rows -/

/-- A record covers a row's value: an integer, an unsigned integer or a string of the
record's own variant lies between the record's least and greatest values. A float or a
boolean of the record's variant is not bounded, and a value of another variant is never
covered. -/
def Statistics.Covers : Statistics → Float ⊕ Int ⊕ UInt64 ⊕ String ⊕ Bool → Prop
  | .f64 _, .inl _ => True
  | .i64 s, .inr (.inl v) => s.Covers v
  | .u64 s, .inr (.inr (.inl v)) => s.Covers v
  | .string s, .inr (.inr (.inr (.inl v))) => s.Covers v
  | .bool _, .inr (.inr (.inr (.inr _))) => True
  | _, _ => False

/-- The record `rec` covers the value row `r` of the store `d` holds, if it holds one. -/
def Statistics.Bounds (rec : Statistics) (d : ColumnData) (r : Nat) : Prop :=
  ∀ v, d.value? r = some v → rec.Covers v

/-- The least value of a record, read as a row value. -/
def Statistics.min? : Statistics → Option (Float ⊕ Int ⊕ UInt64 ⊕ String ⊕ Bool)
  | .f64 s => s.min.map .inl
  | .i64 s => s.min.map (.inr ∘ .inl)
  | .u64 s => s.min.map (.inr ∘ .inr ∘ .inl)
  | .string s => s.min.map (.inr ∘ .inr ∘ .inr ∘ .inl)
  | .bool s => s.min.map (.inr ∘ .inr ∘ .inr ∘ .inr)

/-- The greatest value of a record, read as a row value. -/
def Statistics.max? : Statistics → Option (Float ⊕ Int ⊕ UInt64 ⊕ String ⊕ Bool)
  | .f64 s => s.max.map .inl
  | .i64 s => s.max.map (.inr ∘ .inl)
  | .u64 s => s.max.map (.inr ∘ .inr ∘ .inl)
  | .string s => s.max.map (.inr ∘ .inr ∘ .inr ∘ .inl)
  | .bool s => s.max.map (.inr ∘ .inr ∘ .inr ∘ .inr)

/-- `v` is the least or the greatest value of the record. -/
def Statistics.Extreme (rec : Statistics) (v : Float ⊕ Int ⊕ UInt64 ⊕ String ⊕ Bool) : Prop :=
  rec.min? = some v ∨ rec.max? = some v

/-- The record has a least and a greatest value exactly when `P` holds. -/
def Statistics.HasBoundsIff (rec : Statistics) (P : Prop) : Prop :=
  (rec.min?.isSome ↔ P) ∧ (rec.max?.isSome ↔ P)

theorem Statistics.HasBoundsIff.of_iff {rec : Statistics} {P Q : Prop} (h : rec.HasBoundsIff P)
    (e : P ↔ Q) : rec.HasBoundsIff Q :=
  ⟨h.1.trans e, h.2.trans e⟩

/-- The cumulative statistics of a store, as a record of their variant: those of a tag
column are statistics of strings. -/
def ColumnData.statistics : ColumnData → Statistics
  | .f64 _ s => .f64 s
  | .i64 _ s => .i64 s
  | .u64 _ s => .u64 s
  | .string _ s => .string s
  | .bool _ s => .bool s
  | .tag _ _ s => .string s

namespace ColumnData

variable {d d' : ColumnData} {n : Nat}

@[simp] theorem totalCount_statistics_new (rows : Nat) (t : InfluxColumnType) :
    (new rows t).statistics.totalCount = rows := by
  cases t with
  | field f => cases f <;> rfl
  | _ => rfl

@[simp] theorem nullCount_statistics_new (rows : Nat) (t : InfluxColumnType) :
    (new rows t).statistics.nullCount = rows := by
  cases t with
  | field f => cases f <;> rfl
  | _ => rfl

@[simp] theorem totalCount_statistics_pushNulls (k : Nat) (d : ColumnData) :
    (d.pushNulls k).statistics.totalCount = d.statistics.totalCount + k := by
  cases d <;> rfl

@[simp] theorem nullCount_statistics_pushNulls (k : Nat) (d : ColumnData) :
    (d.pushNulls k).statistics.nullCount = d.statistics.nullCount + k := by
  cases d <;> rfl

@[simp] theorem min?_statistics_new (rows : Nat) (t : InfluxColumnType) :
    (new rows t).statistics.min? = none := by
  cases t with
  | field f => cases f <;> rfl
  | _ => rfl

@[simp] theorem max?_statistics_new (rows : Nat) (t : InfluxColumnType) :
    (new rows t).statistics.max? = none := by
  cases t with
  | field f => cases f <;> rfl
  | _ => rfl

@[simp] theorem min?_statistics_pushNulls (k : Nat) (d : ColumnData) :
    (d.pushNulls k).statistics.min? = d.statistics.min? := by
  cases d <;> rfl

@[simp] theorem max?_statistics_pushNulls (k : Nat) (d : ColumnData) :
    (d.pushNulls k).statistics.max? = d.statistics.max? := by
  cases d <;> rfl

theorem covers_statistics_pushNulls (k : Nat) {v : Float ⊕ Int ⊕ UInt64 ⊕ String ⊕ Bool} :
    (d.pushNulls k).statistics.Covers v ↔ d.statistics.Covers v := by
  cases d <;> rcases v with v | v | v | v | v <;> exact Iff.rfl

@[simp] theorem statistics_truncate (d : ColumnData) (n : Nat) :
    (d.truncate n).statistics = d.statistics := by
  cases d <;> rfl

/-- A store that keeps the first rows of another keeps its statistics. -/
theorem Keeps.statistics (h : d.Keeps n d') : d'.statistics = d.statistics := by
  cases d <;> cases d' <;> simp only [Keeps] at h <;> first | exact absurd h id | simp [statistics, h]

end ColumnData

namespace Column

variable {col col' : Column} {rec : Statistics}

/-- The statistics merge of `commit` adds the record's counts to the column's. -/
theorem counts_mergeStatistics (hm : col.mergeStatistics rec = some col') :
    col'.data.statistics.totalCount = col.data.statistics.totalCount + rec.totalCount ∧
      col'.data.statistics.nullCount = col.data.statistics.nullCount + rec.nullCount := by
  rcases col with ⟨t, valid, d⟩
  cases d <;> cases rec <;> simp only [mergeStatistics, Option.some.injEq, reduceCtorEq] at hm <;>
    subst hm <;> exact ⟨rfl, rfl⟩

/-- **The statistics merge of `commit` covers what either side covered.** -/
theorem covers_mergeStatistics (hm : col.mergeStatistics rec = some col')
    {v : Float ⊕ Int ⊕ UInt64 ⊕ String ⊕ Bool} (h : col.data.statistics.Covers v ∨ rec.Covers v) :
    col'.data.statistics.Covers v := by
  rcases col with ⟨t, valid, d⟩
  cases d <;> cases rec <;> simp only [mergeStatistics, Option.some.injEq, reduceCtorEq] at hm <;>
    subst hm <;> rcases v with v | v | v | v | v <;>
    simp only [ColumnData.statistics, Statistics.Covers, or_self, or_false, false_or] at h ⊢ <;>
    first | trivial | exact h.elim (·.updateFrom_left _) (·.updateFrom_right _)

/-- The statistics merge of `commit` leaves least and greatest values of one side or the
other, and has them when either side has. -/
theorem extremes_mergeStatistics (hm : col.mergeStatistics rec = some col') :
    (∀ v, col'.data.statistics.Extreme v → col.data.statistics.Extreme v ∨ rec.Extreme v) ∧
      (col'.data.statistics.min?.isSome ↔ col.data.statistics.min?.isSome ∨ rec.min?.isSome) ∧
      (col'.data.statistics.max?.isSome ↔ col.data.statistics.max?.isSome ∨ rec.max?.isSome) := by
  rcases col with ⟨t, valid, d⟩
  cases d <;> cases rec <;> simp only [mergeStatistics, Option.some.injEq, reduceCtorEq] at hm <;>
    subst hm <;> exact StatValues.extremes_updateFrom _ _ _

theorem hasBoundsIff_mergeStatistics (hm : col.mergeStatistics rec = some col') {P Q : Prop}
    (h₁ : col.data.statistics.HasBoundsIff P) (h₂ : rec.HasBoundsIff Q) :
    col'.data.statistics.HasBoundsIff (P ∨ Q) := by
  obtain ⟨-, hmin, hmax⟩ := extremes_mergeStatistics hm
  exact ⟨hmin.trans (or_congr h₁.1 h₂.1), hmax.trans (or_congr h₁.2 h₂.2)⟩

end Column

/-! ### What a successful call stores at the rows it sets -/

/-- Every position of a loop that had an item for each is paired with one of the items
it took. -/
theorem exists_mem_zip_of_mem {α β : Type} {l₁ : List α} {l₂ : List β} {a : α} (ha : a ∈ l₁)
    (hl : l₁.length ≤ l₂.length) : ∃ b, (a, b) ∈ l₁.zip l₂ ∧ b ∈ l₂.take l₁.length := by
  induction l₁ generalizing l₂ with
  | nil => cases ha
  | cons x l₁ ih =>
    cases l₂ with
    | nil => simp at hl
    | cons b l₂ =>
      rcases List.mem_cons.mp ha with rfl | ha
      · exact ⟨b, List.mem_cons_self _ _, by simp⟩
      · obtain ⟨b', h1, h2⟩ := ih ha (by simpa using hl)
        exact ⟨b', List.mem_cons_of_mem _ h1, by simp [h2]⟩

section Arms

variable {α β : Type} {i n : Nat} {ps : List Nat}

/-- What an arm that succeeds stores: it took an item for every position, and the row of
each position holds the value of the item it took there, as `inj` reads it. -/
def ArmStores (i : Nat) (ps : List Nat) (items : List β)
    (inj : β → Float ⊕ Int ⊕ UInt64 ⊕ String ⊕ Bool)
    (arm : ColumnData → Option (Except Exit Unit × ColumnData × StatValues α)) : Prop :=
  ∀ d d' stats, arm d = some (.ok (), d', stats) → ps.length ≤ items.length ∧
    ∀ pb ∈ ps.zip items, d'.value? (i + pb.1) = some (inj pb.2)

variable [LT α] [DecidableRel (α := α) (· < ·)]

theorem armStores_fixed (v : FixedWidth α) (inj : α → Float ⊕ Int ⊕ UInt64 ⊕ String ⊕ Bool)
    (hval : ∀ x s r, (v.rebuild x s).value? r = x[r]?.map inj) (hnd : ps.Nodup) (vs : List α) :
    ArmStores i ps vs inj (fixedArm i n ps v vs) := by
  intro d d' stats h
  cases ha : v.arm d with
  | none => simp [fixedArm, ha] at h
  | some p =>
    simp only [fixedArm, ha, Option.map_some', Option.some.injEq, Prod.mk.injEq] at h
    obtain ⟨hok, rfl, -⟩ := h
    have hL : _ = (Except.ok (), _) := Prod.ext hok rfl
    refine ⟨(fillLoop_ok _ hL).1, fun pb hpb => ?_⟩
    rw [hval, fillLoop_zip (putValue i) (fun _ => True) (fun q b t => t[i + q]? = some b)
      (fun _ _ _ _ => trivial)
      (fun idx b t a _ ha => by
        dsimp only
        rw [putValue, storeAt_snd, List.getElem?_set_self (lt_of_storeAt_ok ha)])
      (fun q b idx b' t hne _ hq => by
        dsimp only at hq ⊢
        rwa [putValue, storeAt_snd, List.getElem?_set_ne (by omega)])
      hnd trivial hL pb hpb]
    rfl

/-- The arm of `write_string` stores each value at its row: it pads the store up to the
row and appends the value, and later steps only append. -/
theorem armStores_string (hnd : ps.Nodup) (vs : List String) :
    ArmStores (α := String) i ps vs (.inr ∘ .inr ∘ .inr ∘ .inl) (stringArm i ps vs) := by
  intro d d' stats h
  cases d <;> simp only [stringArm, Option.some.injEq, Prod.mk.injEq, reduceCtorEq] at h
  obtain ⟨hok, rfl, -⟩ := h
  have hL : _ = (Except.ok (), _) := Prod.ext hok rfl
  refine ⟨(fillLoop_ok _ hL).1, fun pb hpb => ?_⟩
  simp only [ColumnData.value?]
  rw [fillLoop_zip (putString i) (fun _ => True) (fun q b t => t[i + q]? = some b)
    (fun _ _ _ _ => trivial)
    (fun idx b t a _ ha => by
      have hlt := lt_of_putString_ok ha
      unfold putString at ha ⊢
      split_ifs at ha ⊢ with hl
      dsimp only
      rw [List.getElem?_append_right (by simp; omega)]
      simp [show i + idx - (t.length + (i + idx - t.length)) = 0 by omega])
    (fun q b idx b' t _ _ hq => prefix_getElem?_eq_some (prefix_putString (List.prefix_refl t) idx b') hq)
    hnd trivial hL pb hpb]
  rfl

/-- The arm of `write_tag` stores at each row a code that decodes to the value. -/
theorem armStores_tag (hnd : ps.Nodup) (vs : List String) :
    ArmStores (α := String) i ps vs (.inr ∘ .inr ∘ .inr ∘ .inl) (tagArm i n ps vs) := by
  intro d d' stats h
  cases d <;> simp only [tagArm, Option.some.injEq, Prod.mk.injEq, reduceCtorEq] at h
  obtain ⟨hok, rfl, -⟩ := h
  have hL : _ = (Except.ok (), _) := Prod.ext hok rfl
  refine ⟨(fillLoop_ok _ hL).1, fun pb hpb => ?_⟩
  simp only [ColumnData.value?, fillLoop_putTag_decodes hnd hL pb hpb]
  rfl

end Arms

/-! ### What a successful call leaves in the rows it appends -/

/-- A boolean record covers every value of a boolean store. -/
theorem ColumnData.covers_bool_of_storage {d : ColumnData} (hd : d.storage = .bool)
    (s : StatValues Bool) {r : Nat} : (Statistics.bool s).Bounds d r := by
  intro v hv
  cases d <;> simp only [ColumnData.storage, reduceCtorEq] at hd
  obtain ⟨b, -, rfl⟩ := Option.map_eq_some'.mp hv
  trivial

/-- The values the record of a call folds, read as row values: its first `k` values,
where `k` counts the validity bits it sets (`BatchWriter.WriteCall.record`). -/
def WriteCall.recordValues (to_insert : Nat) (c : WriteCall) :
    List (Float ⊕ Int ⊕ UInt64 ⊕ String ⊕ Bool) :=
  let k := (validBits c.validMask to_insert).count true
  match c with
  | .f64 _ _ values => (values.take k).map .inl
  | .i64 _ _ values => (values.take k).map (.inr ∘ .inl)
  | .u64 _ _ values => (values.take k).map (.inr ∘ .inr ∘ .inl)
  | .bool _ _ values => (values.take k).map (.inr ∘ .inr ∘ .inr ∘ .inr)
  | .string _ _ values => (values.take k).map (.inr ∘ .inr ∘ .inr ∘ .inl)
  | .tag _ _ values => (values.take k).map (.inr ∘ .inr ∘ .inr ∘ .inl)
  | .tagDict _ _ keys values => ((keys.map (tableAt values)).take k).map (.inr ∘ .inr ∘ .inr ∘ .inl)
  | .time _ values => (values.take k).map (.inr ∘ .inl)

/-- **The least and greatest values of a call's record are values it folded, and it has
them exactly when it folded one.** -/
theorem WriteCall.extremes_record (c : WriteCall) (n : Nat) :
    (∀ v, (c.record n).Extreme v → v ∈ c.recordValues n) ∧
      (c.record n).HasBoundsIff (c.recordValues n ≠ []) := by
  cases c <;> exact StatValues.extremes_ofValues _ _ _

/-- A call's record covers every value it folded. -/
theorem WriteCall.covers_record (c : WriteCall) (n : Nat) :
    ∀ v ∈ c.recordValues n, (c.record n).Covers v := by
  cases c <;> intro v hv <;> obtain ⟨b, hb, rfl⟩ := List.mem_map.mp hv <;>
    first | trivial | exact StatValues.covers_ofValues hb

/-- What a call that succeeds leaves in the rows from `i` on of the column `col'`, for a
record `rec` of the values `vs`: `k` values, one per validity bit it sets; at each row
it sets, a value `rec` covers; and, when `stored` holds, each value of `vs` at a row it
sets. -/
structure AppendsRows (i k : Nat) (rec : Statistics) (vs : List (Float ⊕ Int ⊕ UInt64 ⊕ String ⊕ Bool))
    (stored : Prop) (col' : Column) : Prop where
  length : vs.length = k
  bounds : ∀ r, i ≤ r → col'.valid[r]? = some true → rec.Bounds col'.data r
  stored : stored → ∀ v ∈ vs, ∃ r, i ≤ r ∧ col'.valid[r]? = some true ∧ col'.data.value? r = some v

section Resolved

variable {α β : Type} {i n k : Nat} {ps : List Nat} {items : List β}
  {inj : β → Float ⊕ Int ⊕ UInt64 ⊕ String ⊕ Bool} {valid_mask : Option (List UInt8)}
  {wrap : StatValues α → Statistics}
  {body : ColumnData → Option (Except Exit Unit × ColumnData × StatValues α)} {col : Column}
  {rec : Statistics} {stored : Prop}

/-- **A call whose arm stores the items it takes**, when it succeeds, sets the rows of
its loop's positions, each to the value of the item its loop took there. -/
theorem writeResolved_rows (hb : ArmStores i ps items inj body)
    (hps : ∀ p, (validBits valid_mask n)[p]? = some true ↔ p ∈ ps) (hk : ps.length = k)
    (hv : col.valid.length = i) (hcov : ∀ v ∈ (items.take k).map inj, rec.Covers v)
    (h : (writeResolved n valid_mask wrap body col).1 = .ok ()) :
    AppendsRows i k rec ((items.take k).map inj) stored
      (writeResolved n valid_mask wrap body col).2.1 := by
  obtain ⟨data, stats, hbody, heq⟩ := writeResolved_eq_ok h
  obtain ⟨hl, hs⟩ := hb _ _ _ hbody
  subst hk hv
  rw [heq]
  refine ⟨by simp [hl], fun r hr hset v hval => ?_, fun _ v hv => ?_⟩
  · rw [List.getElem?_append_right hr] at hset
    obtain ⟨b, hpb, hb'⟩ := exists_mem_zip_of_mem ((hps _).mp hset) hl
    have hr' := hs _ hpb
    rw [Nat.add_sub_cancel' hr] at hr'
    obtain rfl := Option.some.inj (hval.symm.trans hr')
    exact hcov _ (List.mem_map_of_mem inj hb')
  · obtain ⟨b, hb', rfl⟩ := List.mem_map.mp hv
    obtain ⟨p, hpb⟩ := exists_mem_zip_of_mem_take hb'
    refine ⟨col.valid.length + p, Nat.le_add_right _ _, ?_, hs _ hpb⟩
    rw [List.getElem?_append_right (Nat.le_add_right _ _), Nat.add_sub_cancel_left]
    exact (hps p).mpr (List.of_mem_zip hpb).1

/-- A call that succeeds took an item for each position its loop visited. -/
theorem writeResolved_le_length [LT α] [DecidableRel (α := α) (· < ·)] {items : List α}
    (hf : ArmFolds k items body) (h : (writeResolved n valid_mask wrap body col).1 = .ok ()) :
    k ≤ items.length := by
  obtain ⟨_, _, hb, -⟩ := writeResolved_eq_ok h
  exact ((hf _ _ _ _ hb).2 rfl).1

end Resolved

/-- **What a call that succeeds leaves in the rows it appends.** It folded one value
per validity bit it sets, and each row it sets holds a value its record covers: the
value its loop took for the row. On any column but a boolean one each value it folded
also sits at a row it sets. A boolean call is the exception: `append_unset` keeps the
bits an earlier failed call set, and `false` sets no bit. -/
theorem WriteCall.apply_rows (c : WriteCall) {i n : Nat} {col : Column}
    (hv : col.valid.length = i) (h : (c.apply i n col).1 = .ok ()) :
    AppendsRows i ((validBits c.validMask n).count true) (c.record n) (c.recordValues n)
      (c.influxType ≠ .field .boolean) (c.apply i n col).2.1 := by
  have hps := fun m p => @getElem?_validBits_eq_some_true m n p
  have hk := fun m => length_setPositionIterator m n
  have hnd := fun m => (pairwise_setPositionIterator m n).nodup
  have hcov := c.covers_record n
  have hsto := (c.apply_shape i n col).2.1.trans (c.storage_of_apply_ok h)
  cases c with
  | f64 _ m vs =>
    exact writeResolved_rows (armStores_fixed FixedWidth.f64 .inl (fun _ _ _ => rfl) (hnd m) vs)
      (hps m) (hk m) hv hcov h
  | i64 _ m vs =>
    exact writeResolved_rows (armStores_fixed FixedWidth.i64 (.inr ∘ .inl) (fun _ _ _ => rfl)
      (hnd m) vs) (hps m) (hk m) hv hcov h
  | u64 _ m vs =>
    exact writeResolved_rows (armStores_fixed FixedWidth.u64 (.inr ∘ .inr ∘ .inl)
      (fun _ _ _ => rfl) (hnd m) vs) (hps m) (hk m) hv hcov h
  | bool _ m vs =>
    refine ⟨?_, fun r _ _ => ColumnData.covers_bool_of_storage hsto _, fun hb => absurd rfl hb⟩
    simpa [WriteCall.recordValues] using writeResolved_le_length (armFolds_bool (hk m) vs) h
  | string _ m vs =>
    exact writeResolved_rows (armStores_string (hnd m) vs) (hps m) (hk m) hv hcov h
  | tag _ m vs =>
    exact writeResolved_rows (armStores_tag (hnd m) vs) (hps m) (hk m) hv hcov h
  | tagDict name m keys table =>
    have he := WriteCall.apply_tagDict_of_ok h
    rw [he] at h ⊢
    exact writeResolved_rows (armStores_tag (hnd m) _) (hps m) (hk m) hv hcov h
  | time _ vs =>
    exact writeResolved_rows (armStores_fixed FixedWidth.i64 (.inr ∘ .inl) (fun _ _ _ => rfl)
      (hnd none) vs) (hps none) (hk none) hv hcov h

end BatchWriter
