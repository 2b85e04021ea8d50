import BatchWriter.Order
import BatchWriter.Stable
import BatchWriter.Cover

/-!
# What a position keeps along a run

No step replaces the column at a position by an unrelated one. A write rebuilds the
column it resolved from its first rows, `commit` pads it or merges one record into it,
and a rollback cuts it back. So a relation between a column and a later one that these
three keep, and that chains, holds between the column at a position in a state and the
column there in every later state of the run (`BatchWriter.Step.column_at`,
`BatchWriter.column_at_of_reflTransGen`). Two such relations are spelt out here.

* **The type.** `column_mut` never changes the type of a column: a call of another type
  is refused with `TypeMismatch` before anything is touched
  (`BatchWriter.Writer.write_typeMismatch`). With the name index, which only grows, a
  registered name keeps its position and its type for the rest of the run
  (`BatchWriter.name_type_stable`).
* **The statistics.** A write leaves a column's statistics alone, a rollback gives them
  back, and `commit` only adds counts and merges bounds. So the statistics at a position
  only widen (`BatchWriter.statistics_widen`).
-/

namespace BatchWriter

/-- **A write to a name whose column has another type is refused and changes nothing**:
it returns `TypeMismatch` with the column's type and its own. -/
theorem Writer.write_typeMismatch {w : Writer} {c : WriteCall} {idx : Nat} {col : Column}
    (hname : w.batch.columnNames.lookup c.name = some idx) (hcol : w.batch.columns[idx]? = some col)
    (hty : col.influxType ≠ c.influxType) :
    w.write c = (.error (.err (.typeMismatch col.influxType c.influxType)), w) := by
  have hlen : w.batch.columns.length ≠ idx := (List.getElem?_eq_some_iff.mp hcol).1.ne'
  rw [Writer.write_eq]
  simp only [Writer.writeColumn, Writer.columnMut, hname, Writer.checkColumn, hlen, if_false, hcol,
    ne_eq, hty, not_false_eq_true, if_true]

section Positions

variable {R : Column → Column → Prop}

/-- **What every step leaves at a position**, for a relation `R` between a column and a
later one that holds of what a write call leaves of the column it works on, of what
`commit` leaves of a column, and of a rollback's cut. -/
theorem Step.column_at (hkeeps : ∀ i col col', col.Keeps i col' → R col col')
    (hcommit : ∀ final_rows col col', CommitsTo final_rows col col' → R col col')
    (htrunc : ∀ i col, R col (col.truncate i)) {s t : Sys} (h : Step s t) (hshape : s.ShapeOk)
    {j : Nat} {col : Column} (hj : s.batch.columns[j]? = some col) :
    ∃ col', t.batch.columns[j]? = some col' ∧ R col col' := by
  have hrefl := hcommit 0 col col (.inl rfl)
  cases h with
  | new b n => exact ⟨col, hj, hrefl⟩
  | @write w w' r c hw _ =>
    simp only [Sys.batch_busy] at hj ⊢
    rcases Writer.write_index hshape.1 hw with ⟨rfl, -⟩ | ⟨idx, x, hx, -, -, -, hget, -⟩
    · exact ⟨col, hj, hrefl⟩
    rw [hget]
    by_cases hji : j = idx
    · subst hji
      obtain rfl := Writer.eq_of_write_index hx hj
      exact ⟨_, if_pos rfl, hkeeps _ _ _ c.apply_keeps⟩
    · exact ⟨col, by rw [if_neg hji, hj], hrefl⟩
  | commit hw =>
    obtain ⟨y, hy, hxy⟩ := getElem?_of_forall₂ (Writer.commit_forall₂ hw) hj
    exact ⟨y, hy, hcommit _ _ _ hxy⟩
  | drop w =>
    simp only [Sys.batch_busy, Sys.batch_idle] at hj ⊢
    unfold Writer.drop
    split
    · exact ⟨col, hj, hrefl⟩
    · exact ⟨col.truncate w.initialRows, by simp [hj], htrunc _ _⟩

/-- What every run from a reachable state leaves at a position, for a relation that
every step keeps and that chains. -/
theorem column_at_of_reflTransGen (hkeeps : ∀ i col col', col.Keeps i col' → R col col')
    (hcommit : ∀ final_rows col col', CommitsTo final_rows col col' → R col col')
    (htrunc : ∀ i col, R col (col.truncate i)) (htrans : ∀ a b c, R a b → R b c → R a c)
    {s t : Sys} (hs : Reachable s) (hst : Relation.ReflTransGen Step s t) {j : Nat} {col : Column}
    (hj : s.batch.columns[j]? = some col) :
    ∃ col', t.batch.columns[j]? = some col' ∧ R col col' := by
  induction hst with
  | refl => exact ⟨col, hj, hcommit 0 col col (.inl rfl)⟩
  | tail hst' hstep ih =>
    obtain ⟨x, hx, hxr⟩ := ih
    obtain ⟨y, hy, hyr⟩ :=
      hstep.column_at hkeeps hcommit htrunc (reachable_shapeOk (hs.trans hst')) hx
    exact ⟨y, hy, htrans _ _ _ hxr hyr⟩

end Positions

/-- **A name keeps its position and its type for the rest of the run.** Take any state of
a run from the empty batch, a name of its batch and the column at the name's position.
In every later state of the run the name is at the same position, the column there has
the same semantic type, and a write call of another type to the name, made on a live
writer, returns `TypeMismatch` with the two types and changes nothing. -/
theorem name_type_stable {s t : Sys} (hs : Reachable s) (hst : Relation.ReflTransGen Step s t)
    {name : String} {idx : Nat} {col : Column} (hname : s.batch.columnNames.lookup name = some idx)
    (hcol : s.batch.columns[idx]? = some col) :
    t.batch.columnNames.lookup name = some idx ∧
      ∃ col', t.batch.columns[idx]? = some col' ∧ col'.influxType = col.influxType ∧
        ∀ w c, t = .busy w → c.name = name → c.influxType ≠ col.influxType →
          w.write c = (.error (.err (.typeMismatch col.influxType c.influxType)), w) := by
  obtain ⟨col', hcol', hty⟩ := column_at_of_reflTransGen (R := fun a b => b.influxType = a.influxType)
    (fun _ _ _ hk => hk.1) (fun _ _ _ hc => hc.storage.1) (fun _ _ => rfl)
    (fun _ _ _ h₁ h₂ => h₂.trans h₁) hs hst hcol
  have hlook := lookup_of_prefix (shapeOk_of_reflTransGen hst (reachable_shapeOk hs)).2 hname
  refine ⟨hlook, col', hcol', hty, ?_⟩
  rintro w c rfl rfl hc
  rw [← hty]
  exact Writer.write_typeMismatch hlook hcol' (by rw [hty]; exact Ne.symm hc)

/-- After a committed `write_i64` of `"x"`, a new writer on the batch refuses a
`write_f64` to `"x"`. -/
theorem name_type_stable_after_write_i64 :
    let b := ((Writer.new MutableBatch.new 1).write (.i64 "x" none [7])).2.commit.2.batch
    let col : Column := ⟨.field .integer, [true], .i64 [7] ⟨some 7, some 7, 1, 0, none⟩⟩
    Reachable (.idle b) ∧ Relation.ReflTransGen Step (.idle b) (.busy (Writer.new b 2)) ∧
      b.columnNames.lookup "x" = some 0 ∧ b.columns[0]? = some col ∧
      (Sys.busy (Writer.new b 2)).batch.columnNames.lookup "x" = some 0 ∧
      ∃ col', (Sys.busy (Writer.new b 2)).batch.columns[0]? = some col' ∧
        col'.influxType = col.influxType ∧
        ∀ w c, Sys.busy (Writer.new b 2) = .busy w → c.name = "x" →
          c.influxType ≠ col.influxType →
          w.write c = (.error (.err (.typeMismatch col.influxType c.influxType)), w) :=
  have hb : Reachable (.idle ((Writer.new MutableBatch.new 1).write
      (.i64 "x" none [7])).2.commit.2.batch) :=
    .tail (.tail (.single (.new _ 1)) (.write (.i64 "x" none [7]) (Prod.ext rfl rfl) (by rfl)))
      (.commit (Prod.ext rfl rfl))
  have hst : Relation.ReflTransGen Step (.idle ((Writer.new MutableBatch.new 1).write
      (.i64 "x" none [7])).2.commit.2.batch) (.busy (Writer.new ((Writer.new MutableBatch.new 1).write
      (.i64 "x" none [7])).2.commit.2.batch 2)) := .single (.new _ 2)
  ⟨hb, hst, by decide, rfl, name_type_stable hb hst (by decide) rfl⟩

/-! ### The statistics widen -/

/-- The statistics `s'` are `s` or wider: they count no fewer rows and no fewer nulls,
have a least and a greatest value when `s` has, and cover every value `s` covers. -/
structure Statistics.Widens (s s' : Statistics) : Prop where
  totalCount : s.totalCount ≤ s'.totalCount
  nullCount : s.nullCount ≤ s'.nullCount
  min : s.min?.isSome → s'.min?.isSome
  max : s.max?.isSome → s'.max?.isSome
  covers : ∀ v, s.Covers v → s'.Covers v

namespace Statistics.Widens

variable {s s' s'' : Statistics}

theorem refl (s : Statistics) : s.Widens s :=
  ⟨le_rfl, le_rfl, id, id, fun _ => id⟩

theorem trans (h₁ : s.Widens s') (h₂ : s'.Widens s'') : s.Widens s'' :=
  ⟨h₁.1.trans h₂.1, h₁.2.trans h₂.2, h₂.min ∘ h₁.min, h₂.max ∘ h₁.max,
    fun v h => h₂.covers v (h₁.covers v h)⟩

end Statistics.Widens

/-- **What `commit` leaves of a column has statistics at least as wide**: padding adds
null rows to the counts, and a merge adds the record's counts and keeps the column's
bounds. -/
theorem CommitsTo.widens {final_rows : Nat} {col col' : Column} (h : CommitsTo final_rows col col') :
    col.data.statistics.Widens col'.data.statistics := by
  rcases h with rfl | rfl | ⟨rec, hm⟩
  · exact .refl _
  · exact ⟨by simp, by simp, by simp, by simp, fun v hv => by
      simpa [ColumnData.covers_statistics_pushNulls] using hv⟩
  · obtain ⟨ht, hn⟩ := Column.counts_mergeStatistics hm
    obtain ⟨-, hmin, hmax⟩ := Column.extremes_mergeStatistics hm
    exact ⟨by omega, by omega, fun h => hmin.mpr (.inl h), fun h => hmax.mpr (.inl h),
      fun v hv => Column.covers_mergeStatistics hm (.inl hv)⟩

/-- **The statistics at a position only widen.** Take any state of a run from the empty
batch and the column at some position. In every later state of the run, the statistics
of the column at that position count no fewer rows and no fewer nulls, have a least and
a greatest value if they had them, and cover every value they covered: an integer,
unsigned or string least value never rises, and the greatest never falls. -/
theorem statistics_widen {s t : Sys} (hs : Reachable s) (hst : Relation.ReflTransGen Step s t)
    {j : Nat} {col : Column} (hj : s.batch.columns[j]? = some col) :
    ∃ col', t.batch.columns[j]? = some col' ∧ col.data.statistics.Widens col'.data.statistics :=
  column_at_of_reflTransGen (fun _ _ _ hk => by rw [hk.2.2.statistics]; exact .refl _)
    (fun _ _ _ hc => hc.widens) (fun _ _ => by simp [Statistics.Widens.refl])
    (fun _ _ _ h₁ h₂ => h₁.trans h₂) hs hst hj

/-- A committed `write_i64` of `7`, then a second transaction that writes `9` and `3`
to the same column and commits. -/
theorem statistics_widen_after_two_commits :
    let b := ((Writer.new MutableBatch.new 1).write (.i64 "x" none [7])).2.commit.2.batch
    let b' := ((Writer.new b 2).write (.i64 "x" none [9, 3])).2.commit.2.batch
    let col : Column := ⟨.field .integer, [true], .i64 [7] ⟨some 7, some 7, 1, 0, none⟩⟩
    Reachable (.idle b) ∧ Relation.ReflTransGen Step (.idle b) (.idle b') ∧
      (Sys.idle b).batch.columns[0]? = some col ∧
      ∃ col', (Sys.idle b').batch.columns[0]? = some col' ∧
        col.data.statistics.Widens col'.data.statistics :=
  have hb : Reachable (.idle ((Writer.new MutableBatch.new 1).write
      (.i64 "x" none [7])).2.commit.2.batch) :=
    .tail (.tail (.single (.new _ 1)) (.write (.i64 "x" none [7]) (Prod.ext rfl rfl) (by rfl)))
      (.commit (Prod.ext rfl rfl))
  have hst : Relation.ReflTransGen Step (.idle ((Writer.new MutableBatch.new 1).write
      (.i64 "x" none [7])).2.commit.2.batch) (.idle ((Writer.new ((Writer.new MutableBatch.new 1).write
      (.i64 "x" none [7])).2.commit.2.batch 2).write (.i64 "x" none [9, 3])).2.commit.2.batch) :=
    .tail (.tail (.single (.new _ 2)) (.write (.i64 "x" none [9, 3]) (Prod.ext rfl rfl) (by rfl)))
      (.commit (Prod.ext rfl rfl))
  ⟨hb, hst, rfl, statistics_widen hb hst rfl⟩

end BatchWriter
