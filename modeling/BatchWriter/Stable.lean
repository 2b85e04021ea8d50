import BatchWriter.Fill

/-!
# Committed rows are stable

Take a state between transactions, `BatchWriter.Sys.idle b`, on any run from the empty
batch: after a commit, or after a drop. Whatever the run does next, every column `b`
had is still at its position, and each of its first `row_count` rows keeps its
validity bit and, when the bit is set, its value: the same number, bit or string, and
for a tag column a code that decodes to the same string of the dictionary
(`BatchWriter.committed_rows_stable`).

Three things move rows, and none moves these. A write works from `initial_rows` on
(`BatchWriter.Column.Keeps`, the relation the rollback proof rests on), and a writer
is only ever opened with `initial_rows = row_count`. `commit` pads a column with null
rows or merges statistics into it. A rollback cuts rows back to `initial_rows`, never
below `row_count`, and cuts a tag dictionary only past the greatest code the kept rows
hold (`BatchWriter.ColumnData.value?_truncate`). The run invariant
(`BatchWriter.Sys.Holds`) says this once for every state after `b`; that a set row of
`b` has a value to keep at all is `BatchWriter.reachable_filled`.
-/

namespace BatchWriter

theorem getElem?_of_forall₂ {α β : Type} {R : α → β → Prop} {l : List α} {l' : List β}
    (h : List.Forall₂ R l l') {j : Nat} {a : α} (ha : l[j]? = some a) :
    ∃ b, l'[j]? = some b ∧ R a b := by
  induction h generalizing j with
  | nil => simp at ha
  | cons hr _ ih =>
    cases j with
    | zero =>
      rw [List.getElem?_cons_zero, Option.some.injEq] at ha
      exact ⟨_, List.getElem?_cons_zero, ha ▸ hr⟩
    | succ j =>
      rw [List.getElem?_cons_succ] at ha ⊢
      exact ih ha

namespace Column

/-- The column `c` still holds what `c₀` held in its first `R` rows: every validity
bit, and every value. -/
def Stable (R : Nat) (c₀ c : Column) : Prop :=
  ∀ r : Nat, r < R → (∀ bit, c₀.valid[r]? = some bit → c.valid[r]? = some bit) ∧
    ∀ v, c₀.data.value? r = some v → c.data.value? r = some v

variable {R : Nat} {c₀ c c' : Column}

theorem Stable.refl (R : Nat) (c : Column) : c.Stable R c := fun _ _ => ⟨fun _ => id, fun _ => id⟩

/-- A change that keeps the first `i ≥ R` rows keeps the first `R`. -/
theorem Stable.keeps {i : Nat} (h : c₀.Stable R c) (hk : c.Keeps i c') (hR : R ≤ i) :
    c₀.Stable R c' := fun r hr =>
  ⟨fun bit hb => prefix_getElem?_eq_some hk.2.1
      (by rw [List.getElem?_take, if_pos (by omega), (h r hr).1 bit hb]),
    fun v hv => hk.2.2.value? (by omega) ((h r hr).2 v hv)⟩

theorem Stable.commitsTo {final_rows : Nat} (h : c₀.Stable R c) (hc : CommitsTo final_rows c c') :
    c₀.Stable R c' := by
  rcases hc with rfl | rfl | ⟨rec, hm⟩
  · exact h
  · exact fun r hr =>
      ⟨fun bit hb => prefix_getElem?_eq_some (List.prefix_append _ _) ((h r hr).1 bit hb),
        fun v hv => ColumnData.value?_pushNulls _ ((h r hr).2 v hv)⟩
  · obtain ⟨-, hvalid, -⟩ := mergeStatistics_shape hm
    exact fun r hr => ⟨fun bit hb => hvalid ▸ (h r hr).1 bit hb,
      fun v hv => (value?_mergeStatistics hm r).trans ((h r hr).2 v hv)⟩

/-- Cutting back to `n ≥ R` rows keeps the first `R`. -/
theorem Stable.truncate {n : Nat} (h : c₀.Stable R c) (hR : R ≤ n) : c₀.Stable R (c.truncate n) :=
  fun r hr =>
    ⟨fun bit hb => by
        rw [valid_truncate, List.getElem?_take, if_pos (by omega)]
        exact (h r hr).1 bit hb,
      fun v hv => by
        rw [data_truncate, ColumnData.value?_truncate _ (by omega)]
        exact (h r hr).2 v hv⟩

end Column

/-! ### Runs from a state between transactions -/

/-- The state `t` still holds what the batch `b` held in its first `row_count` rows:
it has at least as many rows, and at the position of every column of `b` a column
that keeps its first `row_count` rows. -/
def Sys.Holds (b : MutableBatch) (t : Sys) : Prop :=
  b.rowCount ≤ t.batch.rowCount ∧ ∀ (j : Nat) (c₀ : Column), b.columns[j]? = some c₀ →
    ∃ c, t.batch.columns[j]? = some c ∧ c₀.Stable b.rowCount c

variable {b : MutableBatch}

/-- **Every step keeps what a state holds of `b`**, on a state of the right shape and
rows. -/
theorem Step.holds {t t' : Sys} (h : Step t t') (hshape : t.ShapeOk) (hrows : t.RowsOk)
    (ht : t.Holds b) : t'.Holds b := by
  obtain ⟨hR, hcols⟩ := ht
  cases h with
  | new b' n => exact ⟨hR, hcols⟩
  | @write w w' r c hw _ =>
    simp only [Sys.Holds, Sys.batch_busy] at hR hcols ⊢
    obtain ⟨-, -, -, hrow, -, -⟩ := Writer.write_frame hshape.1 hw
    refine ⟨hR.trans_eq hrow.symm, fun j c₀ hj => ?_⟩
    obtain ⟨x, hx, hst⟩ := hcols j c₀ hj
    rcases Writer.write_index hshape.1 hw with ⟨rfl, -⟩ | ⟨idx, col, hcol, -, -, -, hget, -⟩
    · exact ⟨x, hx, hst⟩
    rw [hget]
    by_cases hji : j = idx
    · subst hji
      obtain rfl := Writer.eq_of_write_index hcol hx
      exact ⟨_, if_pos rfl, hst.keeps c.apply_keeps (hR.trans hrows.rows.ge)⟩
    · exact ⟨x, by rw [if_neg hji, hx], hst⟩
  | @commit w w' hw =>
    simp only [Sys.Holds, Sys.batch_busy, Sys.batch_idle] at hR hcols ⊢
    obtain ⟨-, -, hrow⟩ := Writer.commit_eq_ok hw
    have hwalk := Writer.commit_forall₂ hw
    refine ⟨by rw [hrow, hrows.rows]; omega, fun j c₀ hj => ?_⟩
    obtain ⟨x, hx, hst⟩ := hcols j c₀ hj
    obtain ⟨y, hy, hxy⟩ := getElem?_of_forall₂ hwalk hx
    exact ⟨y, hy, hst.commitsTo hxy⟩
  | drop w =>
    simp only [Sys.Holds, Sys.batch_busy, Sys.batch_idle, Writer.drop_rowCount] at hR hcols ⊢
    refine ⟨hR, fun j c₀ hj => ?_⟩
    obtain ⟨x, hx, hst⟩ := hcols j c₀ hj
    unfold Writer.drop
    split
    · exact ⟨x, hx, hst⟩
    · exact ⟨x.truncate w.initialRows, by simp [hx], hst.truncate (hR.trans hrows.rows.ge)⟩

/-- Every run from a reachable state between transactions keeps what it holds. -/
theorem holds_of_reflTransGen (hb : Reachable (.idle b)) {s : Sys}
    (hs : Relation.ReflTransGen Step (.idle b) s) : s.Holds b := by
  induction hs with
  | refl => exact ⟨le_rfl, fun j c₀ h => ⟨c₀, h, .refl _ c₀⟩⟩
  | tail hbt hstep ih =>
    have ht := hb.trans hbt
    exact hstep.holds (reachable_shapeOk ht) (reachable_rowsOk ht) ih

/-- **Committed rows are stable.** In a state between the transactions of a run from
the empty batch, take the column at any position and any row `r < row_count`. In
every later state of the run, the column at that position has the same validity bit
at `r`; when the bit is set, the row held a value, and it holds the same value, which
for a tag column means that its code still decodes to the same string. Every
dictionary's entries are pairwise distinct. -/
theorem committed_rows_stable {b : MutableBatch} {s : Sys} (hb : Reachable (.idle b))
    (hs : Relation.ReflTransGen Step (.idle b) s) (j : Nat) (col : Column)
    (hj : b.columns[j]? = some col) :
    ∃ col', s.batch.columns[j]? = some col' ∧
      (∀ r : Nat, r < b.rowCount → col'.valid[r]? = col.valid[r]? ∧
        (col.valid[r]? = some true →
          ∃ v, col.data.value? r = some v ∧ col'.data.value? r = some v)) ∧
      ∀ codes dict stats, col'.data = .tag codes dict stats → dict.values.Nodup := by
  obtain ⟨col', hj', hst⟩ := (holds_of_reflTransGen hb hs).2 j col hj
  have hlen : col.valid.length = b.rowCount := reachable_rowsOk hb col (List.getElem?_mem hj)
  refine ⟨col', hj', fun r hr => ⟨?_, fun hset => ?_⟩, fun _ dict _ _ => dict.nodup⟩
  · obtain ⟨bit, hbit⟩ := Option.isSome_iff_exists.mp (isSome_getElem?_iff.mpr (hlen ▸ hr))
    rw [hbit, (hst r hr).1 bit hbit]
  · obtain ⟨v, hv⟩ := Option.isSome_iff_exists.mp
      ((reachable_filled hb col (List.getElem?_mem hj)).values r hset)
    exact ⟨v, hv, (hst r hr).2 v hv⟩

/-- A committed `write_tag` of `"a"`, then a transaction that writes `"b"` to the same
column and is dropped: row `0` keeps its bit and its string. -/
theorem committed_rows_stable_after_rollback :
    let b := ((Writer.new MutableBatch.new 1).write (.tag "t" none ["a"])).2.commit.2.batch
    let s : Sys := .idle ((Writer.new b 1).write (.tag "t" none ["b"])).2.drop
    Reachable (.idle b) ∧ Relation.ReflTransGen Step (.idle b) s ∧
      ∃ col, b.columns[0]? = some col ∧ ∃ col', s.batch.columns[0]? = some col' ∧
        (∀ r : Nat, r < b.rowCount → col'.valid[r]? = col.valid[r]? ∧
          (col.valid[r]? = some true →
            ∃ v, col.data.value? r = some v ∧ col'.data.value? r = some v)) ∧
        ∀ codes dict stats, col'.data = .tag codes dict stats → dict.values.Nodup :=
  have hb : Reachable (.idle ((Writer.new MutableBatch.new 1).write
      (.tag "t" none ["a"])).2.commit.2.batch) :=
    .tail (.tail (.single (.new _ 1)) (.write (.tag "t" none ["a"]) (Prod.ext rfl rfl) (by rfl)))
      (.commit (Prod.ext rfl rfl))
  have hs : Relation.ReflTransGen Step (.idle ((Writer.new MutableBatch.new 1).write
      (.tag "t" none ["a"])).2.commit.2.batch)
      (.idle ((Writer.new ((Writer.new MutableBatch.new 1).write
        (.tag "t" none ["a"])).2.commit.2.batch 1).write (.tag "t" none ["b"])).2.drop) :=
    .tail (.tail (.single (.new _ 1)) (.write (.tag "t" none ["b"]) (Prod.ext rfl rfl) (by rfl)))
      (.drop _)
  ⟨hb, hs, _, rfl, committed_rows_stable hb hs 0 _ rfl⟩

end BatchWriter
