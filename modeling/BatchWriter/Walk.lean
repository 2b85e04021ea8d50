import BatchWriter.Shape

/-!
# The walk of `commit`

`commit` visits the columns in position order and consumes the pending records,
sorted by position, as it goes (`BatchWriter.commitColumns`). Three facts about that
walk serve every later result.

* Wherever it stops, it has left each column as it found it, padded with nulls, or
  with one record merged (`BatchWriter.commitColumns_forall₂`): what a column keeps
  under those three changes, `commit` keeps.
* It never reaches the `unreachable!` arm of the merge while every record fits the
  column at its position (`BatchWriter.commitColumns_ne_unreachable`).
* When every column has either `initial_rows` bits and no record, or `final_rows`
  bits and one record that fits it, the walk completes, and it does to each column
  what `BatchWriter.commitColumn` says: the record of its position merged, or nulls
  when there is none (`BatchWriter.commitColumns_eq_ok`).
-/

namespace BatchWriter

/-! ### What the walk may do to a column -/

/-- What `commit` may leave of a column: the column as it was, the column padded with
nulls to `final_rows`, or the column with one record merged. -/
def CommitsTo (final_rows : Nat) (col col' : Column) : Prop :=
  col' = col ∨ col' = col.pushNullsToLen final_rows ∨ ∃ rec, col.mergeStatistics rec = some col'

theorem CommitsTo.storage {final_rows : Nat} {col col' : Column}
    (h : CommitsTo final_rows col col') :
    col'.influxType = col.influxType ∧ col'.data.storage = col.data.storage := by
  rcases h with rfl | rfl | ⟨rec, hm⟩
  · exact ⟨rfl, rfl⟩
  · simp
  · exact ⟨(Column.mergeStatistics_shape hm).1, (Column.mergeStatistics_shape hm).2.2.1⟩

/-- What holds of every column before a one-to-one change that carries it over holds
of every column after. -/
theorem forall_mem_of_forall₂ {R : Column → Column → Prop} {P Q : Column → Prop}
    {cols cols' : List Column} (h : List.Forall₂ R cols cols')
    (hPQ : ∀ {col col'}, R col col' → P col → Q col') (hP : ∀ col ∈ cols, P col) :
    ∀ col ∈ cols', Q col := by
  induction h with
  | nil => simp
  | cons hr _ ih =>
    simp only [List.mem_cons, forall_eq_or_imp] at hP ⊢
    exact ⟨hPQ hr hP.1, ih hP.2⟩

section Walk

variable {initial_rows final_rows : Nat}

/-- **Each column the walk leaves is one it may leave**, wherever the walk stops. -/
theorem commitColumns_forall₂ (i : Nat) (cols : List Column) (recs : List (Nat × Statistics)) :
    List.Forall₂ (CommitsTo final_rows) cols
      (commitColumns initial_rows final_rows i cols recs).2 := by
  have hrefl : ∀ cols : List Column, List.Forall₂ (CommitsTo final_rows) cols cols :=
    fun cols => List.forall₂_same.mpr fun _ _ => .inl rfl
  induction i, cols, recs using commitColumns.induct initial_rows final_rows with
  | case1 => exact .nil
  | case2 _ col _ _ h _ _ hrec ih =>
    rw [hrec] at ih
    simpa [commitColumns, h, hrec] using List.Forall₂.cons (.inr (.inl rfl)) ih
  | case3 _ _ _ _ h h' =>
    simp only [commitColumns, h, h', ne_eq, if_false, if_true, not_false_eq_true]
    exact hrefl _
  | case4 _ _ _ h h' =>
    simp only [commitColumns, h, h', if_false]
    exact hrefl _
  | case5 _ _ _ h h' _ _ _ hi =>
    simp only [commitColumns, h, h', hi, ne_eq, if_false, if_true, not_false_eq_true]
    exact hrefl _
  | case6 _ _ _ h h' _ _ _ hi hm =>
    simp only [commitColumns, h, h', hi, hm, if_false]
    exact hrefl _
  | case7 _ col _ h h' _ stats _ hi col' hm _ _ hrec ih =>
    rw [hrec] at ih
    simpa [commitColumns, h, h', hi, hm, hrec] using
      List.Forall₂.cons (.inr (.inr ⟨stats, hm⟩)) ih

/-- **The merge of `commit` never reaches `unreachable!`** while every record at or
past the walk's position fits the column it is for. -/
theorem commitColumns_ne_unreachable {i : Nat} {cols : List Column}
    {recs : List (Nat × Statistics)}
    (hfit : ∀ p ∈ recs, i ≤ p.1 → ∃ col, cols[p.1 - i]? = some col ∧ p.2.Fits col.data.storage) :
    (commitColumns initial_rows final_rows i cols recs).1 ≠ .error (.panic .unreachable) := by
  induction i, cols, recs using commitColumns.induct initial_rows final_rows with
  | case1 => simp [commitColumns]
  | case2 i col cols _ h _ _ hrec ih =>
    rw [hrec] at ih
    simp only [commitColumns, h, if_true, hrec]
    refine ih fun p hp hip => ?_
    obtain ⟨x, hx, hf⟩ := hfit p hp (by omega)
    rw [show p.1 - i = p.1 - (i + 1) + 1 by omega] at hx
    exact ⟨x, by simpa using hx, hf⟩
  | case3 _ _ _ _ h h' => simp [commitColumns, h, h']
  | case4 _ _ _ h h' => simp [commitColumns, h, h']
  | case5 _ _ _ h h' _ _ _ hi => simp [commitColumns, h, h', hi]
  | case6 i col _ h h' j stats _ hi hm =>
    obtain ⟨x, hx, hf⟩ := hfit (j, stats) (List.mem_cons_self _ _) (by simp_all)
    simp only [not_not.mp hi, Nat.sub_self, List.getElem?_cons_zero, Option.some.injEq] at hx
    subst hx
    simpa [hm] using (col.mergeStatistics_isSome_iff stats).mpr hf
  | case7 i _ cols h h' _ _ recs hi _ hm _ _ hrec ih =>
    rw [hrec] at ih
    simp only [commitColumns, h, h', hi, hm, hrec, if_false, not_false_eq_true]
    refine ih fun p hp hip => ?_
    obtain ⟨x, hx, hf⟩ := hfit p (List.mem_cons_of_mem _ hp) (by omega)
    rw [show p.1 - i = p.1 - (i + 1) + 1 by omega] at hx
    exact ⟨x, by simpa using hx, hf⟩

/-- A walk that completes leaves every column with `final_rows` validity bits. -/
theorem commitColumns_ok_valid {i : Nat} {cols cols' : List Column}
    {recs : List (Nat × Statistics)} (hle : initial_rows ≤ final_rows)
    (h : commitColumns initial_rows final_rows i cols recs = (.ok (), cols')) :
    ∀ col ∈ cols', col.valid.length = final_rows := by
  induction i, cols, recs using commitColumns.induct initial_rows final_rows generalizing cols' with
  | case1 => simp_all [commitColumns]
  | case2 _ col _ _ hl _ _ hrec ih =>
    simp only [commitColumns, hl, if_true, hrec, Prod.mk.injEq] at h
    obtain ⟨rfl, rfl⟩ := h
    simpa [hl, hle] using ih hrec
  | case3 _ _ _ _ hl hl' => simp [commitColumns, hl, hl'] at h
  | case4 _ _ _ hl hl' => simp [commitColumns, hl, hl'] at h
  | case5 _ _ _ hl hl' _ _ _ hi => simp [commitColumns, hl, hl', hi] at h
  | case6 _ _ _ hl hl' _ _ _ hi hm => simp [commitColumns, hl, hl', hi, hm] at h
  | case7 _ _ _ hl hl' _ _ _ hi _ hm _ _ hrec ih =>
    simp only [commitColumns, hl, hl', hi, hm, hrec, if_false, not_false_eq_true,
      Prod.mk.injEq] at h
    obtain ⟨rfl, rfl⟩ := h
    simpa [(Column.mergeStatistics_shape hm).2.1, not_not.mp hl'] using ih hrec

end Walk

/-! ### A walk that completes -/

/-- What `commit` makes of the column at position `col_idx`: the pending record of that
position merged in, or nulls up to `final_rows` when it has none. -/
def commitColumn (final_rows : Nat) (statistics : List (Nat × Statistics)) (col_idx : Nat)
    (col : Column) : Option Column :=
  match statistics.lookup col_idx with
  | some stats => col.mergeStatistics stats
  | none => some (col.pushNullsToLen final_rows)

/-- The columns from position `i` on are ready for the walk: each has either
`initial_rows` validity bits and no record, or `final_rows` bits and a record that
fits it. -/
def WalkReady (initial_rows final_rows i : Nat) (cols : List Column)
    (recs : List (Nat × Statistics)) : Prop :=
  ∀ k col, cols[k]? = some col →
    (col.valid.length = initial_rows ∧ recs.lookup (i + k) = none) ∨
    (col.valid.length = final_rows ∧
      ∃ rec, recs.lookup (i + k) = some rec ∧ rec.Fits col.data.storage)

section Complete

variable {initial_rows final_rows : Nat}

theorem WalkReady.tail {i : Nat} {col : Column} {cols : List Column}
    {recs recs' : List (Nat × Statistics)}
    (h : WalkReady initial_rows final_rows i (col :: cols) recs)
    (hl : ∀ k, recs.lookup (i + 1 + k) = recs'.lookup (i + 1 + k)) :
    WalkReady initial_rows final_rows (i + 1) cols recs' := by
  intro k x hx
  have := h (k + 1) x (by simpa using hx)
  rwa [show i + (k + 1) = i + 1 + k by omega, hl] at this

theorem lookup_cons_of_ne {recs : List (Nat × Statistics)} {j i : Nat} {s : Statistics}
    (h : j ≠ i) : ((j, s) :: recs).lookup i = recs.lookup i := by
  simp [List.lookup_cons, beq_eq_false_iff_ne.mpr (Ne.symm h)]

/-- **A ready walk completes**, and leaves at each position what
`BatchWriter.commitColumn` makes of the column there, when the records are sorted
by position and none is for a position the walk has passed. -/
theorem commitColumns_eq_ok {i : Nat} {cols : List Column} {recs : List (Nat × Statistics)}
    (hne : initial_rows ≠ final_rows) (hsort : recs.Pairwise (fun a b => a.1 < b.1))
    (hge : ∀ p ∈ recs, i ≤ p.1) (hready : WalkReady initial_rows final_rows i cols recs) :
    ∃ cols', commitColumns initial_rows final_rows i cols recs = (.ok (), cols') ∧
      cols'.length = cols.length ∧
      ∀ k col, cols[k]? = some col → commitColumn final_rows recs (i + k) col = cols'[k]? := by
  induction i, cols, recs using commitColumns.induct initial_rows final_rows with
  | case1 => exact ⟨[], rfl, rfl, by simp⟩
  | case2 i col cols recs hl r rest hrec ih =>
    have hnone : recs.lookup i = none := by
      rcases hready 0 col List.getElem?_cons_zero with ⟨-, h⟩ | ⟨h, -⟩
      · exact h
      · exact absurd (hl.symm.trans h) hne
    have hge' : ∀ p ∈ recs, i + 1 ≤ p.1 := fun p hp => by
      have : p.1 ≠ i := fun h => by
        rw [lookup_eq_none_iff_not_mem] at hnone
        exact hnone (h ▸ List.mem_map_of_mem _ hp)
      have := hge p hp
      omega
    obtain ⟨cols', hc, hlen, hk⟩ := ih hsort hge' (hready.tail fun _ => rfl)
    rw [hrec] at hc
    obtain ⟨rfl, rfl⟩ := Prod.mk.inj hc
    refine ⟨col.pushNullsToLen final_rows :: rest, by simp only [commitColumns, hl, if_true, hrec],
      by simp [hlen], ?_⟩
    rintro (_ | k) x hx
    · obtain rfl : col = x := by simpa using hx
      simp [commitColumn, hnone]
    · simpa [show i + (k + 1) = i + 1 + k by omega] using hk k x (by simpa using hx)
  | case3 _ col _ _ hl hl' =>
    rcases hready 0 col List.getElem?_cons_zero with ⟨h, -⟩ | ⟨h, -⟩
    · exact absurd h hl
    · exact absurd h hl'
  | case4 i col _ hl _ =>
    rcases hready 0 col List.getElem?_cons_zero with ⟨h, -⟩ | ⟨-, rec, h, -⟩
    · exact absurd h hl
    · simp at h
  | case5 i col _ hl _ j _ recs hi =>
    rcases hready 0 col List.getElem?_cons_zero with ⟨h, -⟩ | ⟨-, rec, h, -⟩
    · exact absurd h hl
    · rw [Nat.add_zero, lookup_cons_of_ne hi] at h
      have hlt := List.rel_of_pairwise_cons hsort (mem_of_lookup_eq_some h)
      have := hge _ (List.mem_cons_self _ _)
      simp only at hlt this
      omega
  | case6 i col _ hl _ j stats _ hi hm =>
    rcases hready 0 col List.getElem?_cons_zero with ⟨h, -⟩ | ⟨-, rec, h, hfit⟩
    · exact absurd h hl
    · obtain rfl := not_not.mp hi
      simp only [Nat.add_zero, List.lookup_cons_self, Option.some.injEq] at h
      subst h
      simpa [hm] using (col.mergeStatistics_isSome_iff _).mpr hfit
  | case7 i col cols hl hl' j stats recs hi col' hm r rest hrec ih =>
    obtain rfl := not_not.mp hi
    have hgt : ∀ p ∈ recs, j + 1 ≤ p.1 := fun p hp => List.rel_of_pairwise_cons hsort hp
    have hskip : ∀ k, ((j, stats) :: recs).lookup (j + 1 + k) = recs.lookup (j + 1 + k) :=
      fun k => lookup_cons_of_ne (by omega)
    obtain ⟨cols', hc, hlen, hk⟩ := ih (List.pairwise_cons.mp hsort).2 hgt (hready.tail hskip)
    rw [hrec] at hc
    obtain ⟨rfl, rfl⟩ := Prod.mk.inj hc
    refine ⟨col' :: rest, by simp only [commitColumns, hl, hl', ne_eq, not_true_eq_false, if_false,
      not_false_eq_true, hm, hrec], by simp [hlen], ?_⟩
    rintro (_ | k) x hx
    · obtain rfl : col = x := by simpa using hx
      simp [commitColumn, hm]
    · rw [show j + (k + 1) = j + 1 + k by omega, commitColumn, hskip]
      simpa using hk k x (by simpa using hx)

end Complete

end BatchWriter
