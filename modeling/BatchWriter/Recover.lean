import BatchWriter.Order
import BatchWriter.Cover

/-!
# A failed call leaves no trace but its name

A typed write that returns an error is, to the caller, a call that did not happen: the
method says `Err`, and the transaction goes on. What the code does is less clean. A
`TypeMismatch` is returned before anything is touched, but `InsufficientValues` and
`KeyNotFound` come from inside the loop, after `column_mut` registered the name and
after the loop stored some values and, for a tag, interned some strings. Only the
validity bits and the pending record wait for the end of the call.

So the failed call does leave a trace: its name, and values at rows whose validity bit
stays unset. This file shows that a reader of the committed batch sees nothing else, as
long as the transaction does not write the failed name again
(`BatchWriter.failed_call_invisible`). Every other name gets the same column as had the
call never been made, and the failed name a column with the same type, validity bits,
statistics and set values (`BatchWriter.Column.Agrees`), or nulls only when the name was
new. The strings a failed `write_tag` interned stay in the dictionary, past every code a
row uses; they show later, in the `distinct_count` a later commit computes from the
dictionary's size.

Writing the failed name again is where the trace shows: a `write_bool` retry keeps the
stale `true` bits, and a `write_string` retry panics (`BatchWriter.Rows`,
`BatchWriter.Strings`).

| fact | theorem |
|---|---|
| a call changes no other name's entry | `BatchWriter.Writer.entry_write_of_ne` |
| what a failed call leaves under its own name | `BatchWriter.Writer.write_of_error` |
| padding keeps two agreeing columns agreeing | `BatchWriter.Column.agrees_pushNullsToLen` |
-/

namespace BatchWriter

/-! ### What a reader sees of a column -/

/-- The column `col'` shows a reader of the batch what `col` shows: the same type,
validity bits and statistics, and the same value at every set row. The stores may
differ at null rows, and a tag column's dictionary past the codes its rows use. -/
structure Column.Agrees (col col' : Column) : Prop where
  influxType : col'.influxType = col.influxType
  valid : col'.valid = col.valid
  values : ∀ r, col.valid[r]? = some true → col'.data.value? r = col.data.value? r
  statistics : col'.data.statistics = col.data.statistics

theorem Column.Agrees.refl (col : Column) : col.Agrees col :=
  ⟨rfl, rfl, fun _ _ => rfl, rfl⟩

/-- Padding two stores one of which keeps the first rows of the other pads their
statistics alike. -/
theorem ColumnData.Keeps.statistics_pushNulls {i : Nat} {d d' : ColumnData} (h : d.Keeps i d')
    (k : Nat) : (d'.pushNulls k).statistics = (d.pushNulls k).statistics := by
  cases d <;> cases d' <;> simp only [Keeps] at h <;>
    first | exact absurd h id | simp [pushNulls, ColumnData.statistics, h]

/-- **Padding keeps the rows a column kept.** A column that keeps the first `i` rows of
a column of `i` rows and its validity bits, padded with nulls, agrees with it padded
alike. -/
theorem Column.agrees_pushNullsToLen {i : Nat} {col col' : Column} (hk : col.Keeps i col')
    (hv : col'.valid = col.valid) (hl : col.valid.length = i) (hf : col.Filled) (len : Nat) :
    (col.pushNullsToLen len).Agrees (col'.pushNullsToLen len) where
  influxType := by simp [hk.1]
  valid := by simp [hv]
  values r hset := by
    rw [valid_pushNullsToLen] at hset
    have hset' := getElem?_of_append_replicate_false hset
    have hr : r < i := hl ▸ (List.getElem?_eq_some_iff.mp hset').1
    obtain ⟨v, hv₀⟩ := Option.isSome_iff_exists.mp (hf.values r hset')
    rw [data_pushNullsToLen, data_pushNullsToLen, ColumnData.value?_pushNulls _ hv₀,
      ColumnData.value?_pushNulls _ (hk.2.2.value? hr hv₀)]
  statistics := by
    rw [data_pushNullsToLen, data_pushNullsToLen, hv]
    exact hk.2.2.statistics_pushNulls _

namespace Writer

variable {w w₁ : Writer} {c : WriteCall} {r : Except Exit Unit}

/-! ### One call -/

/-- **A call changes the entry of no other name**, whatever it returns: it stores only
at the position of its own name, registered before or by the call, and queues a record
only for that position. -/
theorem entry_write_of_ne (hn : w.batch.NamesOk) (hw : w.write c = (r, w₁)) {name : String}
    (hne : c.name ≠ name) : w₁.entry name = w.entry name := by
  rw [write_eq] at hw
  rcases writeColumn_cases hn hw with
    ⟨rfl, -⟩ | ⟨idx, col, w₂, -, hl, hw₂, -, -, -, rfl⟩
  · rfl
  have hnames : w₂.batch.columnNames.lookup name = w.batch.columnNames.lookup name := by
    rcases hw₂ with rfl | ⟨-, -, -, rfl⟩
    · rfl
    · simp [List.lookup_append, List.lookup_cons, beq_false_of_ne (Ne.symm hne)]
  rw [entry, entry, setColumn_columnNames, hnames]
  cases hj : w.batch.columnNames.lookup name with
  | none => rfl
  | some j =>
    have hji : j ≠ idx := by
      rintro rfl
      rcases hw₂ with rfl | ⟨hl₀, rfl, -⟩
      · exact hne (hn.name_inj hl hj)
      · exact absurd (hn.lookup_lt hj) (lt_irrefl _)
    have hcols : w₂.batch.columns[j]? = w.batch.columns[j]? := by
      rcases hw₂ with rfl | ⟨-, -, -, rfl⟩
      · rfl
      · simp [List.getElem?_append_left (hn.lookup_lt hj)]
    simp only [Option.some_bind, setColumn_columns, List.getElem?_set_ne (Ne.symm hji), hcols,
      List.lookup_append]
    cases (c.apply w.initialRows w.toInsert col).2.2 <;>
      simp [List.lookup_cons, beq_false_of_ne hji]

/-- **What a call that fails with an error leaves under its own name.** It returned
`TypeMismatch` and changed nothing; or it ran on the column its name resolves, which
had `initial_rows` rows and no record, and left there, with no record, a column that
keeps that column's first `initial_rows` rows and its validity bits. -/
theorem write_of_error (hr : Reachable (.busy w)) (hpos : 0 < w.toInsert) {e : Error}
    (hw : w.write c = (.error (.err e), w₁)) :
    w₁ = w ∨ ∃ col₁, w₁.entry c.name = some (col₁, none) ∧
      (w.resolved c).Keeps w.initialRows col₁ ∧ col₁.valid = (w.resolved c).valid ∧
      (w.resolved c).valid.length = w.initialRows ∧
      (w.entry c.name = none ∨ w.entry c.name = some (w.resolved c, none)) := by
  have hn := (reachable_shapeOk hr).1
  have hp : w.Pending := reachable_rowsOk hr
  rw [write_eq] at hw
  rcases writeColumn_cases hn hw with
    ⟨rfl, -⟩ | ⟨idx, col, w₂, hcol, hl, hw₂, -, hlen, hres, rfl⟩
  · exact .inl rfl
  have hcres : w.resolved c = col := by
    rcases hw₂ with rfl | ⟨hl₀, -, rfl, -⟩
    · simp [resolved, entry, hl, hcol]
    · simp [resolved, entry, hl₀]
  subst hcres
  rcases c.apply_valid (by rw [← hres]; rfl) with ⟨hvalid, hrec⟩ | ⟨hok, -⟩
  swap
  · rw [← hres] at hok
    cases hok
  -- the position had no record: its column still has `initial_rows` bits, or is new
  have hnorec : w.statistics.lookup idx = none := by
    refine lookup_eq_none_iff_not_mem.mpr fun hm => ?_
    obtain ⟨p, hp', hpi⟩ := List.mem_map.mp hm
    obtain ⟨x, hx, hxl⟩ := hp.recorded p hp'
    rw [hpi] at hx
    rcases hw₂ with rfl | ⟨-, rfl, -⟩
    · rw [hcol, Option.some.injEq] at hx
      subst hx
      omega
    · simp at hx
  have hlt : idx < w₂.batch.columns.length := (List.getElem?_eq_some_iff.mp hcol).1
  refine .inr ⟨_, ?_, c.apply_keeps, hvalid, hlen, ?_⟩
  · simp [entry, hl, List.getElem?_set, hlt, hrec, hnorec]
  · rcases hw₂ with rfl | ⟨hl₀, -, -, -⟩
    · exact .inr (by simp [entry, hl, hcol, hnorec])
    · exact .inl (by simp [entry, hl₀])

theorem mem_of_entry {name : String} {col : Column} {rec : Option Statistics}
    (h : w.entry name = some (col, rec)) : col ∈ w.batch.columns := by
  obtain ⟨idx, -, hm⟩ := Option.bind_eq_some.mp h
  obtain ⟨x, hx, hxe⟩ := Option.map_eq_some'.mp hm
  obtain rfl : x = col := congrArg Prod.fst hxe
  exact List.getElem?_mem hx

/-- After calls to other names, the entries of two writers that agree off one name
still agree off it. -/
theorem entryAfter_of_ne {w' : Writer}
    (h : ∀ name, c.name ≠ name → w'.entry name = w.entry name)
    (hi : w'.initialRows = w.initialRows) (ht : w'.toInsert = w.toInsert) (cs : List WriteCall)
    {name : String} (hne : c.name ≠ name) : w'.entryAfter cs name = w.entryAfter cs name := by
  rw [entryAfter, entryAfter]
  cases hf : cs.find? fun c' => c'.name = name with
  | none => exact h name hne
  | some c' =>
    have hname := List.find?_some hf
    simp only [decide_eq_true_eq] at hname
    simp only [resolved_of_entry h hi (hname ▸ hne), hi, ht]

theorem entryAfter_of_not_mem {cs : List WriteCall} (hnot : c.name ∉ cs.map WriteCall.name) :
    w.entryAfter cs c.name = w.entry c.name := by
  have hnone : cs.find? (fun c' => c'.name = c.name) = none :=
    List.find?_eq_none.mpr fun x hx hx' => hnot (List.mem_map.mpr ⟨x, hx, by simpa using hx'⟩)
  simp [entryAfter, hnone]

end Writer

/-! ### The transaction goes on -/

/-- **A call that fails with an error leaves no trace in what the transaction commits but
its name.** Take a live writer with `to_insert ≥ 1` on a run from the empty batch, with
`initial_rows + to_insert` within `usize::MAX`, a call on it that returns an error, and then
calls to pairwise distinct other names that all return `Ok`. Made without the failed call,
the same calls all return `Ok`, and the two commits complete with the same row count. Every
other name has the same column in both batches. Under the failed call's name, a column
committed without the failed call agrees with one committed after it: the same type,
validity bits, statistics and set values. When the name had no column without the failed
call, the column the failed call registered holds only nulls. -/
theorem failed_call_invisible {w w₁ : Writer} (hr : Reachable (.busy w)) (hpos : 0 < w.toInsert)
    (hb : w.initialRows + w.toInsert ≤ usizeMax) {c : WriteCall} {e : Error}
    (hc : w.write c = (.error (.err e), w₁)) {cs : List WriteCall}
    (hnames : (cs.map WriteCall.name).Nodup) (hnot : c.name ∉ cs.map WriteCall.name)
    {w₁' : Writer} (h₁ : w₁.writeAllOk cs = some w₁') :
    ∃ w', w.writeAllOk cs = some w' ∧ ∃ v v₁, w'.commit = (.ok (), v) ∧ w₁'.commit = (.ok (), v₁) ∧
      v₁.batch.rowCount = v.batch.rowCount ∧
      (∀ name, name ≠ c.name → v₁.batch.columnByName name = v.batch.columnByName name) ∧
      (∀ col, v.batch.columnByName c.name = some col →
        ∃ col₁, v₁.batch.columnByName c.name = some col₁ ∧ col.Agrees col₁) ∧
      (v.batch.columnByName c.name = none → ∀ col₁, v₁.batch.columnByName c.name = some col₁ →
        col₁.valid = List.replicate v₁.batch.rowCount false) := by
  have hn := (reachable_shapeOk hr).1
  obtain ⟨hi, ht, -, -, -, -⟩ := Writer.write_frame hn hc
  have hr₁ : Reachable (.busy w₁) := hr.tail (.write c hc rfl)
  have hother := fun name => @Writer.entry_write_of_ne _ _ _ _ hn hc name
  have hcs : ∀ c' ∈ cs, c.name ≠ c'.name := fun c' hc' h =>
    hnot (h ▸ List.mem_map_of_mem WriteCall.name hc')
  -- the later calls are accepted with or without the failed call
  have ha₁ := Writer.accepts_of_writeAllOk hr₁ (ht ▸ hpos) hnames h₁
  obtain ⟨w', h', hr', hi', ht', -, he'⟩ := Writer.writeAllOk_of_accepts hr hpos hnames
    fun c' hc' => (Writer.accepts_iff_of_entry hother hi ht (hcs c' hc')).mp (ha₁ c' hc')
  obtain ⟨w₁'', h₁'', hr₁', hi₁', ht₁', -, he₁'⟩ :=
    Writer.writeAllOk_of_accepts hr₁ (ht ▸ hpos) hnames ha₁
  obtain rfl : w₁' = w₁'' := Option.some.inj (h₁.symm.trans h₁'')
  have hfin : w₁'.initialRows + w₁'.toInsert = w'.initialRows + w'.toInsert := by
    rw [hi₁', ht₁', hi', ht', hi, ht]
  have hb' : w'.initialRows + w'.toInsert ≤ usizeMax := by rwa [hi', ht']
  obtain ⟨v, hv, hrow, -, hby⟩ := Writer.commit_columnByName hr' (ht' ▸ hpos) hb'
  obtain ⟨v₁, hv₁, hrow₁, -, hby₁⟩ :=
    Writer.commit_columnByName hr₁' (ht₁' ▸ ht ▸ hpos) (hfin ▸ hb')
  -- under the failed name both commits read the entries the writers had after the call
  have hown : v₁.batch.columnByName c.name =
        (w₁.entry c.name).bind (commitEntry (w.initialRows + w.toInsert)) ∧
      v.batch.columnByName c.name =
        (w.entry c.name).bind (commitEntry (w.initialRows + w.toInsert)) := by
    rw [hby₁, hby, he₁', he', Writer.entryAfter_of_not_mem hnot,
      Writer.entryAfter_of_not_mem hnot, hfin, hi', ht']
    exact ⟨rfl, rfl⟩
  refine ⟨w', h', v, v₁, hv, hv₁, by rw [hrow₁, hrow, hfin], fun name hne => ?_, ?_⟩
  · rw [hby₁, hby, he₁', he', hfin, Writer.entryAfter_of_ne hother hi ht cs (Ne.symm hne)]
  rw [hown.1, hown.2]
  rcases Writer.write_of_error hr hpos hc with
    rfl | ⟨col₁, he₁, hk, hvalid, hlen, hnew | hsome⟩
  · -- `TypeMismatch`: both commits read the same entry
    exact ⟨fun col hcol => ⟨col, hcol, .refl col⟩,
      fun hnone _ h => absurd (hnone ▸ h) (by simp)⟩
  · -- the failed call registered the name: its column holds nulls only
    have hres : w.resolved c = Column.new w.initialRows c.influxType := by
      simp [Writer.resolved, hnew]
    refine ⟨fun _ h => absurd (hnew ▸ h) (by simp), fun _ col h => ?_⟩
    obtain rfl := Option.some.inj (he₁ ▸ h)
    rw [hrow₁, hfin, hi', ht']
    simp [hvalid, hres]
  · -- the name had a column: the failed call kept its rows and validity bits
    have hf : (w.resolved c).Filled := reachable_filled hr _ (Writer.mem_of_entry hsome)
    rw [hsome, he₁]
    exact ⟨fun col h =>
      ⟨_, rfl, Option.some.inj h ▸ Column.agrees_pushNullsToLen hk hvalid hlen hf _⟩, nofun⟩

/-- A `write_i64` of `"x"` that runs out of values, then a `write_i64` of `"y"`, on a
fresh batch. -/
theorem failed_call_invisible_after_write_i64 :
    let w := Writer.new MutableBatch.new 2
    let c : WriteCall := .i64 "x" none [1]
    let cs : List WriteCall := [.i64 "y" none [5, 6]]
    Reachable (.busy w) ∧ 0 < w.toInsert ∧ w.initialRows + w.toInsert ≤ usizeMax ∧
      w.write c = (.error (.err .insufficientValues), (w.write c).2) ∧
      (cs.map WriteCall.name).Nodup ∧ c.name ∉ cs.map WriteCall.name ∧
      (w.write c).2.writeAllOk cs = some ((w.write c).2.write (.i64 "y" none [5, 6])).2 ∧
      ∃ w', w.writeAllOk cs = some w' ∧ ∃ v v₁, w'.commit = (.ok (), v) ∧
        ((w.write c).2.write (.i64 "y" none [5, 6])).2.commit = (.ok (), v₁) ∧
        v₁.batch.rowCount = v.batch.rowCount ∧
        (∀ name, name ≠ c.name → v₁.batch.columnByName name = v.batch.columnByName name) ∧
        (∀ col, v.batch.columnByName c.name = some col →
          ∃ col₁, v₁.batch.columnByName c.name = some col₁ ∧ col.Agrees col₁) ∧
        (v.batch.columnByName c.name = none → ∀ col₁, v₁.batch.columnByName c.name = some col₁ →
          col₁.valid = List.replicate v₁.batch.rowCount false) :=
  have hr : Reachable (.busy (Writer.new MutableBatch.new 2)) := .single (.new _ 2)
  have hc : (Writer.new MutableBatch.new 2).write (.i64 "x" none [1]) =
      (.error (.err .insufficientValues), ((Writer.new MutableBatch.new 2).write
        (.i64 "x" none [1])).2) := Prod.ext rfl rfl
  ⟨hr, by decide, by decide, hc, by decide, by decide, rfl,
    failed_call_invisible hr (by decide) (by decide) hc (by decide) (by decide) rfl⟩

end BatchWriter
