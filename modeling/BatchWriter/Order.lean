import BatchWriter.Clean

/-!
# The order of the writes of a transaction

A transaction writes its columns in any order, and `commit` sorts the pending records
by position. On distinct columns the writes commute, so the order does not show in
what `commit` leaves.

What a write does is decided by the column its name resolves to
(`BatchWriter.Writer.resolved`): its result, the column it leaves and its record are
those of `BatchWriter.WriteCall.apply` on that column. Seen by name
(`BatchWriter.Writer.entry`: the column registered under a name, with the pending
record of its position), a successful write changes the entry of its own name only
(`BatchWriter.Writer.write_of_accepts`). Calls to distinct names therefore all
succeed in one order exactly when each succeeds on its own, and then leave the same
entries in every order (`BatchWriter.Writer.entryAfter`), which `commit` turns into
the same columns (`BatchWriter.commit_order_independent`). What differs is the
position of a column the transaction created: the order in which it was created.
-/

namespace BatchWriter

/-- The column registered under `name`. -/
def MutableBatch.columnByName (b : MutableBatch) (name : String) : Option Column :=
  (b.columnNames.lookup name).bind fun idx => b.columns[idx]?

/-- What `commit` makes of a column and the record of its position: the record merged,
or nulls up to `final_rows` when there is none. -/
def commitEntry (final_rows : Nat) (e : Column × Option Statistics) : Option Column :=
  match e.2 with
  | some stats => e.1.mergeStatistics stats
  | none => some (e.1.pushNullsToLen final_rows)

namespace Writer

/-- A caller's calls, made in order, when every one of them returns `Ok`. -/
def writeAllOk (w : Writer) : List WriteCall → Option Writer
  | [] => some w
  | c :: cs =>
    match w.write c with
    | (.ok (), w') => w'.writeAllOk cs
    | _ => none

/-- The column registered under `name` in a live writer, with the pending record of its
position. -/
def entry (w : Writer) (name : String) : Option (Column × Option Statistics) :=
  (w.batch.columnNames.lookup name).bind fun idx =>
    (w.batch.columns[idx]?).map fun col => (col, w.statistics.lookup idx)

/-- The column `column_mut` resolves for a call: the one registered under its name, or
a fresh column of its type. -/
def resolved (w : Writer) (c : WriteCall) : Column :=
  ((w.entry c.name).map Prod.fst).getD (Column.new w.initialRows c.influxType)

/-- A call succeeds on a writer: the column it resolves passes the checks of
`column_mut`, and the call succeeds on it. -/
def Accepts (w : Writer) (c : WriteCall) : Prop :=
  (w.resolved c).influxType = c.influxType ∧ (w.resolved c).valid.length = w.initialRows ∧
    (c.apply w.initialRows w.toInsert (w.resolved c)).1 = .ok ()

/-- The entries of a writer after calls to distinct names: under a name a call writes,
the column and the record the call makes of the column it resolves; under any other,
the writer's own entry. -/
def entryAfter (w : Writer) (calls : List WriteCall) (name : String) :
    Option (Column × Option Statistics) :=
  match calls.find? fun c => c.name = name with
  | some c => some (c.apply w.initialRows w.toInsert (w.resolved c)).2
  | none => w.entry name

end Writer

/-! ### Names and positions -/

theorem lookup_of_prefix {l l' : List (String × Nat)} (h : l <+: l') {name : String} {idx : Nat}
    (hl : l.lookup name = some idx) : l'.lookup name = some idx := by
  obtain ⟨t, rfl⟩ := h
  rw [List.lookup_append, hl]
  rfl

/-- Two names registered at one position are one name. -/
theorem MutableBatch.NamesOk.name_inj {b : MutableBatch} (h : b.NamesOk) {a a' : String}
    {idx : Nat} (ha : b.columnNames.lookup a = some idx)
    (ha' : b.columnNames.lookup a' = some idx) :
    a = a' :=
  congrArg Prod.fst (@List.inj_on_of_nodup_map _ _ Prod.snd _ (h.1 ▸ List.nodup_range _)
    _ (mem_of_lookup_eq_some ha) _ (mem_of_lookup_eq_some ha') rfl)

/-- In a list of calls to distinct names, the call to a name is the same in every
order. -/
theorem find?_name_of_perm {calls calls' : List WriteCall} (hp : calls.Perm calls')
    (hn : (calls.map WriteCall.name).Nodup) (name : String) :
    calls.find? (fun c => c.name = name) = calls'.find? fun c => c.name = name := by
  cases h : calls.find? fun c => c.name = name with
  | none =>
    exact (List.find?_eq_none.mpr fun x hx => List.find?_eq_none.mp h x (hp.mem_iff.mpr hx)).symm
  | some c =>
    obtain ⟨c', hc'⟩ := Option.isSome_iff_exists.mp (List.find?_isSome.mpr
      ⟨c, hp.mem_iff.mp (List.mem_of_find?_eq_some h), List.find?_some h⟩)
    have hname := List.find?_some h
    have hname' := List.find?_some hc'
    simp only [decide_eq_true_eq] at hname hname'
    rw [hc', List.inj_on_of_nodup_map hn (List.mem_of_find?_eq_some h)
      (hp.mem_iff.mpr (List.mem_of_find?_eq_some hc')) (hname.trans hname'.symm)]

namespace Writer

/-! ### One call -/

variable {w w' : Writer} {c c' : WriteCall}

/-- A call on a writer whose column passes the checks of `column_mut` resolves that
column, at its position or, for a new name, at the next free one, and stores back
what the call makes of it, queueing its record. -/
theorem write_eq_of_accepts (hn : w.batch.NamesOk) (hty : (w.resolved c).influxType = c.influxType)
    (hlen : (w.resolved c).valid.length = w.initialRows) :
    ∃ idx w₁, w₁.batch.columns[idx]? = some (w.resolved c) ∧
      w₁.batch.columnNames.lookup c.name = some idx ∧
      (w₁ = w ∨ (w.batch.columnNames.lookup c.name = none ∧ idx = w.batch.columns.length ∧
        w₁ = w.register c.name c.influxType)) ∧
      w.write c = ((c.apply w.initialRows w.toInsert (w.resolved c)).1,
        { w₁.setColumn idx (c.apply w.initialRows w.toInsert (w.resolved c)).2.1 with
          statistics := w.statistics ++
            (c.apply w.initialRows w.toInsert (w.resolved c)).2.2.toList.map (idx, ·) }) := by
  rw [write_eq]
  rcases @columnMut_cases w c.name c.influxType hn with ⟨idx, col, hl, hcol, hm⟩ | ⟨hl, hm⟩
  · have hres : w.resolved c = col := by simp [resolved, entry, hl, hcol]
    rw [hres] at hty hlen ⊢
    refine ⟨idx, w, hcol, hl, .inl rfl, ?_⟩
    simp only [writeColumn, hm, hty, hlen, ne_eq, not_true_eq_false, if_false]
  · have hres : w.resolved c = Column.new w.initialRows c.influxType := by
      simp [resolved, entry, hl]
    rw [hres]
    refine ⟨_, _, by simp, by simp [List.lookup_append, hl], .inr ⟨hl, rfl, rfl⟩, ?_⟩
    simp only [writeColumn, hm, register_statistics]

/-- A call that succeeds was accepted. -/
theorem accepts_of_write (hn : w.batch.NamesOk) (hw : (w.write c).1 = .ok ()) : w.Accepts c := by
  obtain ⟨r, w', h⟩ : ∃ r w', w.write c = (r, w') := ⟨_, _, rfl⟩
  rw [h] at hw
  dsimp only at hw
  subst hw
  rw [write_eq] at h
  rcases writeColumn_cases hn h with
    ⟨-, x, hx | hx⟩ | ⟨idx, col, w₁, hcol, hl, hw₁, hty, hlen, hr, -⟩
  · cases hx
  · cases hx
  · have hres : w.resolved c = col := by
      rcases hw₁ with rfl | ⟨hl₀, -, rfl, -⟩
      · simp [resolved, entry, hl, hcol]
      · simp [resolved, entry, hl₀]
    exact ⟨hres ▸ hty, hres ▸ hlen, hres ▸ hr.symm⟩

/-- **A call that is accepted succeeds, and changes the entry of its own name only**:
to the column and the record it makes of the column it resolves. -/
theorem write_of_accepts (hr : Reachable (.busy w)) (hpos : 0 < w.toInsert) (ha : w.Accepts c) :
    ∃ w₁, w.write c = (.ok (), w₁) ∧ Reachable (.busy w₁) ∧ w₁.initialRows = w.initialRows ∧
      w₁.toInsert = w.toInsert ∧ w.batch.columnNames <+: w₁.batch.columnNames ∧
      w₁.entry c.name = some (c.apply w.initialRows w.toInsert (w.resolved c)).2 ∧
      ∀ name, c.name ≠ name → w₁.entry name = w.entry name := by
  have hn := (reachable_shapeOk hr).1
  have hp : w.Pending := reachable_rowsOk hr
  obtain ⟨hty, hlen, hok⟩ := ha
  obtain ⟨idx, w₁, hcol, hl, hw₁, hw⟩ := write_eq_of_accepts hn hty hlen
  rw [hok] at hw
  obtain ⟨hi, ht, -, -, hpre, -⟩ := write_frame hn hw
  refine ⟨_, hw, hr.tail (.write c hw rfl), hi, ht, hpre, ?_, fun name hne => ?_⟩
  · -- the position had no record: its column still has `initial_rows` bits, or is new
    have hnorec : w.statistics.lookup idx = none := by
      refine lookup_eq_none_iff_not_mem.mpr fun hm => ?_
      obtain ⟨p, hp', hpi⟩ := List.mem_map.mp hm
      obtain ⟨x, hx, hxl⟩ := hp.recorded p hp'
      rw [hpi] at hx
      rcases hw₁ with rfl | ⟨-, rfl, -⟩
      · rw [hcol, Option.some.injEq] at hx
        subst hx
        omega
      · simp at hx
    have hlt : idx < w₁.batch.columns.length := (List.getElem?_eq_some_iff.mp hcol).1
    cases hrec : (c.apply w.initialRows w.toInsert (w.resolved c)).2.2 <;>
      simp [entry, hl, List.getElem?_set, hlt, List.lookup_append, hnorec, hrec, Prod.ext_iff]
  · -- every other name keeps its position, column and record
    have hnames : w₁.batch.columnNames.lookup name = w.batch.columnNames.lookup name := by
      rcases hw₁ with rfl | ⟨-, -, rfl⟩
      · rfl
      · simp [List.lookup_append, List.lookup_cons, beq_false_of_ne (Ne.symm hne)]
    rw [entry, entry, setColumn_columnNames, hnames]
    cases hj : w.batch.columnNames.lookup name with
    | none => rfl
    | some j =>
      have hji : j ≠ idx := by
        rintro rfl
        rcases hw₁ with rfl | ⟨hl₀, rfl, -⟩
        · exact hne (hn.name_inj hl hj)
        · exact absurd (hn.lookup_lt hj) (lt_irrefl _)
      have hcols : w₁.batch.columns[j]? = w.batch.columns[j]? := by
        rcases hw₁ with rfl | ⟨-, -, rfl⟩
        · rfl
        · simp [List.getElem?_append_left (hn.lookup_lt hj)]
      simp only [Option.some_bind, setColumn_columns, List.getElem?_set_ne (Ne.symm hji), hcols,
        List.lookup_append]
      cases (c.apply w.initialRows w.toInsert (w.resolved c)).2.2 <;>
        simp [List.lookup_cons, beq_false_of_ne hji]

/-- A call that changes no other entry leaves the column every other call resolves. -/
theorem resolved_of_entry (h : ∀ name, c.name ≠ name → w'.entry name = w.entry name)
    (hi : w'.initialRows = w.initialRows) (hne : c.name ≠ c'.name) :
    w'.resolved c' = w.resolved c' := by
  simp only [resolved, h c'.name hne, hi]

theorem accepts_iff_of_entry (h : ∀ name, c.name ≠ name → w'.entry name = w.entry name)
    (hi : w'.initialRows = w.initialRows) (ht : w'.toInsert = w.toInsert) (hne : c.name ≠ c'.name) :
    w'.Accepts c' ↔ w.Accepts c' := by
  simp only [Accepts, resolved_of_entry h hi hne, hi, ht]

/-- After an accepted call, the entries that the remaining calls to other names leave
are those that all the calls leave. -/
theorem entryAfter_cons {cs : List WriteCall} (hnot : c.name ∉ cs.map WriteCall.name)
    (hown : w'.entry c.name = some (c.apply w.initialRows w.toInsert (w.resolved c)).2)
    (hother : ∀ name, c.name ≠ name → w'.entry name = w.entry name)
    (hi : w'.initialRows = w.initialRows) (ht : w'.toInsert = w.toInsert) (name : String) :
    w'.entryAfter cs name = w.entryAfter (c :: cs) name := by
  by_cases hc : c.name = name
  · subst hc
    have hnone : cs.find? (fun c' => c'.name = c.name) = none :=
      List.find?_eq_none.mpr fun x hx hx' => hnot (List.mem_map.mpr ⟨x, hx, by simpa using hx'⟩)
    simp [entryAfter, hnone, List.find?_cons, hown]
  · rw [entryAfter, entryAfter, List.find?_cons_of_neg _ (by simpa using hc)]
    cases hf : cs.find? fun c' => c'.name = name with
    | none => exact hother name hc
    | some c' =>
      have hname := List.find?_some hf
      simp only [decide_eq_true_eq] at hname
      have hne : c.name ≠ c'.name := hname ▸ hc
      simp only [resolved_of_entry hother hi hne, hi, ht]

/-! ### A run of calls -/

/-- **Accepted calls to distinct names all succeed**, in order, from a reachable live
writer with `to_insert ≥ 1`, and leave the entries `BatchWriter.Writer.entryAfter`
says. -/
theorem writeAllOk_of_accepts (hr : Reachable (.busy w)) (hpos : 0 < w.toInsert)
    {calls : List WriteCall} (hnames : (calls.map WriteCall.name).Nodup)
    (ha : ∀ c ∈ calls, w.Accepts c) :
    ∃ w', w.writeAllOk calls = some w' ∧ Reachable (.busy w') ∧
      w'.initialRows = w.initialRows ∧ w'.toInsert = w.toInsert ∧
      w.batch.columnNames <+: w'.batch.columnNames ∧
      ∀ name, w'.entry name = w.entryAfter calls name := by
  induction calls generalizing w with
  | nil => exact ⟨w, rfl, hr, rfl, rfl, List.prefix_refl _, fun name => rfl⟩
  | cons c cs ih =>
    rw [List.map_cons, List.nodup_cons] at hnames
    obtain ⟨w₁, hw, hr₁, hi, ht, hpre, hown, hother⟩ :=
      write_of_accepts hr hpos (ha c (List.mem_cons_self _ _))
    obtain ⟨w', h', hr', hi', ht', hpre', he'⟩ := ih hr₁ (ht ▸ hpos) hnames.2 fun c' hc' =>
      (accepts_iff_of_entry hother hi ht fun h =>
        hnames.1 (by rw [h]; exact List.mem_map_of_mem _ hc')).mpr
          (ha c' (List.mem_cons_of_mem _ hc'))
    exact ⟨w', by simp only [writeAllOk, hw, h'], hr', hi'.trans hi, ht'.trans ht,
      hpre.trans hpre', fun name => (he' name).trans (entryAfter_cons hnames.1 hown hother hi ht name)⟩

/-- Calls to distinct names that all succeed, in order, from a reachable live writer
with `to_insert ≥ 1`, were each accepted by that writer. -/
theorem accepts_of_writeAllOk (hr : Reachable (.busy w)) (hpos : 0 < w.toInsert)
    {calls : List WriteCall} (hnames : (calls.map WriteCall.name).Nodup)
    (h : w.writeAllOk calls = some w') : ∀ c ∈ calls, w.Accepts c := by
  induction calls generalizing w with
  | nil => simp
  | cons c cs ih =>
    rw [List.map_cons, List.nodup_cons] at hnames
    have ha : w.Accepts c := accepts_of_write (reachable_shapeOk hr).1 <| by
      simp only [writeAllOk] at h
      split at h
      · rename_i heq
        rw [heq]
      · cases h
    obtain ⟨w₁, hw, hr₁, hi, ht, -, -, hother⟩ := write_of_accepts hr hpos ha
    simp only [writeAllOk, hw] at h
    rintro c' (_ | ⟨_, hc'⟩)
    · exact ha
    · exact (accepts_iff_of_entry hother hi ht fun h =>
        hnames.1 (by rw [h]; exact List.mem_map_of_mem _ hc')).mp
          (ih hr₁ (ht ▸ hpos) hnames.2 h c' hc')

theorem entryAfter_perm {calls calls' : List WriteCall} (hp : calls.Perm calls')
    (hn : (calls.map WriteCall.name).Nodup) (name : String) :
    w.entryAfter calls name = w.entryAfter calls' name := by
  rw [entryAfter, entryAfter, find?_name_of_perm hp hn]

/-- **`commit`, name by name.** On a reachable live writer with `to_insert ≥ 1` and
`initial_rows + to_insert` within `usize::MAX`, `commit` completes, with the same names and
`initial_rows + to_insert` rows, and the column under each name is what
`BatchWriter.commitEntry` makes of its entry. -/
theorem commit_columnByName (hr : Reachable (.busy w)) (hpos : 0 < w.toInsert)
    (hb : w.initialRows + w.toInsert ≤ usizeMax) :
    ∃ w', w.commit = (.ok (), w') ∧ w'.batch.rowCount = w.initialRows + w.toInsert ∧
      w'.batch.columnNames = w.batch.columnNames ∧
      ∀ name, w'.batch.columnByName name =
        (w.entry name).bind (commitEntry (w.initialRows + w.toInsert)) := by
  obtain ⟨w', hc, hlen, hk⟩ :=
    commit_of_pending (reachable_rowsOk hr) (reachable_shapeOk hr).2.2 hpos hb
  obtain ⟨-, hnames, hrow⟩ := commit_eq_ok hc
  refine ⟨w', hc, hrow, hnames, fun name => ?_⟩
  simp only [MutableBatch.columnByName, entry, hnames]
  cases w.batch.columnNames.lookup name with
  | none => rfl
  | some j =>
    cases hj : w.batch.columns[j]? with
    | none => simp [hj, List.getElem?_eq_none (hlen ▸ List.getElem?_eq_none_iff.mp hj)]
    | some col =>
      rw [Option.some_bind, Option.some_bind, ← (hk j col hj).2, hj, commitColumn]
      cases w.statistics.lookup j <;> rfl

end Writer

/-- **The order of the writes does not matter.** Open a writer with `to_insert ≥ 1` on
a batch reachable from the empty batch, and make calls to pairwise distinct names that
all return `Ok`. Made in any other order, the same calls all return `Ok` too. When
`row_count + to_insert` passes `usize::MAX`, both commits panic on the addition and
change nothing; otherwise both complete with the same row count and, under every name,
the same column: validity, values, dictionary and cumulative statistics. A column the
batch had keeps its position in both; only a column the transaction created may sit at
another position. -/
theorem commit_order_independent {b : MutableBatch} (hb : Reachable (.idle b)) {n : Nat}
    (hn : 0 < n) {calls calls' : List WriteCall} (hperm : calls.Perm calls')
    (hnames : (calls.map WriteCall.name).Nodup) {w₁ : Writer}
    (h₁ : (Writer.new b n).writeAllOk calls = some w₁) :
    ∃ w₂, (Writer.new b n).writeAllOk calls' = some w₂ ∧
      (usizeMax < b.rowCount + n → w₁.commit = (.error (.panic .addOverflow), w₁) ∧
        w₂.commit = (.error (.panic .addOverflow), w₂)) ∧
      (b.rowCount + n ≤ usizeMax → ∃ v₁ v₂, w₁.commit = (.ok (), v₁) ∧ w₂.commit = (.ok (), v₂) ∧
        v₁.batch.rowCount = v₂.batch.rowCount ∧
        (∀ name, v₁.batch.columnByName name = v₂.batch.columnByName name) ∧
        ∀ name idx, b.columnNames.lookup name = some idx →
          v₁.batch.columnNames.lookup name = some idx ∧
            v₂.batch.columnNames.lookup name = some idx) := by
  have hr : Reachable (.busy (Writer.new b n)) := hb.tail (.new b n)
  have ha := Writer.accepts_of_writeAllOk hr hn hnames h₁
  obtain ⟨w₁', h₁', hr₁, hi₁, ht₁, hpre₁, he₁⟩ := Writer.writeAllOk_of_accepts hr hn hnames ha
  rw [h₁, Option.some.injEq] at h₁'
  subst h₁'
  obtain ⟨w₂, h₂, hr₂, hi₂, ht₂, hpre₂, he₂⟩ := Writer.writeAllOk_of_accepts hr hn
    ((hperm.map WriteCall.name).nodup_iff.mp hnames) fun c hc => ha c (hperm.mem_iff.mpr hc)
  have hs₁ : w₁.initialRows + w₁.toInsert = b.rowCount + n := by rw [hi₁, ht₁]; rfl
  have hs₂ : w₂.initialRows + w₂.toInsert = b.rowCount + n := by rw [hi₂, ht₂]; rfl
  refine ⟨w₂, h₂, fun hover => ⟨Writer.commit_of_overflow (hs₁ ▸ hover),
    Writer.commit_of_overflow (hs₂ ▸ hover)⟩, fun hbound => ?_⟩
  obtain ⟨v₁, hc₁, hrow₁, hnm₁, hby₁⟩ := Writer.commit_columnByName hr₁ (ht₁ ▸ hn) (hs₁ ▸ hbound)
  obtain ⟨v₂, hc₂, hrow₂, hnm₂, hby₂⟩ := Writer.commit_columnByName hr₂ (ht₂ ▸ hn) (hs₂ ▸ hbound)
  refine ⟨v₁, v₂, hc₁, hc₂, by rw [hrow₁, hrow₂, hi₁, hi₂, ht₁, ht₂],
    fun name => ?_, fun name idx h => ⟨?_, ?_⟩⟩
  · rw [hby₁, hby₂, he₁, he₂, hi₁, hi₂, ht₁, ht₂, Writer.entryAfter_perm hperm hnames]
  · rw [hnm₁]
    exact lookup_of_prefix hpre₁ h
  · rw [hnm₂]
    exact lookup_of_prefix hpre₂ h

/-- On a batch with one committed row in the column `"x"`, a transaction of two rows
writes the new tag column `"t"` and `"x"`, in both orders. -/
theorem commit_order_independent_two_columns :
    let b := ((Writer.new MutableBatch.new 1).write (.i64 "x" none [0])).2.commit.2.batch
    let calls := [WriteCall.tag "t" none ["a", "b"], WriteCall.i64 "x" none [1, 2]]
    let w₁ := ((Writer.new b 2).writeAllOk calls).getD (Writer.new b 2)
    Reachable (.idle b) ∧ 0 < 2 ∧ b.rowCount + 2 ≤ usizeMax ∧ calls.Perm calls.reverse ∧
      (calls.map WriteCall.name).Nodup ∧
      (Writer.new b 2).writeAllOk calls = some w₁ ∧
      ∃ w₂, (Writer.new b 2).writeAllOk calls.reverse = some w₂ ∧
        (usizeMax < b.rowCount + 2 → w₁.commit = (.error (.panic .addOverflow), w₁) ∧
          w₂.commit = (.error (.panic .addOverflow), w₂)) ∧
        (b.rowCount + 2 ≤ usizeMax → ∃ v₁ v₂, w₁.commit = (.ok (), v₁) ∧
          w₂.commit = (.ok (), v₂) ∧ v₁.batch.rowCount = v₂.batch.rowCount ∧
          (∀ name, v₁.batch.columnByName name = v₂.batch.columnByName name) ∧
          ∀ name idx, b.columnNames.lookup name = some idx →
            v₁.batch.columnNames.lookup name = some idx ∧
              v₂.batch.columnNames.lookup name = some idx) :=
  have hb : Reachable (.idle ((Writer.new MutableBatch.new 1).write
      (.i64 "x" none [0])).2.commit.2.batch) :=
    .tail (.tail (.single (.new _ 1)) (.write (.i64 "x" none [0]) (Prod.ext rfl rfl) (by rfl)))
      (.commit (Prod.ext rfl rfl))
  have hperm := (List.reverse_perm [WriteCall.tag "t" none ["a", "b"],
    WriteCall.i64 "x" none [1, 2]]).symm
  have hnames : ([WriteCall.tag "t" none ["a", "b"], WriteCall.i64 "x" none [1, 2]].map
      WriteCall.name).Nodup := by decide
  have hbound : ((Writer.new MutableBatch.new 1).write
      (.i64 "x" none [0])).2.commit.2.batch.rowCount + 2 ≤ usizeMax := by decide
  ⟨hb, Nat.two_pos, hbound, hperm, hnames, rfl,
    commit_order_independent hb Nat.two_pos hperm hnames rfl⟩

end BatchWriter
