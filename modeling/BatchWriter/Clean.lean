import BatchWriter.Tags
import Mathlib.Data.List.Dedup

/-!
# Tag dictionaries on clean runs

`commit` sets the distinct count of a tag column it merges a record into from the size
of the column's dictionary, one more when the column has nulls
(`BatchWriter.Column.mergeStatistics`). That is the number of distinct strings at the
column's non-null rows only while the dictionary holds exactly those strings, and a
run can break that. A `write_tag` that fails with `InsufficientValues` has interned the
values it consumed but appended no validity bit: a commit after it keeps strings that
no non-null row holds, and a retry of the call stores other strings beside them
(`BatchWriter.retried_write_tag_overcounts`).

On a clean run, where a transaction in which a `write_tag` or `write_tag_dict` failed
past `column_mut` is dropped and never committed (`BatchWriter.CleanStep`), every tag
column stays exact (`BatchWriter.Column.TagExact`). A successful `write_tag` interns
exactly the strings it stores at the set rows it adds; a successful `write_tag_dict` is
a `write_tag`; a call of another type leaves a tag column alone, and a `TypeMismatch`
leaves every column alone; `commit` only adds null rows or merges statistics; and a drop
gives every tag column back the dictionary it had. So between transactions every dictionary holds the
distinct strings at its column's non-null rows, and `commit` counts them right
(`BatchWriter.clean_runs_exact_dictionaries`).
-/

namespace BatchWriter

/-! ### Lists -/

theorem exists_mem_zip_of_mem_take {α β : Type} {l₁ : List α} {l₂ : List β} {b : β}
    (h : b ∈ l₂.take l₁.length) : ∃ a, (a, b) ∈ l₁.zip l₂ := by
  induction l₁ generalizing l₂ with
  | nil => simp at h
  | cons a l₁ ih =>
    cases l₂ with
    | nil => simp at h
    | cons b' l₂ =>
      rw [List.length_cons, List.take_succ_cons, List.mem_cons] at h
      rcases h with rfl | h
      · exact ⟨a, List.mem_cons_self _ _⟩
      · obtain ⟨a', h'⟩ := ih h
        exact ⟨a', List.mem_cons_of_mem _ h'⟩

/-- A set bit of a bitset padded with null rows is a bit of the bitset. -/
theorem getElem?_of_append_replicate_false {l : List Bool} {k r : Nat}
    (h : (l ++ List.replicate k false)[r]? = some true) : l[r]? = some true := by
  rcases Nat.lt_or_ge r l.length with hr | hr
  · rwa [List.getElem?_append_left hr] at h
  · rw [List.getElem?_append_right hr, List.getElem?_replicate] at h
    split_ifs at h
    cases h

theorem ColumnData.exists_tag_of_storage {d : ColumnData} (h : d.storage = .tag) :
    ∃ codes dict s, d = .tag codes dict s := by
  cases d <;> first | exact ⟨_, _, _, rfl⟩ | cases h

/-! ### Exact tag columns -/

namespace Column

/-- The strings a tag column stores at its non-null rows, in row order: what the codes
of its set rows decode to. -/
def nonNullStrings (c : Column) : List String :=
  match c.data with
  | .tag codes dict _ => (List.range c.valid.length).filterMap fun r =>
      if c.valid[r]? = some true then codes[r]?.bind dict.lookupId else none
  | _ => []

/-- A tag column whose dictionary holds exactly the strings at its non-null rows, with
no code past the dictionary's end and one code per validity bit. A column of another
variant is exact. -/
def TagExact (c : Column) : Prop :=
  c.DictExact ∧ c.CodesBelow ∧ (c.data.storage = .tag → c.data.len = c.valid.length)

variable {c c' : Column} {codes : List Int} {dict : Dictionary} {s : StatValues String}

theorem mem_nonNullStrings (h : c.data = .tag codes dict s) {x : String} :
    x ∈ c.nonNullStrings ↔
      ∃ r : Nat, c.valid[r]? = some true ∧ (codes[r]?.bind dict.lookupId) = some x := by
  simp only [nonNullStrings, h, List.mem_filterMap, List.mem_range]
  constructor
  · rintro ⟨r, -, hr⟩
    split_ifs at hr with hv
    exact ⟨r, hv, hr⟩
  · rintro ⟨r, hv, hr⟩
    exact ⟨r, isSome_getElem?_iff.mp (by rw [hv]; rfl), by rw [if_pos hv]; exact hr⟩

theorem tagExact_iff (h : c.data = .tag codes dict s) :
    c.TagExact ↔ (∀ x, x ∈ dict.values ↔ x ∈ c.nonNullStrings) ∧
      (∀ code ∈ codes, code < dict.values.length) ∧ codes.length = c.valid.length := by
  simp [TagExact, DictExact, CodesBelow, h, mem_nonNullStrings h, ColumnData.storage,
    ColumnData.len]

theorem tagExact_of_storage (h : c.data.storage ≠ .tag) : c.TagExact := by
  rcases c with ⟨t, valid, d⟩
  cases d <;> first | exact absurd rfl h | exact ⟨trivial, trivial, fun h' => absurd h' h⟩

/-- The dictionary of an exact tag column is the set of strings at its non-null rows,
each once. -/
theorem TagExact.perm_dedup (h : c.TagExact) (hd : c.data = .tag codes dict s) :
    dict.values.Perm c.nonNullStrings.dedup :=
  (List.perm_ext_iff_of_nodup dict.nodup (List.nodup_dedup _)).mpr fun x => by
    rw [List.mem_dedup]
    exact ((tagExact_iff hd).mp h).1 x

theorem tagExact_new (n : Nat) (t : InfluxColumnType) : (Column.new n t).TagExact := by
  cases t with
  | tag =>
    have hd : (Column.new n .tag).data =
        .tag (List.replicate n invalidDid) Dictionary.empty (StatValues.newAllNull n) := rfl
    refine (tagExact_iff hd).mpr ⟨fun x => ?_, fun code hc => ?_, by simp⟩
    · simp [mem_nonNullStrings hd, Dictionary.empty, List.getElem?_replicate]
    · rw [List.eq_of_mem_replicate hc, invalidDid]
      simp [Dictionary.empty]
  | field f => cases f <;> exact tagExact_of_storage (by simp [InfluxColumnType.storage])
  | timestamp => exact tagExact_of_storage (by simp [InfluxColumnType.storage])

/-- Padding with null rows keeps a column exact. -/
theorem TagExact.pushNullsToLen (h : c.TagExact) (len : Nat) : (c.pushNullsToLen len).TagExact := by
  by_cases hs : c.data.storage = .tag
  · obtain ⟨codes, dict, s, hd⟩ := ColumnData.exists_tag_of_storage hs
    obtain ⟨hx, hb, hl⟩ := (tagExact_iff hd).mp h
    have hd' : (c.pushNullsToLen len).data = .tag (codes ++ List.replicate
        (len - c.valid.length) invalidDid) dict (s.updateForNulls (len - c.valid.length)) := by
      simp [hd, ColumnData.pushNulls]
    refine (tagExact_iff hd').mpr ⟨fun x => ?_, fun code hc => ?_, by simp [hl]⟩
    · rw [hx, mem_nonNullStrings hd, mem_nonNullStrings hd', valid_pushNullsToLen]
      constructor
      · rintro ⟨r, hv, hr⟩
        have hlt : r < c.valid.length := isSome_getElem?_iff.mp (by rw [hv]; rfl)
        exact ⟨r, by rw [List.getElem?_append_left hlt, hv],
          by rwa [List.getElem?_append_left (hl ▸ hlt)]⟩
      · rintro ⟨r, hv, hr⟩
        have hv' := getElem?_of_append_replicate_false hv
        have hlt : r < c.valid.length := isSome_getElem?_iff.mp (by rw [hv']; rfl)
        exact ⟨r, hv', by rwa [List.getElem?_append_left (hl ▸ hlt)] at hr⟩
    · rcases List.mem_append.mp hc with hc | hc
      · exact hb code hc
      · rw [List.eq_of_mem_replicate hc, invalidDid]
        omega
  · exact tagExact_of_storage (by simpa using hs)

/-- **The statistics merge of `commit` on a tag column** keeps its rows and dictionary,
and sets its distinct count to the dictionary's size, one more when it has nulls. -/
theorem mergeStatistics_tag {rec : Statistics} (hm : c.mergeStatistics rec = some c')
    (hd : c'.data = .tag codes dict s) :
    c'.valid = c.valid ∧ (∃ s₀, c.data = .tag codes dict s₀) ∧
      s.distinctCount = nonZero (dict.values.length + if s.nullCount = 0 then 0 else 1) := by
  rcases c with ⟨t, valid, d⟩
  cases d <;> cases rec <;> simp only [mergeStatistics, Option.some.injEq, reduceCtorEq] at hm <;>
    subst hm <;> simp only [ColumnData.tag.injEq, reduceCtorEq] at hd
  obtain ⟨rfl, rfl, rfl⟩ := hd
  refine ⟨rfl, ⟨_, rfl⟩, ?_⟩
  dsimp only
  split <;> simp_all

/-- The statistics merge keeps a column exact. -/
theorem TagExact.mergeStatistics (h : c.TagExact) {rec : Statistics}
    (hm : c.mergeStatistics rec = some c') : c'.TagExact := by
  by_cases hs : c'.data.storage = .tag
  · obtain ⟨codes, dict, s, hd⟩ := ColumnData.exists_tag_of_storage hs
    obtain ⟨hv, ⟨s₀, hd₀⟩, -⟩ := mergeStatistics_tag hm hd
    have hnn : c'.nonNullStrings = c.nonNullStrings := by
      simp only [nonNullStrings, hd, hd₀, hv]
    rw [tagExact_iff hd, hnn, hv]
    exact (tagExact_iff hd₀).mp h
  · exact tagExact_of_storage hs

theorem TagExact.commitsTo {final_rows : Nat} (h : c.TagExact)
    (hc : CommitsTo final_rows c c') : c'.TagExact := by
  rcases hc with rfl | rfl | ⟨rec, hm⟩
  · exact h
  · exact h.pushNullsToLen _
  · exact h.mergeStatistics hm

/-- A column that keeps the first `n` rows of an exact column of `n` rows is exact once
cut back to them. -/
theorem TagExact.truncate_of_keeps {c₀ : Column} {n : Nat} (h₀ : c₀.TagExact)
    (hv : c₀.valid.length = n) (hk : c₀.Keeps n c) : (c.truncate n).TagExact := by
  by_cases hs : c₀.data.storage = .tag
  · rw [Column.truncate_of_keeps hk (restorable_of_dictExact hv ((h₀.2.2 hs).trans hv) h₀.1 h₀.2.1)]
    exact h₀
  · exact tagExact_of_storage (by rwa [data_truncate, ColumnData.storage_truncate, hk.2.2.storage])

end Column

/-! ### Successful calls -/

section Resolved

variable {α : Type} {n : Nat} {valid_mask : Option (List UInt8)}
  {wrap : StatValues α → Statistics}
  {body : ColumnData → Option (Except Exit Unit × ColumnData × StatValues α)} {col : Column}

/-- A call that succeeds ran its arm to the end and appended the validity bits of its
mask. -/
theorem writeResolved_eq_ok (h : (writeResolved n valid_mask wrap body col).1 = .ok ()) :
    ∃ data stats, body col.data = some (.ok (), data, stats) ∧
      (writeResolved n valid_mask wrap body col).2.1 =
        { col with data, valid := col.valid ++ validBits valid_mask n } := by
  obtain ⟨r, col', st, hw⟩ :
      ∃ r col' st, writeResolved n valid_mask wrap body col = (r, col', st) := ⟨_, _, _, rfl⟩
  rw [hw] at h ⊢
  dsimp only at h
  subst h
  rcases writeResolved_cases hw with ⟨-, h, -⟩ | ⟨r₀, data, stats, hb, ⟨hr, -⟩ | ⟨rfl, rfl, -⟩⟩
  · cases h
  · rcases hr with ⟨rfl, h⟩ | ⟨-, h⟩
    · exact absurd rfl h
    · cases h
  · exact ⟨data, stats, hb, rfl⟩

theorem writeResolved_storage_of_ok {sto : Storage} (hb : ArmSpec sto body)
    (h : (writeResolved n valid_mask wrap body col).1 = .ok ()) : col.data.storage = sto := by
  obtain ⟨_, _, hd, -⟩ := writeResolved_eq_ok h
  exact (hb.isSome_iff _).mp (by rw [hd]; rfl)

end Resolved

/-- A call succeeds only on a column of the variant its type prescribes. -/
theorem WriteCall.storage_of_apply_ok (c : WriteCall) {i n : Nat} {col : Column}
    (h : (c.apply i n col).1 = .ok ()) : col.data.storage = c.influxType.storage := by
  cases c with
  | f64 => exact writeResolved_storage_of_ok (armSpec_fixed _ _ _ FixedWidth.lawful_f64 _) h
  | i64 => exact writeResolved_storage_of_ok (armSpec_fixed _ _ _ FixedWidth.lawful_i64 _) h
  | u64 => exact writeResolved_storage_of_ok (armSpec_fixed _ _ _ FixedWidth.lawful_u64 _) h
  | bool => exact writeResolved_storage_of_ok (armSpec_bool _ _ _ _) h
  | string => exact writeResolved_storage_of_ok (armSpec_string _ _ _) h
  | tag => exact writeResolved_storage_of_ok (armSpec_tag _ _ _ _) h
  | tagDict => exact writeResolved_storage_of_ok (armSpec_tagDict _ _ _ _ _) h
  | time => exact writeResolved_storage_of_ok (armSpec_fixed _ _ _ FixedWidth.lawful_i64 _) h

section Tag

variable {i n : Nat} {col : Column} {name : String} {valid_mask : Option (List UInt8)}

/-- **A successful `write_tag` keeps its column exact**: the set rows it adds hold
exactly the strings it interns. -/
theorem Column.TagExact.apply_tag (hex : col.TagExact) (hv : col.valid.length = i)
    {values : List String}
    (hr : ((WriteCall.tag name valid_mask values).apply i n col).1 = .ok ()) :
    ((WriteCall.tag name valid_mask values).apply i n col).2.1.TagExact := by
  set ps := setPositionIterator valid_mask n
  obtain ⟨codes, dict, s, hd⟩ :=
    ColumnData.exists_tag_of_storage (writeResolved_storage_of_ok (armSpec_tag _ _ _ _) hr)
  obtain ⟨hx, hbelow, hl⟩ := (Column.tagExact_iff hd).mp hex
  obtain ⟨codes', stats', harm, hlen, hdec, hcb⟩ :=
    @tagArm_spec i n ps (fun _ => lt_of_mem_setPositionIterator) values codes dict s
  set D := dict.insertAll (values.take ps.length)
  obtain ⟨data, stats, hb, heq⟩ := writeResolved_eq_ok hr
  rw [hd, harm, Option.some.injEq, Prod.mk.injEq, Prod.mk.injEq] at hb
  obtain ⟨hok, rfl, -⟩ := hb
  have hle : ps.length ≤ values.length := by
    by_contra hne
    rw [if_neg hne] at hok
    cases hok
  have hk : codes.take i <+: codes' ∧ dict.values <+: D.values ∧ s = s :=
    armKeeps_tag values _ _ _ _ harm
  rw [List.take_of_length_le (by omega)] at hk
  have hd' : ((WriteCall.tag name valid_mask values).apply i n col).2.1.data = .tag codes' D s :=
    congrArg Column.data heq
  have hv' : ((WriteCall.tag name valid_mask values).apply i n col).2.1.valid =
      col.valid ++ validBits valid_mask n := congrArg Column.valid heq
  refine (Column.tagExact_iff hd').mpr ⟨fun x => ⟨fun hxD => ?_, fun hxN => ?_⟩, hcb hbelow,
    by rw [hv', List.length_append, length_validBits, hlen, hv]⟩
  · rw [Column.mem_nonNullStrings hd', hv']
    rcases Dictionary.mem_insertAll.mp hxD with hxd | hxv
    · -- a string of the old dictionary is still at its old row
      obtain ⟨r, hvr, hrx⟩ := (Column.mem_nonNullStrings hd).mp ((hx x).mp hxd)
      have hlt : r < col.valid.length := isSome_getElem?_iff.mp (by rw [hvr]; rfl)
      obtain ⟨code, hcode, hdx⟩ := Option.bind_eq_some.mp hrx
      refine ⟨r, by rw [List.getElem?_append_left hlt, hvr], ?_⟩
      rw [prefix_getElem?_eq_some hk.1 hcode, Option.some_bind]
      exact Dictionary.lookupId_of_prefix hk.2.1 hdx
    · -- an interned string is at the row of the position that consumed it
      obtain ⟨p, hp⟩ := exists_mem_zip_of_mem_take hxv
      refine ⟨i + p, ?_, hdec (pairwise_setPositionIterator valid_mask n).nodup hle (p, x) hp⟩
      rw [List.getElem?_append_right (by omega), show i + p - col.valid.length = p by omega]
      exact getElem?_validBits_eq_some_true.mpr (List.of_mem_zip hp).1
  · obtain ⟨r, -, hr⟩ := (Column.mem_nonNullStrings hd').mp hxN
    obtain ⟨code, -, hcode⟩ := Option.bind_eq_some.mp hr
    exact Dictionary.mem_of_lookupId hcode

/-- A successful `write_tag_dict` is the `write_tag` of the strings its keys stand for. -/
theorem WriteCall.apply_tagDict_of_ok {keys : List Nat} {table : List String}
    (hr : ((WriteCall.tagDict name valid_mask keys table).apply i n col).1 = .ok ()) :
    (WriteCall.tagDict name valid_mask keys table).apply i n col =
      (WriteCall.tag name valid_mask (keys.map (tableAt table))).apply i n col := by
  obtain ⟨_, _, hb, -⟩ := writeResolved_eq_ok hr
  show writeResolved n valid_mask .string
      (tagDictArm i n (setPositionIterator valid_mask n) keys table) col = _
  rw [tagDictArm_eq_tagArm (tagDictArm_keys (pairwise_setPositionIterator valid_mask n).nodup hb)]
  rfl

end Tag

/-- **A successful call keeps its column exact**, on a column of `initial_rows` rows. -/
theorem WriteCall.tagExact_apply (c : WriteCall) {i n : Nat} {col : Column}
    (hex : col.TagExact) (hv : col.valid.length = i) (hr : (c.apply i n col).1 = .ok ()) :
    (c.apply i n col).2.1.TagExact := by
  by_cases hs : col.data.storage = .tag
  · have hty := hs.symm.trans (c.storage_of_apply_ok hr)
    cases c with
    | tag => exact hex.apply_tag hv hr
    | tagDict =>
      have h := WriteCall.apply_tagDict_of_ok hr
      rw [h] at hr ⊢
      exact hex.apply_tag hv hr
    | _ => cases hty
  · exact Column.tagExact_of_storage (by rwa [(c.apply_shape i n col).2.1])

/-- **A call of another type keeps every column exact**, whatever it returns: on a tag
column its arm does not run. -/
theorem WriteCall.tagExact_apply_of_ne_tag (c : WriteCall) {i n : Nat} {col : Column}
    (hty : c.influxType ≠ .tag) (hex : col.TagExact) : (c.apply i n col).2.1.TagExact := by
  by_cases hs : col.data.storage = .tag
  · have hsto : col.data.storage ≠ c.influxType.storage := by
      rw [hs]
      cases c <;> first | exact absurd rfl hty | exact nofun
    rw [(c.apply_other i n col).2 hsto]
    exact hex
  · exact Column.tagExact_of_storage (by rwa [(c.apply_shape i n col).2.1])

/-- Whether a call that failed with `e` can have left a tag dictionary inexact: a
`write_tag` or `write_tag_dict` that got past `column_mut`, which refuses a call with
`TypeMismatch` before it touches a column. -/
def WriteCall.taints (c : WriteCall) : Error → Bool
  | .typeMismatch _ _ => false
  | _ => decide (c.influxType = .tag)

/-! ### Clean runs -/

/-- A step of a clean run. The state carries whether a tag write of the open transaction
has failed; the steps are those of `BatchWriter.Step`, except that a transaction in
which a tag write failed is dropped, never committed. -/
inductive CleanStep : Sys × Bool → Sys × Bool → Prop
  /-- `Writer::new(batch, to_insert)`. -/
  | new (batch : MutableBatch) (to_insert : Nat) :
      CleanStep (.idle batch, false) (.busy (Writer.new batch to_insert), false)
  /-- A typed write call that returns `Ok`. -/
  | writeOk {w w' : Writer} {failed : Bool} (call : WriteCall) :
      w.write call = (.ok (), w') → CleanStep (.busy w, failed) (.busy w', failed)
  /-- A typed write call that returns an error, which the transaction remembers when it
  can have tainted a dictionary. -/
  | writeErr {w w' : Writer} {failed : Bool} {e : Error} (call : WriteCall) :
      w.write call = (.error (.err e), w') →
        CleanStep (.busy w, failed) (.busy w', failed || call.taints e)
  /-- A commit that completes, of a transaction none of whose tag writes failed. -/
  | commit {w w' : Writer} :
      w.commit = (.ok (), w') → CleanStep (.busy w, false) (.idle w'.batch, false)
  /-- A drop without commit. -/
  | drop (w : Writer) (failed : Bool) : CleanStep (.busy w, failed) (.idle w.drop, false)

/-- The states of every clean run from the empty batch. -/
def CleanReachable (s : Sys × Bool) : Prop :=
  Relation.ReflTransGen CleanStep (.idle MutableBatch.new, false) s

/-- Every step of a clean run is a step of the system. -/
theorem CleanStep.step {s t : Sys × Bool} (h : CleanStep s t) : Step s.1 t.1 := by
  cases h with
  | new b n => exact .new b n
  | writeOk c hw => exact .write c hw rfl
  | writeErr c hw => exact .write c hw rfl
  | commit hw => exact .commit hw
  | drop w _ => exact .drop w

theorem CleanReachable.reachable {s : Sys × Bool} (h : CleanReachable s) : Reachable s.1 := by
  induction h with
  | refl => exact .refl
  | tail _ hstep ih => exact ih.tail hstep.step

namespace Writer

variable {w w' : Writer}

theorem tagExact_write {c : WriteCall} (hn : w.batch.NamesOk)
    (hex : ∀ col ∈ w.batch.columns, col.TagExact) (hw : w.write c = (.ok (), w')) :
    ∀ col ∈ w'.batch.columns, col.TagExact :=
  write_columns hn hex (Column.tagExact_new _ _)
    (fun _ h _ hlen hr => c.tagExact_apply h hlen hr.symm) hw

/-- **A call that fails without tainting keeps every column exact**: a `TypeMismatch`
comes from `column_mut`, which touches no column, and a call of another type than tag
leaves a tag column alone. -/
theorem tagExact_write_err {c : WriteCall} {e : Error} (hn : w.batch.NamesOk)
    (hex : ∀ col ∈ w.batch.columns, col.TagExact) (hw : w.write c = (.error (.err e), w'))
    (ht : c.taints e = false) : ∀ col ∈ w'.batch.columns, col.TagExact := by
  refine write_columns hn hex (Column.tagExact_new _ _) (fun col h _ _ hr => ?_) hw
  cases e with
  | typeMismatch t t' => exact absurd hr.symm ((c.apply_other _ _ _).1 t t')
  | _ => exact c.tagExact_apply_of_ne_tag (by simpa [WriteCall.taints] using ht) h

theorem tagExact_commit (hex : ∀ col ∈ w.batch.columns, col.TagExact)
    (hw : w.commit = (.ok (), w')) : ∀ col ∈ w'.batch.columns, col.TagExact :=
  forall_mem_of_forall₂ (commit_forall₂ hw) (fun hr h => h.commitsTo hr) hex

/-- A drop leaves every column exact when the batch the writer was opened on had
exact columns of one validity bit per row. -/
theorem tagExact_drop {b₀ : MutableBatch} (h : w.Rollback b₀)
    (hb₀ : ∀ col ∈ b₀.columns, col.TagExact ∧ col.valid.length = b₀.rowCount) :
    ∀ col ∈ w.drop.columns, col.TagExact := by
  rw [drop_columns_of_not_success h.success, h.initialRows]
  intro col hcol
  obtain ⟨j, hj⟩ := List.mem_iff_getElem?.mp hcol
  rw [List.getElem?_map] at hj
  obtain ⟨x, hx, rfl⟩ := Option.map_eq_some'.mp hj
  by_cases hjl : j < b₀.columns.length
  · obtain ⟨c₀, hc₀⟩ : ∃ c₀, b₀.columns[j]? = some c₀ := ⟨_, List.getElem?_eq_getElem hjl⟩
    obtain ⟨y, hy, hk⟩ := h.old j c₀ hc₀
    rw [hx, Option.some.injEq] at hy
    subst hy
    exact (hb₀ c₀ (List.getElem?_mem hc₀)).1.truncate_of_keeps (hb₀ c₀ (List.getElem?_mem hc₀)).2 hk
  · rw [Column.truncate_of_keeps (h.new j x hx (by omega)) (Column.restorable_new _ _)]
    exact Column.tagExact_new _ _

end Writer

/-- What a clean run keeps. Between transactions every column is exact. In a
transaction, the batch it was opened on had exact columns of one validity bit per
row, which the writer keeps; while no tag write has failed, every column of the writer
is exact too. -/
def CleanOk : Sys × Bool → Prop
  | (.idle b, _) => ∀ col ∈ b.columns, col.TagExact
  | (.busy w, failed) => ∃ b₀, w.Rollback b₀ ∧
      (∀ col ∈ b₀.columns, col.TagExact ∧ col.valid.length = b₀.rowCount) ∧
      (failed = false → ∀ col ∈ w.batch.columns, col.TagExact)

/-- Every step of a clean run keeps what a clean run keeps, from a reachable state. -/
theorem CleanStep.cleanOk {s t : Sys × Bool} (h : CleanStep s t) (hr : Reachable s.1)
    (hs : CleanOk s) : CleanOk t := by
  cases h with
  | new b n =>
    exact ⟨b, Writer.rollback_new (reachable_shapeOk hr).1 n,
      fun col hc => ⟨hs col hc, reachable_rowsOk hr col hc⟩, fun _ => hs⟩
  | @writeOk w w' failed c hw =>
    obtain ⟨b₀, hb, hb₀, hex⟩ := hs
    have hb' := Writer.rollback_write hb c
    rw [hw] at hb'
    exact ⟨b₀, hb', hb₀, fun hf => Writer.tagExact_write (reachable_shapeOk hr).1 (hex hf) hw⟩
  | @writeErr w w' failed e c hw =>
    obtain ⟨b₀, hb, hb₀, hex⟩ := hs
    have hb' := Writer.rollback_write hb c
    rw [hw] at hb'
    refine ⟨b₀, hb', hb₀, fun hf => ?_⟩
    obtain ⟨hf, ht⟩ := Bool.or_eq_false_iff.mp hf
    exact Writer.tagExact_write_err (reachable_shapeOk hr).1 (hex hf) hw ht
  | commit hw =>
    obtain ⟨-, -, -, hex⟩ := hs
    exact Writer.tagExact_commit (hex rfl) hw
  | drop w failed =>
    obtain ⟨b₀, hb, hb₀, -⟩ := hs
    exact Writer.tagExact_drop hb hb₀

theorem cleanReachable_cleanOk {s : Sys × Bool} (h : CleanReachable s) : CleanOk s := by
  induction h with
  | refl => exact fun _ h => by cases h
  | tail hr hstep ih => exact hstep.cleanOk (CleanReachable.reachable hr) ih

/-- **On clean runs, tag dictionaries are exact and `commit` counts them right.** Take
any run from the empty batch in which a transaction is committed only when none of its
`write_tag` and `write_tag_dict` calls failed past `column_mut`, and dropped otherwise;
calls of other types, and calls refused with `TypeMismatch`, may fail. Every state of it is a state of the
system. In every state between transactions, the dictionary of every tag column holds
exactly the distinct strings at the column's non-null rows, each once. And when a
transaction commits, every tag column it wrote gets as distinct count the number of
distinct strings at its non-null rows, plus one when its merged null count is not
zero. -/
theorem clean_runs_exact_dictionaries {s : Sys} {failed : Bool}
    (hs : CleanReachable (s, failed)) :
    Reachable s ∧
      (∀ b, s = .idle b → ∀ col ∈ b.columns, ∀ codes dict st, col.data = .tag codes dict st →
        dict.values.Perm col.nonNullStrings.dedup) ∧
      ∀ w w', s = .busy w → failed = false → w.commit = (.ok (), w') →
        ∀ (j : Nat) (col col' : Column), w.batch.columns[j]? = some col →
          col.valid.length ≠ w.initialRows → w'.batch.columns[j]? = some col' →
          ∀ codes dict st, col'.data = .tag codes dict st →
            st.distinctCount = Column.nonZero
              (col'.nonNullStrings.dedup.length + if st.nullCount = 0 then 0 else 1) := by
  have hr : Reachable s := CleanReachable.reachable hs
  have hok := cleanReachable_cleanOk hs
  refine ⟨hr, ?_, ?_⟩
  · rintro b rfl col hc codes dict st hd
    exact (hok col hc).perm_dedup hd
  · rintro w w' rfl hf hw j col col' hj hne hj' codes dict st hd'
    obtain ⟨-, -, -, hex⟩ := hok
    have hp : w.Pending := reachable_rowsOk hr
    have hn : 0 < w.toInsert := by
      rcases hp.valid col (List.getElem?_mem hj) with h | h <;> omega
    obtain ⟨w'', hw'', -, hk⟩ := Writer.commit_of_pending hp (reachable_shapeOk hr).2.2 hn
      (Writer.le_usizeMax_of_commit hw)
    rw [hw, Prod.mk.injEq] at hw''
    obtain rfl := hw''.2
    -- the column was written, so `commit` merged its record
    obtain ⟨hnone, hcol⟩ := hk j col hj
    obtain ⟨rec, hrec⟩ := Option.ne_none_iff_exists'.mp (mt hnone.mp hne)
    simp only [commitColumn, hrec, hj'] at hcol
    obtain ⟨-, -, hcount⟩ := Column.mergeStatistics_tag hcol hd'
    rw [hcount, (((hex hf) col (List.getElem?_mem hj)).mergeStatistics hcol).perm_dedup hd'
      |>.length_eq]

/-- A clean transaction on a fresh batch: a `write_i64` that runs out of values, then a
`write_tag` of `"a"` twice. -/
theorem clean_runs_exact_dictionaries_after_write_tag :
    let w := (((Writer.new MutableBatch.new 2).write (.i64 "x" none [1])).2.write
      (.tag "t" none ["a", "a"])).2
    CleanReachable (.busy w, false) ∧ Reachable (.busy w) ∧
      (∀ b, Sys.busy w = .idle b → ∀ col ∈ b.columns, ∀ codes dict st,
        col.data = .tag codes dict st → dict.values.Perm col.nonNullStrings.dedup) ∧
      ∀ w₁ w', Sys.busy w = .busy w₁ → false = false → w₁.commit = (.ok (), w') →
        ∀ (j : Nat) (col col' : Column), w₁.batch.columns[j]? = some col →
          col.valid.length ≠ w₁.initialRows → w'.batch.columns[j]? = some col' →
          ∀ codes dict st, col'.data = .tag codes dict st →
            st.distinctCount = Column.nonZero
              (col'.nonNullStrings.dedup.length + if st.nullCount = 0 then 0 else 1) :=
  have h : CleanReachable (.busy (((Writer.new MutableBatch.new 2).write
      (.i64 "x" none [1])).2.write (.tag "t" none ["a", "a"])).2, false) :=
    .tail (.tail (.single (.new _ 2)) (.writeErr (e := .insufficientValues) (.i64 "x" none [1])
      (Prod.ext rfl rfl))) (.writeOk (.tag "t" none ["a", "a"]) (Prod.ext rfl rfl))
  ⟨h, clean_runs_exact_dictionaries h⟩

/-- A `write_tag` of one value over two rows fails after interning `"a"`, its retry with
`"b"` and `"c"` succeeds, and the commit that follows completes: the dictionary holds
`"a"`, which no row stores, and the distinct count is `3`, for two distinct strings and
no null. -/
theorem retried_write_tag_overcounts :
    let w := ((Writer.new MutableBatch.new 2).write (.tag "t" none ["a"])).2
    ((Writer.new MutableBatch.new 2).write (.tag "t" none ["a"])).1 =
        .error (.err .insufficientValues) ∧
      (w.write (.tag "t" none ["b", "c"])).1 = .ok () ∧
      Reachable (.idle (w.write (.tag "t" none ["b", "c"])).2.commit.2.batch) ∧
      (w.write (.tag "t" none ["b", "c"])).2.commit.2.batch.columns.map
        (fun col => (col.nonNullStrings, match col.data with
          | .tag _ dict st => (dict.values, st.nullCount, st.distinctCount)
          | _ => ([], 0, none))) = [(["b", "c"], ["a", "b", "c"], 0, some 3)] :=
  ⟨rfl, rfl, .tail (.tail (.tail (.single (.new _ 2))
      (.write (.tag "t" none ["a"]) (Prod.ext rfl rfl) (by rfl)))
      (.write (.tag "t" none ["b", "c"]) (Prod.ext rfl rfl) (by rfl)))
    (.commit (Prod.ext rfl rfl)), by decide⟩

end BatchWriter
