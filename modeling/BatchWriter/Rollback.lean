import BatchWriter.Rows

/-!
# Rollback

A writer dropped without a commit cuts every column back to `initial_rows`
(`BatchWriter.Writer.drop`). This file proves when that restores the batch.

Every typed write only ever touches a column from row `initial_rows` on: it resizes
or appends to the store, stores at offsets `initial_rows + idx`, appends validity
bits, and interns new strings at the end of a tag dictionary. So through any
sequence of calls, failing and panicking ones included, each column keeps its first
`initial_rows` rows, its cumulative statistics and the front of its dictionary
(`BatchWriter.Column.Keeps`, `BatchWriter.Writer.writeAll_rollback`).

Cutting back the rows then restores them. For a tag column the dictionary is cut at
the greatest code the kept rows hold, so it comes back exactly when that code is
the last of the old dictionary (`BatchWriter.ColumnData.DictFits`). That holds when
the dictionary holds exactly the strings of the non-null rows and no row, null or
not, holds a code past its end; it fails for a null row holding a code that a later
write interns a string under (`BatchWriter.drop_keeps_stale_code`).
-/

namespace BatchWriter

/-! ### Prefixes -/

section Prefix

variable {α : Type} {t l l' : List α} {i : Nat}

theorem take_set_of_le (l : List α) {k idx : Nat} (h : k ≤ idx) (x : α) :
    (l.set idx x).take k = l.take k :=
  List.ext_getElem? fun j => by
    rw [List.getElem?_take, List.getElem?_take]
    split
    · rw [List.getElem?_set_ne (by omega)]
    · rfl

/-- A prefix stays one when the list changes only past its end. -/
theorem prefix_set_of_le (h : t <+: l) {idx : Nat} (hi : t.length ≤ idx) (x : α) :
    t <+: l.set idx x := by
  rw [List.prefix_iff_eq_take] at h ⊢
  rw [take_set_of_le _ hi]
  exact h

theorem prefix_take_of_take (h : l.take i <+: l') : l.take i <+: l'.take i := by
  rw [List.prefix_iff_eq_take] at h ⊢
  rw [List.take_take, Nat.min_eq_left (List.length_take_le _ _)]
  exact h

theorem prefix_resize (h : t <+: l) (ht : t.length ≤ i) (n : Nat) (x : α) :
    t <+: Vec.resize l (i + n) x :=
  (List.prefix_take_iff.mpr ⟨h, by omega⟩).trans (List.prefix_append _ _)

end Prefix

/-! ### What a transaction keeps of a column -/

namespace ColumnData

/-- The store `d'` keeps the first `initial_rows` rows of `d`: the same variant, the
values of `d` below `initial_rows` at the front, the same cumulative statistics, and
for a tag column a dictionary that only grew at its end. -/
def Keeps (initial_rows : Nat) : ColumnData → ColumnData → Prop
  | .f64 d s, .f64 d' s' => d.take initial_rows <+: d' ∧ s' = s
  | .i64 d s, .i64 d' s' => d.take initial_rows <+: d' ∧ s' = s
  | .u64 d s, .u64 d' s' => d.take initial_rows <+: d' ∧ s' = s
  | .string d s, .string d' s' => d.take initial_rows <+: d' ∧ s' = s
  | .bool d s, .bool d' s' => d.take initial_rows <+: d' ∧ s' = s
  | .tag d dict s, .tag d' dict' s' =>
    d.take initial_rows <+: d' ∧ dict.values <+: dict'.values ∧ s' = s
  | _, _ => False

/-- The dictionary of a tag column comes back under `truncate`: its last code is the
greatest code the store holds, and a store with no code has an empty dictionary. -/
def DictFits : ColumnData → Prop
  | .tag d dict _ =>
    match d.max? with
    | some m => (m + 1).toNat = dict.values.length
    | none => dict.values = []
  | _ => True

variable {n : Nat}

theorem Keeps.refl (n : Nat) (d : ColumnData) : d.Keeps n d := by
  cases d <;> simp [Keeps, List.take_prefix]

theorem Keeps.trans {d₁ d₂ d₃ : ColumnData} (h₁ : d₁.Keeps n d₂) (h₂ : d₂.Keeps n d₃) :
    d₁.Keeps n d₃ := by
  cases d₁ <;> cases d₂ <;> simp only [Keeps] at h₁ <;> cases d₃ <;> simp only [Keeps] at h₂ ⊢
  all_goals first
    | exact ⟨(prefix_take_of_take h₁.1).trans h₂.1, h₂.2.trans h₁.2⟩
    | exact ⟨(prefix_take_of_take h₁.1).trans h₂.1, h₁.2.1.trans h₂.2.1, h₂.2.2.trans h₁.2.2⟩

theorem Keeps.storage {d d' : ColumnData} (h : d.Keeps n d') : d'.storage = d.storage := by
  cases d <;> cases d' <;> first | rfl | simp [Keeps] at h

/-- A store that keeps the first `n` rows of a store of `n` rows has at least `n`. -/
theorem Keeps.le_len {d d' : ColumnData} (h : d.Keeps n d') (hl : d.len = n) : n ≤ d'.len := by
  have key : ∀ {α : Type} {l l' : List α}, l.take n <+: l' → l.length = n → n ≤ l'.length :=
    fun h hl => by simpa [hl] using h.length_le
  cases d <;> cases d' <;> simp only [Keeps, len] at h hl ⊢ <;> exact key h.1 hl

theorem mem_of_max?_eq_some {l : List Int} {m : Int} (h : l.max? = some m) : m ∈ l :=
  List.max?_mem (fun a b => by omega) h

theorem le_of_max?_eq_some {l : List Int} {m : Int} (h : l.max? = some m) {c : Int}
    (hc : c ∈ l) : c ≤ m :=
  (List.max?_le_iff (fun _ _ _ => by omega) h).1 (Int.le_refl m) c hc

/-- **Cutting back restores a kept store** of `n` rows whose dictionary fits. -/
theorem truncate_of_keeps {d d' : ColumnData} (h : d.Keeps n d') (hl : d.len = n)
    (hf : d.DictFits) : d'.truncate n = d := by
  have key : ∀ {α : Type} {l l' : List α}, l.take n <+: l' → l.length = n → l'.take n = l :=
    fun h hl => by
      rw [List.take_of_length_le hl.le, List.prefix_iff_eq_take, hl] at h
      exact h.symm
  cases d <;> cases d' <;> simp only [Keeps, len, DictFits] at h hl hf <;>
    try exact absurd h id
  all_goals obtain ⟨htake, rest⟩ := h
  case tag.tag d dict s d' dict' s' =>
    obtain ⟨hdict, rfl⟩ := rest
    simp only [truncate, key htake hl]
    congr 1
    split <;> rename_i hm <;> simp only [hm] at hf
    · ext1
      dsimp only [Dictionary.truncate]
      rw [hf]
      exact (List.prefix_iff_eq_take.mp hdict).symm
    · exact Dictionary.ext hf.symm
  all_goals simp [truncate, key htake hl, rest]

end ColumnData

/-! ### The steps of the loops touch rows from `initial_rows` on -/

section Steps

variable {i : Nat} {α : Type}

theorem prefix_storeAt {β : Type} {t col_data : List α} (h : t <+: col_data) {idx : Nat}
    (hi : t.length ≤ idx) (value : α) (ret : β) : t <+: (storeAt col_data idx value ret).2 := by
  unfold storeAt
  split <;> rename_i heq
  · obtain ⟨-, rfl⟩ := Vec.setAt_eq_ok.mp heq
    exact prefix_set_of_le h hi _
  · exact h

theorem prefix_putValue {t col_data : List α} (h : t <+: col_data) (ht : t.length ≤ i)
    (idx : Nat) (value : α) : t <+: (putValue i idx value col_data).2 :=
  prefix_storeAt h (by omega) _ _

theorem prefix_putBool {t col_data : List Bool} (h : t <+: col_data) (ht : t.length ≤ i)
    (idx : Nat) (value : Bool) : t <+: (putBool i idx value col_data).2 := by
  unfold putBool BitSet.set
  split_ifs
  · exact prefix_set_of_le h (by omega) _
  all_goals exact h

theorem prefix_putString {t col_data : List String} (h : t <+: col_data) (idx : Nat)
    (value : String) : t <+: (putString i idx value col_data).2 := by
  unfold putString
  split_ifs
  · rw [List.append_assoc]
    exact h.trans (List.prefix_append _ _)
  · exact h

theorem prefix_putTag {t : List Int} {s : List Int × Dictionary} (h : t <+: s.1)
    (ht : t.length ≤ i) (idx : Nat) (value : String) :
    t <+: (putTag i idx value s).2.1 ∧ s.2.values <+: (putTag i idx value s).2.2.values := by
  simp only [putTag, Prod.map_snd]
  exact ⟨prefix_storeAt h (by omega) _ _, Dictionary.prefix_lookupValueOrInsert _ _⟩

theorem prefix_putTagDict {t : List Int} {s : List Int × Dictionary × Mapping} (h : t <+: s.1)
    (ht : t.length ≤ i) (idx key : Nat) :
    t <+: (putTagDict i idx key s).2.1 ∧
      s.2.1.values <+: (putTagDict i idx key s).2.2.1.values := by
  obtain ⟨col_data, dict, mapping⟩ := s
  simp only [putTagDict]
  split
  · exact ⟨h, List.prefix_refl _⟩
  · exact ⟨prefix_storeAt h (by omega) _ _, List.prefix_refl _⟩
  · exact ⟨prefix_storeAt h (by omega) _ _, Dictionary.prefix_lookupValueOrInsert _ _⟩

end Steps

/-! ### The arms keep the first rows -/

/-- An arm keeps the first `i` rows of every store it runs on. -/
def ArmKeeps {α : Type} (i : Nat)
    (arm : ColumnData → Option (Except Exit Unit × ColumnData × StatValues α)) : Prop :=
  ∀ d r d' stats, arm d = some (r, d', stats) → d.Keeps i d'

section Arms

variable {i n : Nat} {ps : List Nat}

theorem armKeeps_fixed {α : Type} [LT α] [DecidableRel (α := α) (· < ·)] {v : FixedWidth α}
    {sto : Storage} (hv : v.Lawful sto)
    (hkeep : ∀ x y s, x.take i <+: y → (v.rebuild x s).Keeps i (v.rebuild y s))
    (vs : List α) : ArmKeeps i (fixedArm i n ps v vs) := by
  intro d r d' stats h
  cases ha : v.arm d with
  | none => simp [fixedArm, ha] at h
  | some p =>
    obtain ⟨x, s⟩ := p
    obtain rfl := hv.arm_some d x s ha
    simp only [fixedArm, ha, Option.map_some', Option.some.injEq, Prod.mk.injEq] at h
    obtain ⟨-, rfl, -⟩ := h
    exact hkeep _ _ _ (fillLoop_invariant (putValue i) (fun s => x.take i <+: s)
      (fun idx _ b s hs => prefix_putValue hs (List.length_take_le _ _) idx b)
      (prefix_resize (List.take_prefix _ _) (List.length_take_le _ _) n v.null))

theorem armKeeps_bool (vs : List Bool) : ArmKeeps i (boolArm i n ps vs) := by
  intro d r d' stats h
  cases d <;> simp only [boolArm, Option.some.injEq, Prod.mk.injEq, reduceCtorEq] at h
  obtain ⟨-, rfl, -⟩ := h
  exact ⟨fillLoop_invariant (putBool i) (fun s => _ <+: s)
    (fun idx _ b s hs => prefix_putBool hs (List.length_take_le _ _) idx b)
    ((List.take_prefix _ _).trans (List.prefix_append _ _)), rfl⟩

theorem armKeeps_string (vs : List String) : ArmKeeps i (stringArm i ps vs) := by
  intro d r d' stats h
  cases d <;> simp only [stringArm, Option.some.injEq, Prod.mk.injEq, reduceCtorEq] at h
  obtain ⟨-, rfl, -⟩ := h
  exact ⟨fillLoop_invariant (putString i) (fun s => _ <+: s)
    (fun idx _ b s hs => prefix_putString hs idx b) (List.take_prefix _ _), rfl⟩

theorem armKeeps_tag (vs : List String) : ArmKeeps i (tagArm i n ps vs) := by
  intro d r d' stats h
  cases d <;> simp only [tagArm, Option.some.injEq, Prod.mk.injEq, reduceCtorEq] at h
  obtain ⟨-, rfl, -⟩ := h
  rename_i x dict _
  have := @fillLoop_invariant _ _ _ _ _ (putTag i)
    (fun s => x.take i <+: s.1 ∧ dict.values <+: s.2.values) ps vs
    (Vec.resize x (i + n) invalidDid, dict) StatValues.newEmpty
    (fun idx _ b s hs => ⟨(prefix_putTag hs.1 (List.length_take_le _ _) idx b).1,
      hs.2.trans (prefix_putTag hs.1 (List.length_take_le _ _) idx b).2⟩)
    ⟨prefix_resize (List.take_prefix _ _) (List.length_take_le _ _) n _, List.prefix_refl _⟩
  exact ⟨this.1, this.2, rfl⟩

theorem armKeeps_tagDict (keys : List Nat) (vs : List String) :
    ArmKeeps i (tagDictArm i n ps keys vs) := by
  intro d r d' stats h
  cases d <;> simp only [tagDictArm, Option.some.injEq, Prod.mk.injEq, reduceCtorEq] at h
  obtain ⟨-, rfl, -⟩ := h
  rename_i x dict _
  have := @fillLoop_invariant _ _ _ _ _ (putTagDict i)
    (fun s => x.take i <+: s.1 ∧ dict.values <+: s.2.1.values) ps keys
    (Vec.resize x (i + n) invalidDid, dict, vs.map fun value => (value, none)) StatValues.newEmpty
    (fun idx _ k s hs => ⟨(prefix_putTagDict hs.1 (List.length_take_le _ _) idx k).1,
      hs.2.trans (prefix_putTagDict hs.1 (List.length_take_le _ _) idx k).2⟩)
    ⟨prefix_resize (List.take_prefix _ _) (List.length_take_le _ _) n _, List.prefix_refl _⟩
  exact ⟨this.1, this.2, rfl⟩

end Arms

/-! ### Columns -/

namespace Column

/-- The column `c'` keeps the first `initial_rows` rows of `c`: its type, its first
`initial_rows` validity bits, and what `BatchWriter.ColumnData.Keeps` keeps of its
store. -/
def Keeps (initial_rows : Nat) (c c' : Column) : Prop :=
  c'.influxType = c.influxType ∧ c.valid.take initial_rows <+: c'.valid ∧
    c.data.Keeps initial_rows c'.data

/-- A column that `truncate` gives back: `initial_rows` validity bits and stored
values, and a dictionary that fits. -/
def Restorable (initial_rows : Nat) (c : Column) : Prop :=
  c.valid.length = initial_rows ∧ c.data.len = initial_rows ∧ c.data.DictFits

variable {n : Nat} {c c' c'' : Column}

theorem Keeps.refl (n : Nat) (c : Column) : c.Keeps n c :=
  ⟨rfl, List.take_prefix _ _, .refl n c.data⟩

theorem Keeps.trans (h : c.Keeps n c') (h' : c'.Keeps n c'') : c.Keeps n c'' :=
  ⟨h'.1.trans h.1, (prefix_take_of_take h.2.1).trans h'.2.1, h.2.2.trans h'.2.2⟩

/-- A column that keeps the first `n` rows of a column of `n` rows has at least `n`
validity bits and stored values. -/
theorem Keeps.le_len (h : c.Keeps n c') (hr : c.Restorable n) :
    n ≤ c'.valid.length ∧ n ≤ c'.data.len := by
  refine ⟨?_, h.2.2.le_len hr.2.1⟩
  simpa [hr.1] using h.2.1.length_le

/-- **Cutting back restores a kept column** that `truncate` gives back. -/
theorem truncate_of_keeps (h : c.Keeps n c') (hr : c.Restorable n) : c'.truncate n = c := by
  obtain ⟨hty, hv, hd⟩ := h
  obtain ⟨hvl, hdl, hf⟩ := hr
  rw [List.take_of_length_le hvl.le, List.prefix_iff_eq_take, hvl] at hv
  cases c
  cases c'
  simp_all [truncate, ColumnData.truncate_of_keeps hd hdl hf]

theorem restorable_new (n : Nat) (t : InfluxColumnType) : (Column.new n t).Restorable n := by
  refine ⟨by simp, by simp, ?_⟩
  cases t with
  | tag =>
    simp only [data_new, ColumnData.new, ColumnData.DictFits, invalidDid,
      List.max?_replicate (show max (-1 : Int) (-1) = -1 by omega)]
    by_cases hn : n = 0 <;> simp [hn, Dictionary.empty]
  | field f => cases f <;> trivial
  | timestamp => trivial

end Column

/-! ### One call keeps the first rows of its column -/

section Resolved

variable {α : Type} {i n : Nat} {valid_mask : Option (List UInt8)}
  {wrap : StatValues α → Statistics}
  {body : ColumnData → Option (Except Exit Unit × ColumnData × StatValues α)} {col : Column}

theorem writeResolved_keeps (hb : ArmKeeps i body) :
    col.Keeps i (writeResolved n valid_mask wrap body col).2.1 := by
  obtain ⟨r, col', st, h⟩ : ∃ r col' st, writeResolved n valid_mask wrap body col = (r, col', st) :=
    ⟨_, _, _, rfl⟩
  rw [h]
  rcases writeResolved_cases h with
    ⟨-, -, rfl, -⟩ | ⟨r₀, data, stats, hbody, ⟨-, -, rfl⟩ | ⟨-, rfl, -⟩⟩
  · exact .refl i _
  · exact ⟨rfl, List.take_prefix _ _, hb _ _ _ _ hbody⟩
  · exact ⟨rfl, (List.take_prefix _ _).trans (List.prefix_append _ _), hb _ _ _ _ hbody⟩

end Resolved

/-- **A write call keeps the first `initial_rows` rows of the column it works on**,
whatever it returns. -/
theorem WriteCall.apply_keeps (c : WriteCall) {i n : Nat} {col : Column} :
    col.Keeps i (c.apply i n col).2.1 := by
  cases c with
  | f64 => exact writeResolved_keeps (armKeeps_fixed FixedWidth.lawful_f64
      (fun _ _ _ h => ⟨h, rfl⟩) _)
  | i64 => exact writeResolved_keeps (armKeeps_fixed FixedWidth.lawful_i64
      (fun _ _ _ h => ⟨h, rfl⟩) _)
  | u64 => exact writeResolved_keeps (armKeeps_fixed FixedWidth.lawful_u64
      (fun _ _ _ h => ⟨h, rfl⟩) _)
  | bool => exact writeResolved_keeps (armKeeps_bool _)
  | string => exact writeResolved_keeps (armKeeps_string _)
  | tag => exact writeResolved_keeps (armKeeps_tag _)
  | tagDict => exact writeResolved_keeps (armKeeps_tagDict _ _)
  | time => exact writeResolved_keeps (armKeeps_fixed FixedWidth.lawful_i64
      (fun _ _ _ h => ⟨h, rfl⟩) _)

/-! ### A transaction keeps the first rows of every column -/

/-- What a live writer keeps of the batch `b` it was opened on: the rows and the
names, the first `row_count` rows of every column `b` had, and of every column it
created, those of a fresh column. -/
structure Writer.Rollback (b : MutableBatch) (w : Writer) : Prop where
  initialRows : w.initialRows = b.rowCount
  success : w.success = false
  rowCount : w.batch.rowCount = b.rowCount
  names : b.columnNames <+: w.batch.columnNames
  namesOk : w.batch.NamesOk
  old : ∀ (j : Nat) (c₀ : Column), b.columns[j]? = some c₀ →
    ∃ c, w.batch.columns[j]? = some c ∧ c₀.Keeps b.rowCount c
  new : ∀ (j : Nat) (c : Column), w.batch.columns[j]? = some c → b.columns.length ≤ j →
    (Column.new b.rowCount c.influxType).Keeps b.rowCount c

namespace Writer

variable {b : MutableBatch} {w : Writer}

theorem rollback_new (hn : b.NamesOk) (n : Nat) : (Writer.new b n).Rollback b where
  initialRows := rfl
  success := rfl
  rowCount := rfl
  names := List.prefix_refl _
  namesOk := hn
  old _ c₀ h := ⟨c₀, h, .refl _ c₀⟩
  new j c h hj := absurd ((List.getElem?_eq_none hj).symm.trans h) (by simp)

/-- **Every write call keeps the first rows of every column**, whatever it returns:
`Ok`, an error, or a panic part way. -/
theorem rollback_write (h : w.Rollback b) (c : WriteCall) : (w.write c).2.Rollback b := by
  obtain ⟨r, w', hw⟩ : ∃ r w', w.write c = (r, w') := ⟨_, _, rfl⟩
  rw [hw]
  obtain ⟨hi, -, hs, hrow, hpre, -⟩ := write_frame h.namesOk hw
  rcases write_index h.namesOk hw with ⟨rfl, -⟩ | ⟨idx, col, hcol, -, -, -, hget, -⟩
  · exact h
  have hi₀ := h.initialRows
  -- the fresh column a new name gets keeps the first rows of a fresh column
  have hfresh : (Column.new b.rowCount col.influxType).Keeps b.rowCount col ∨
      ∃ c₀, b.columns[idx]? = some c₀ ∧ c₀.Keeps b.rowCount col := by
    rcases hcol with hcol | ⟨-, rfl⟩
    · cases hj : b.columns[idx]? with
      | none => exact .inl (h.new idx col hcol (List.getElem?_eq_none_iff.mp hj))
      | some c₀ =>
        obtain ⟨x, hx, hk⟩ := h.old idx c₀ hj
        obtain rfl : x = col := Option.some.inj (hx.symm.trans hcol)
        exact .inr ⟨c₀, rfl, hk⟩
    · exact .inl (by rw [hi₀]; exact .refl _ _)
  have hcall : col.Keeps b.rowCount (c.apply w.initialRows w.toInsert col).2.1 :=
    hi₀ ▸ c.apply_keeps
  have hty := (c.apply_shape w.initialRows w.toInsert col).1
  refine ⟨hi.trans hi₀, hs.trans h.success, hrow.trans h.rowCount, h.names.trans hpre,
    write_namesOk h.namesOk hw, fun j c₀ hj => ?_, fun j x hx hj => ?_⟩
  · obtain ⟨x, hx, hk⟩ := h.old j c₀ hj
    rw [hget]
    by_cases hji : j = idx
    · subst hji
      obtain rfl := eq_of_write_index hcol hx
      exact ⟨_, if_pos rfl, hk.trans hcall⟩
    · exact ⟨x, by rw [if_neg hji, hx], hk⟩
  · rw [hget] at hx
    split_ifs at hx with hji
    · cases hx
      rw [hty]
      rcases hfresh with hk | ⟨c₀, hc₀, -⟩
      · exact hk.trans hcall
      · exact absurd (List.getElem?_eq_some_iff.mp hc₀).1 (by omega)
    · exact h.new j x hx hj

/-- **A transaction keeps the first rows of every column**, through every call up to
the first that panics. -/
theorem rollback_writeAll (h : w.Rollback b) (calls : List WriteCall) :
    (w.writeAll calls).Rollback b := by
  induction calls generalizing w with
  | nil => exact h
  | cons c cs ih =>
    have h' := rollback_write h c
    simp only [writeAll]
    split <;> rename_i heq <;> rw [heq] at h'
    · exact h'
    · exact ih h'

end Writer

/-! ### Which batches a rollback restores -/

namespace Column

/-- The dictionary of a tag column holds exactly the distinct strings at its non-null
rows. -/
def DictExact (c : Column) : Prop :=
  match c.data with
  | .tag codes dict _ =>
    ∀ s, s ∈ dict.values ↔
      ∃ r : Nat, c.valid[r]? = some true ∧ (codes[r]?.bind dict.lookupId) = some s
  | _ => True

/-- No code a tag column stores, at a null row or not, is past the end of its
dictionary. -/
def CodesBelow (c : Column) : Prop :=
  match c.data with
  | .tag codes dict _ => ∀ code ∈ codes, code < dict.values.length
  | _ => True

/-- A code a non-null row decodes to is in the dictionary anyway, so a tag column is
exact when each entry of its dictionary is stored at one of its non-null rows. -/
theorem dictExact_tag_iff {c : Column} {codes : List Int} {dict : Dictionary}
    {s : StatValues String} (h : c.data = .tag codes dict s) :
    c.DictExact ↔ ∀ x ∈ dict.values, ∃ r < c.valid.length,
      c.valid[r]? = some true ∧ (codes[r]?.bind dict.lookupId) = some x := by
  simp only [DictExact, h]
  refine ⟨fun he x hx => ?_, fun hall x => ⟨fun hx => ?_, fun ⟨_, _, hr⟩ => ?_⟩⟩
  · obtain ⟨r, hv, hr⟩ := (he x).mp hx
    exact ⟨r, (List.getElem?_eq_some_iff.mp hv).1, hv, hr⟩
  · obtain ⟨r, -, hv, hr⟩ := hall x hx
    exact ⟨r, hv, hr⟩
  · obtain ⟨code, -, hcode⟩ := Option.bind_eq_some.mp hr
    exact Dictionary.mem_of_lookupId hcode

instance (c : Column) : Decidable c.DictExact :=
  match h : c.data with
  | .tag codes dict _ => decidable_of_iff _ (dictExact_tag_iff h).symm
  | .f64 .. | .i64 .. | .u64 .. | .string .. | .bool .. => isTrue (by simp [DictExact, h])

instance (c : Column) : Decidable c.CodesBelow :=
  match h : c.data with
  | .tag codes dict _ =>
    decidable_of_iff (∀ code ∈ codes, code < dict.values.length) (by simp [CodesBelow, h])
  | .f64 .. | .i64 .. | .u64 .. | .string .. | .bool .. => isTrue (by simp [CodesBelow, h])

/-- A column of `n` rows whose dictionary holds exactly the strings of its non-null
rows, and no code past its end, is one `truncate` gives back: its greatest code is
the last of its dictionary. -/
theorem restorable_of_dictExact {n : Nat} {c : Column} (hv : c.valid.length = n)
    (hd : c.data.len = n) (he : c.DictExact) (hc : c.CodesBelow) : c.Restorable n := by
  refine ⟨hv, hd, ?_⟩
  rcases c with ⟨t, valid, _ | _ | _ | _ | _ | ⟨codes, dict, s⟩⟩ <;> try trivial
  simp only [DictExact, CodesBelow] at he hc
  show match codes.max? with
    | some m => (m + 1).toNat = dict.values.length
    | none => dict.values = []
  cases hm : codes.max? with
  | none =>
    rw [List.max?_eq_none_iff.mp hm] at he
    exact List.eq_nil_iff_forall_not_mem.mpr fun s hs => by simpa using (he s).mp hs
  | some m =>
    show (m + 1).toNat = dict.values.length
    have hlt := hc m (ColumnData.mem_of_max?_eq_some hm)
    rcases Nat.eq_zero_or_pos dict.values.length with h0 | hpos
    · omega
    · -- the last entry is stored at a non-null row, under the code `length - 1`
      obtain ⟨r, -, hr⟩ := (he _).mp (List.getElem_mem (show dict.values.length - 1 < _ by omega))
      cases hcode : codes[r]? with
      | none => simp [hcode] at hr
      | some code =>
        simp only [hcode, Option.some_bind, Dictionary.lookupId] at hr
        split_ifs at hr with h0c
        have hlast := List.getElem?_inj (List.getElem?_eq_some_iff.mp hr).1 dict.nodup
          (hr.trans (List.getElem?_eq_getElem _).symm)
        have := ColumnData.le_of_max?_eq_some hm (List.getElem?_mem hcode)
        omega

end Column

/-- **A dropped transaction restores the batch.** Take a batch with a well-formed name
index in which every column has `row_count` validity bits and stored values, and
every tag column's dictionary holds exactly the distinct strings at its non-null
rows, with no code past its end. Open a writer on it, make any calls, each of which
may succeed, fail or panic (the calls after a panic are not made), and drop it
without a commit: the row count is the old one, every old column is exactly what it
was, validity bits, values, cumulative statistics and dictionary, and every column
the transaction created is a fresh column of `row_count` null rows, registered under
its name at its position. -/
theorem drop_restores {b : MutableBatch} (hn : b.NamesOk)
    (hb : ∀ col ∈ b.columns, col.valid.length = b.rowCount ∧ col.data.len = b.rowCount ∧
      col.DictExact ∧ col.CodesBelow)
    (n : Nat) (calls : List WriteCall) :
    ((Writer.new b n).writeAll calls).drop.rowCount = b.rowCount ∧
      b.columnNames <+: ((Writer.new b n).writeAll calls).drop.columnNames ∧
      (∀ (j : Nat) (col : Column), b.columns[j]? = some col →
        ((Writer.new b n).writeAll calls).drop.columns[j]? = some col) ∧
      ∀ (j : Nat) (col : Column), ((Writer.new b n).writeAll calls).drop.columns[j]? = some col →
        b.columns.length ≤ j → col = Column.new b.rowCount col.influxType ∧
          ∃ name, (name, j) ∈ ((Writer.new b n).writeAll calls).drop.columnNames := by
  have hr : ∀ c ∈ b.columns, c.Restorable b.rowCount := fun c hc =>
    Column.restorable_of_dictExact (hb c hc).1 (hb c hc).2.1 (hb c hc).2.2.1 (hb c hc).2.2.2
  have h := Writer.rollback_writeAll (Writer.rollback_new hn n) calls
  set w := (Writer.new b n).writeAll calls
  have hcols : w.drop.columns = w.batch.columns.map (·.truncate b.rowCount) := by
    rw [Writer.drop_columns_of_not_success h.success, h.initialRows]
  refine ⟨by rw [Writer.drop_rowCount, h.rowCount], by rw [Writer.drop_columnNames]; exact h.names,
    fun j col hj => ?_, fun j col hj hle => ?_⟩
  · obtain ⟨c, hc, hk⟩ := h.old j col hj
    rw [hcols, List.getElem?_map, hc, Option.map_some',
      Column.truncate_of_keeps hk (hr col (List.getElem?_mem hj))]
  · rw [hcols, List.getElem?_map] at hj
    obtain ⟨c, hc, rfl⟩ := Option.map_eq_some'.mp hj
    refine ⟨by rw [Column.truncate_of_keeps (h.new j c hc hle) (Column.restorable_new _ _)]; rfl,
      ?_⟩
    have hlt : j ∈ w.batch.columnNames.map Prod.snd := by
      rw [h.namesOk.1]
      exact List.mem_range.mpr (List.getElem?_eq_some_iff.mp hc).1
    obtain ⟨p, hp, rfl⟩ := List.mem_map.mp hlt
    exact ⟨p.1, by rw [Writer.drop_columnNames]; exact hp⟩

/-- A batch of two committed rows, whose tag column `"t"` holds `"a"` and `"b"` and whose
tag column `"u"` is null at both. A transaction writes `"x"` to `"u"`, `"c"` to `"t"`
and `"y"` to the new `"v"`, and is dropped. -/
theorem drop_restores_after_commit :
    let b := (((Writer.new MutableBatch.new 2).write (.tag "t" none ["a", "b"])).2.write
      (.tag "u" (some [0]) [])).2.commit.2.batch
    let calls : List WriteCall := [.tag "u" none ["x"], .tag "t" none ["c"], .tag "v" none ["y"]]
    b.columns.map (fun col => (col.valid, col.data.len)) =
        [([true, true], 2), ([false, false], 2)] ∧
      b.NamesOk ∧
      (∀ col ∈ b.columns, col.valid.length = b.rowCount ∧ col.data.len = b.rowCount ∧
        col.DictExact ∧ col.CodesBelow) ∧
      ((Writer.new b 1).writeAll calls).drop.rowCount = b.rowCount ∧
      b.columnNames <+: ((Writer.new b 1).writeAll calls).drop.columnNames ∧
      (∀ (j : Nat) (col : Column), b.columns[j]? = some col →
        ((Writer.new b 1).writeAll calls).drop.columns[j]? = some col) ∧
      ∀ (j : Nat) (col : Column), ((Writer.new b 1).writeAll calls).drop.columns[j]? = some col →
        b.columns.length ≤ j → col = Column.new b.rowCount col.influxType ∧
          ∃ name, (name, j) ∈ ((Writer.new b 1).writeAll calls).drop.columnNames :=
  have hn : (((Writer.new MutableBatch.new 2).write (.tag "t" none ["a", "b"])).2.write
      (.tag "u" (some [0]) [])).2.commit.2.batch.NamesOk := ⟨rfl, by decide⟩
  have hb : ∀ col ∈ (((Writer.new MutableBatch.new 2).write (.tag "t" none ["a", "b"])).2.write
      (.tag "u" (some [0]) [])).2.commit.2.batch.columns,
      col.valid.length = (((Writer.new MutableBatch.new 2).write
        (.tag "t" none ["a", "b"])).2.write (.tag "u" (some [0]) [])).2.commit.2.batch.rowCount ∧
      col.data.len = (((Writer.new MutableBatch.new 2).write
        (.tag "t" none ["a", "b"])).2.write (.tag "u" (some [0]) [])).2.commit.2.batch.rowCount ∧
      col.DictExact ∧ col.CodesBelow := by decide
  ⟨by decide, hn, hb, drop_restores hn hb 1 _⟩

/-- A batch of one row whose tag column is null there but stores the code `0`, with
an empty dictionary: the name index is well formed, every column has one validity
bit and one stored code, and the dictionary holds exactly the strings of the
non-null rows. A `write_tag` of `"x"` interns it under code `0`, and the rollback
cuts the dictionary at the greatest kept code, `0`, so `"x"` stays. -/
theorem drop_keeps_stale_code :
    let b : MutableBatch :=
      ⟨[⟨.tag, [false], .tag [0] Dictionary.empty (StatValues.newAllNull 1)⟩], [("t", 0)], 1⟩
    b.NamesOk ∧
      (∀ col ∈ b.columns, col.valid.length = b.rowCount ∧ col.data.len = b.rowCount ∧
        col.DictExact) ∧
      ((Writer.new b 1).writeAll [.tag "t" none ["x"]]).drop.columns.map
        (fun col => match col.data with | .tag _ dict _ => dict.values | _ => []) = [["x"]] := by
  refine ⟨⟨rfl, by simp⟩, ?_, by decide⟩
  simp only [List.mem_singleton, forall_eq, Column.DictExact, Dictionary.empty]
  refine ⟨rfl, rfl, fun s => ?_⟩
  simp only [List.not_mem_nil, false_iff, not_exists, not_and]
  intro r hr
  match r, hr with
  | 0, hr => simp at hr

end BatchWriter
