import BatchWriter.Rollback

/-!
# Every set row holds a value

A validity bit says that a row has a value. This file proves that the store holds one
there in every reachable state: a number, a bit or a string, and for a tag column a
code that decodes to a string of the dictionary (`BatchWriter.reachable_filled`).

A typed write sets validity bits only when it succeeds, and only at the positions its
loop visited; each step of the loop stores a value at its own position, and no later
step removes it (`BatchWriter.fillLoop_mem`). A `false` of `write_bool` is a bit the
loop never touches, so it is a value only because the store has a slot for the row:
every store but a string store keeps a slot for every validity bit, which is the
other half of the invariant (`BatchWriter.Column.Filled`). `commit` pads with null
rows and merges statistics, and neither moves a value. A rollback cuts rows back,
and it cuts a tag dictionary back only past the greatest code the kept rows hold, so
a kept code keeps its string (`BatchWriter.ColumnData.value?_truncate`).

Between transactions, then, every column has one validity bit per row and every store
but a string store a slot for each (`BatchWriter.reachable_valid_rows`). A store can
hold more: a failed write that grew it before its loop stopped leaves it longer once
`commit` pads the column (`BatchWriter.bool_store_after_failed_write`).
-/

namespace BatchWriter

/-! ### Values at a row -/

section Lists

variable {α : Type} {l l' : List α} {r : Nat}

theorem isSome_getElem?_iff : l[r]?.isSome ↔ r < l.length := by
  rw [Option.isSome_iff_ne_none, Ne, List.getElem?_eq_none_iff, Nat.not_le]

theorem prefix_getElem?_eq_some (h : l <+: l') {a : α} (ha : l[r]? = some a) : l'[r]? = some a := by
  obtain ⟨t, rfl⟩ := h
  rw [List.getElem?_append_left (List.getElem?_eq_some_iff.mp ha).1, ha]

end Lists

namespace ColumnData

variable {d d' : ColumnData} {i r : Nat}

/-- Outside a tag column, a row has a value exactly when the store reaches it. -/
theorem isSome_value?_iff (h : d.storage ≠ .tag) : (d.value? r).isSome ↔ r < d.len := by
  cases d <;> simp [value?, len, storage, isSome_getElem?_iff] at h ⊢

/-- A row of a tag column has a value when its code decodes. -/
@[simp] theorem isSome_value?_tag (codes : List Int) (dict : Dictionary) (s : StatValues String) :
    ((ColumnData.tag codes dict s).value? r).isSome = ((codes[r]?).bind dict.lookupId).isSome := by
  simp only [value?, Option.isSome_map']

/-- **A kept store keeps the value of every row it keeps**, a tag row's string
included. -/
theorem Keeps.value? (h : d.Keeps i d') (hr : r < i) {v : Float ⊕ Int ⊕ UInt64 ⊕ String ⊕ Bool}
    (hv : d.value? r = some v) : d'.value? r = some v := by
  have key : ∀ {α : Type} {l l' : List α} {a : α}, l.take i <+: l' → l[r]? = some a →
      l'[r]? = some a :=
    fun h ha => prefix_getElem?_eq_some h (by rw [List.getElem?_take, if_pos hr, ha])
  cases d <;> cases d' <;> simp only [Keeps] at h <;> try exact absurd h id
  all_goals simp only [ColumnData.value?, Option.map_eq_some'] at hv ⊢
  case tag.tag =>
    obtain ⟨a, hb, rfl⟩ := hv
    obtain ⟨c, hc, hl⟩ := Option.bind_eq_some.mp hb
    exact ⟨a, Option.bind_eq_some.mpr ⟨c, key h.1 hc, Dictionary.lookupId_of_prefix h.2.1 hl⟩, rfl⟩
  all_goals
    obtain ⟨a, ha, rfl⟩ := hv
    exact ⟨a, key h.1 ha, rfl⟩

/-- Null rows appended after a store leave the value of every row it had. -/
theorem value?_pushNulls (k : Nat) {v : Float ⊕ Int ⊕ UInt64 ⊕ String ⊕ Bool}
    (hv : d.value? r = some v) : (d.pushNulls k).value? r = some v := by
  cases d <;> simp only [pushNulls, ColumnData.value?, Option.map_eq_some'] at hv ⊢
  case tag =>
    obtain ⟨a, hb, rfl⟩ := hv
    obtain ⟨c, hc, hl⟩ := Option.bind_eq_some.mp hb
    exact ⟨a, Option.bind_eq_some.mpr
      ⟨c, prefix_getElem?_eq_some (List.prefix_append _ _) hc, hl⟩, rfl⟩
  all_goals
    obtain ⟨a, ha, rfl⟩ := hv
    exact ⟨a, prefix_getElem?_eq_some (List.prefix_append _ _) ha, rfl⟩

/-- **Cutting a store back to `n` rows keeps the value of every row below `n`**, a tag
row's string included: the dictionary is cut only past the greatest code the kept rows
hold. -/
theorem value?_truncate (d : ColumnData) {n : Nat} (hr : r < n) :
    (d.truncate n).value? r = d.value? r := by
  cases d with
  | tag codes dict s =>
    simp only [truncate, ColumnData.value?]
    rw [List.getElem?_take, if_pos hr]
    congr 1
    cases hc : codes[r]? with
    | none => rfl
    | some c =>
      have hmem : c ∈ codes.take n :=
        List.getElem?_mem (by rw [List.getElem?_take, if_pos hr, hc])
      simp only [Option.some_bind]
      split
      · exact Dictionary.lookupId_truncate _ (le_of_max?_eq_some ‹_› hmem)
      · rename_i hm
        simp [List.max?_eq_none_iff.mp hm] at hmem
  | _ => simp [truncate, ColumnData.value?, List.getElem?_take, hr]

@[simp] theorem len_truncate (d : ColumnData) (n : Nat) : (d.truncate n).len = min d.len n := by
  cases d <;> simp [truncate, len, Nat.min_comm]

end ColumnData

/-- The statistics merge of `commit` leaves every row's value. -/
theorem Column.value?_mergeStatistics {col col' : Column} {rec : Statistics}
    (h : col.mergeStatistics rec = some col') (r : Nat) :
    col'.data.value? r = col.data.value? r := by
  rcases col with ⟨t, v, d⟩
  cases d <;> cases rec <;> simp [Column.mergeStatistics] at h <;> subst h <;> rfl

/-! ### The steps of the loops store at their position -/

section Steps

variable {α β : Type} {i idx : Nat}

@[simp] theorem storeAt_snd (col_data : List α) (idx : Nat) (value : α) (ret : β) :
    (storeAt col_data idx value ret).2 = col_data.set idx value := by
  unfold storeAt
  split <;> rename_i heq
  · exact (Vec.setAt_eq_ok.mp heq).2
  · unfold Vec.setAt at heq
    split_ifs at heq with h
    exact (List.set_eq_of_length_le (Nat.not_lt.mp h)).symm

theorem lt_of_storeAt_ok {col_data : List α} {value : α} {ret a : β}
    (h : (storeAt col_data idx value ret).1 = .ok a) : idx < col_data.length := by
  unfold storeAt Vec.setAt at h
  split_ifs at h with hl
  exact hl

@[simp] theorem length_putValue (value : α) (col_data : List α) :
    (putValue i idx value col_data).2.length = col_data.length := by
  simp [putValue]

@[simp] theorem length_putBool (value : Bool) (col_data : List Bool) :
    (putBool i idx value col_data).2.length = col_data.length := by
  unfold putBool BitSet.set
  split_ifs <;> simp

theorem length_le_putString (value : String) (col_data : List String) :
    col_data.length ≤ (putString i idx value col_data).2.length := by
  unfold putString
  split_ifs <;> simp

theorem lt_of_putString_ok {value a : String} {col_data : List String}
    (h : (putString i idx value col_data).1 = .ok a) :
    i + idx < (putString i idx value col_data).2.length := by
  unfold putString at h ⊢
  split_ifs at h ⊢ with hl
  simp
  omega

/-- A row whose code decodes keeps decoding, and the row a code is stored at decodes,
when the stored code decodes and the dictionary only grew. -/
theorem decodes_set {codes : List Int} {dict dict' : Dictionary} {k r : Nat} {did : Int}
    (hd : dict.values <+: dict'.values) (hdid : (dict'.lookupId did).isSome)
    (h : ((codes[r]?).bind dict.lookupId).isSome ∨ (r = k ∧ k < codes.length)) :
    (((codes.set k did)[r]?).bind dict'.lookupId).isSome := by
  rw [List.getElem?_set]
  split_ifs with h1 h2
  · exact hdid
  · rcases h with h | ⟨-, h⟩
    · rw [List.getElem?_eq_none_iff.mpr (by omega)] at h
      simp at h
    · exact absurd h h2
  · rcases h with h | ⟨rfl, -⟩
    · obtain ⟨v, hv⟩ := Option.isSome_iff_exists.mp h
      obtain ⟨c, hc, hl⟩ := Option.bind_eq_some.mp hv
      rw [hc, Option.some_bind, Dictionary.lookupId_of_prefix hd hl]
      rfl
    · exact absurd rfl h1

theorem putTag_snd (value : String) (s : List Int × Dictionary) :
    (putTag i idx value s).2 =
      (s.1.set (i + idx) (s.2.lookupValueOrInsert value).1, (s.2.lookupValueOrInsert value).2) := by
  simp [putTag]

@[simp] theorem length_putTag (value : String) (s : List Int × Dictionary) :
    (putTag i idx value s).2.1.length = s.1.length := by
  simp [putTag_snd]

theorem putTag_fst (value : String) (s : List Int × Dictionary) :
    (putTag i idx value s).1 = (storeAt s.1 (i + idx) (s.2.lookupValueOrInsert value).1 value).1 :=
  rfl

/-- The codes the local table of `write_tag_dict` has resolved stand for their strings
in the dictionary. -/
def Mapping.Decodes (mapping : Mapping) (dict : Dictionary) : Prop :=
  ∀ value did, (value, some did) ∈ mapping → dict.lookupId did = some value

/-- **One step of `write_tag_dict`**, on a table whose resolved codes decode: it fails
on a key past the table and changes nothing, or it stores a code that decodes in a
dictionary that only grew, and the table's resolved codes still decode. -/
theorem putTagDict_spec (key : Nat) {s : List Int × Dictionary × Mapping}
    (hs : s.2.2.Decodes s.2.1) :
    (putTagDict i idx key s).2 = s ∧ (∀ a, (putTagDict i idx key s).1 ≠ .ok a) ∨
      ∃ did, (putTagDict i idx key s).2.1 = s.1.set (i + idx) did ∧
        (∀ a, (putTagDict i idx key s).1 = .ok a → i + idx < s.1.length) ∧
        s.2.1.values <+: (putTagDict i idx key s).2.2.1.values ∧
        ((putTagDict i idx key s).2.2.1.lookupId did).isSome ∧
        (putTagDict i idx key s).2.2.2.Decodes (putTagDict i idx key s).2.2.1 := by
  obtain ⟨col_data, dict, mapping⟩ := s
  simp only [putTagDict]
  split
  · exact .inl ⟨rfl, by simp⟩
  · rename_i value did hk
    refine .inr ⟨did, by simp, fun a ha => lt_of_storeAt_ok
      (show (storeAt col_data (i + idx) did value).1 = .ok a from ha), List.prefix_refl _,
      by simp [hs value did (List.getElem?_mem hk)], hs⟩
  · rename_i value hk
    refine .inr ⟨(dict.lookupValueOrInsert value).1, by simp, fun a ha => lt_of_storeAt_ok
      (show (storeAt col_data (i + idx) _ value).1 = .ok a from ha),
      Dictionary.prefix_lookupValueOrInsert _ _,
      by simp [Dictionary.lookupId_lookupValueOrInsert], fun v d hv => ?_⟩
    simp only [Prod.map_snd] at hv ⊢
    rcases List.mem_or_eq_of_mem_set hv with hv | hv
    · exact Dictionary.lookupId_of_prefix (Dictionary.prefix_lookupValueOrInsert _ _) (hs v d hv)
    · simp only [Prod.mk.injEq, Option.some.injEq] at hv
      obtain ⟨rfl, rfl⟩ := hv
      exact Dictionary.lookupId_lookupValueOrInsert _ _

@[simp] theorem length_putTagDict (key : Nat) (s : List Int × Dictionary × Mapping) :
    (putTagDict i idx key s).2.1.length = s.1.length := by
  simp only [putTagDict]
  split <;> simp

end Steps

/-! ### The arms store a value at every position they visit -/

/-- What an arm leaves of a store for the validity bits a write may set: on a store
other than a string store that had a slot for each row before the write, a slot for
each row of the write; and when the arm succeeds, a value at each position it
visited. -/
def ArmFills {α : Type} (i n : Nat) (ps : List Nat)
    (arm : ColumnData → Option (Except Exit Unit × ColumnData × StatValues α)) : Prop :=
  ∀ d r d' stats, arm d = some (r, d', stats) → (d.storage ≠ .string → i ≤ d.len) →
    (d.storage ≠ .string → i + n ≤ d'.len) ∧ (r = .ok () → ∀ p ∈ ps, (d'.value? (i + p)).isSome)

section Arms

variable {i n : Nat} {ps : List Nat}

theorem armFills_fixed {α : Type} [LT α] [DecidableRel (α := α) (· < ·)] {v : FixedWidth α}
    {sto : Storage} (hv : v.Lawful sto) (hsto : sto ≠ .tag)
    (hlen : ∀ x s, (v.rebuild x s).len = x.length) (hps : ∀ p ∈ ps, p < n) (vs : List α) :
    ArmFills i n ps (fixedArm i n ps v vs) := by
  intro d r d' stats h _
  cases ha : v.arm d with
  | none => simp [fixedArm, ha] at h
  | some p =>
    obtain ⟨x, s⟩ := p
    simp only [fixedArm, ha, Option.map_some', Option.some.injEq, Prod.mk.injEq] at h
    obtain ⟨-, rfl, -⟩ := h
    have hl : (v.rebuild (fillLoop (putValue i) ps vs (Vec.resize x (i + n) v.null)
        StatValues.newEmpty).2.1 s).len = i + n :=
      (hlen _ _).trans (fillLoop_invariant (putValue i) (fun s => s.length = i + n)
        (fun _ _ _ _ hs => (length_putValue _ _).trans hs) (Vec.length_resize _ _ _))
    refine ⟨fun _ => hl.ge, fun _ p hp => ?_⟩
    rw [ColumnData.isSome_value?_iff (by rw [hv.storage_rebuild]; exact hsto), hl]
    have := hps p hp
    omega

theorem armFills_bool (hps : ∀ p ∈ ps, p < n) (vs : List Bool) :
    ArmFills i n ps (boolArm i n ps vs) := by
  intro d r d' stats h hd
  cases d <;> simp only [boolArm, Option.some.injEq, Prod.mk.injEq, reduceCtorEq] at h
  obtain ⟨-, rfl, -⟩ := h
  rename_i x s
  have hx : i ≤ x.length := hd (by simp [ColumnData.storage])
  have hl : (fillLoop (putBool i) ps vs (x ++ List.replicate n false)
      StatValues.newEmpty).2.1.length = x.length + n :=
    fillLoop_invariant (putBool i) (fun s => s.length = x.length + n)
      (fun _ _ _ _ hs => (length_putBool _ _).trans hs) (by simp)
  refine ⟨fun _ => by simp only [ColumnData.len, hl]; omega, fun _ p hp => ?_⟩
  rw [ColumnData.isSome_value?_iff (by simp [ColumnData.storage]), ColumnData.len, hl]
  have := hps p hp
  omega

theorem armFills_string (vs : List String) : ArmFills i n ps (stringArm i ps vs) := by
  intro d r d' stats h _
  cases d <;> simp only [stringArm, Option.some.injEq, Prod.mk.injEq, reduceCtorEq] at h
  obtain ⟨hr, rfl, -⟩ := h
  refine ⟨fun h => absurd rfl h, fun hok p hp => ?_⟩
  rw [ColumnData.isSome_value?_iff (by simp [ColumnData.storage]), ColumnData.len]
  exact fillLoop_mem (putString i) (fun _ => True) (fun q s => i + q < s.length)
    (fun _ _ _ _ => trivial) (fun _ _ _ _ _ ha => lt_of_putString_ok ha)
    (fun _ _ _ _ _ hq => lt_of_lt_of_le hq (length_le_putString _ _)) trivial
    (Prod.ext (hr.trans hok) rfl) p hp

theorem armFills_tag (vs : List String) : ArmFills i n ps (tagArm i n ps vs) := by
  intro d r d' stats h _
  cases d <;> simp only [tagArm, Option.some.injEq, Prod.mk.injEq, reduceCtorEq] at h
  obtain ⟨hr, rfl, -⟩ := h
  rename_i x dict _ _
  have hl : (fillLoop (putTag i) ps vs (Vec.resize x (i + n) invalidDid, dict)
      StatValues.newEmpty).2.1.1.length = i + n :=
    fillLoop_invariant (putTag i) (fun s => s.1.length = i + n)
      (fun _ _ _ _ hs => (length_putTag _ _).trans hs) (Vec.length_resize _ _ _)
  refine ⟨fun _ => by simp only [ColumnData.len]; exact hl.ge, fun hok p hp => ?_⟩
  rw [ColumnData.isSome_value?_tag]
  exact fillLoop_mem (putTag i) (fun _ => True)
    (fun q s => ((s.1[i + q]?).bind s.2.lookupId).isSome) (fun _ _ _ _ => trivial)
    (fun idx b s _ _ ha => by
      rw [putTag_snd]
      exact decodes_set (Dictionary.prefix_lookupValueOrInsert _ _)
        (by rw [Dictionary.lookupId_lookupValueOrInsert]; rfl)
        (.inr ⟨rfl, lt_of_storeAt_ok (show (storeAt _ _ _ b).1 = _ from ha)⟩))
    (fun _ _ _ _ _ hq => by
      rw [putTag_snd]
      exact decodes_set (Dictionary.prefix_lookupValueOrInsert _ _)
        (by rw [Dictionary.lookupId_lookupValueOrInsert]; rfl) (.inl hq))
    trivial (Prod.ext (hr.trans hok) rfl) p hp

theorem armFills_tagDict (keys : List Nat) (vs : List String) :
    ArmFills i n ps (tagDictArm i n ps keys vs) := by
  intro d r d' stats h _
  cases d <;> simp only [tagDictArm, Option.some.injEq, Prod.mk.injEq, reduceCtorEq] at h
  obtain ⟨hr, rfl, -⟩ := h
  rename_i x dict _ _
  have hl : (fillLoop (putTagDict i) ps keys (Vec.resize x (i + n) invalidDid, dict,
      vs.map fun value => (value, none)) StatValues.newEmpty).2.1.1.length = i + n :=
    fillLoop_invariant (putTagDict i) (fun s => s.1.length = i + n)
      (fun _ _ _ _ hs => (length_putTagDict _ _).trans hs) (Vec.length_resize _ _ _)
  refine ⟨fun _ => by simp only [ColumnData.len]; exact hl.ge, fun hok p hp => ?_⟩
  rw [ColumnData.isSome_value?_tag]
  refine fillLoop_mem (putTagDict i) (fun s => s.2.2.Decodes s.2.1)
    (fun q s => ((s.1[i + q]?).bind s.2.1.lookupId).isSome) (fun _ b s hs => ?_)
    (fun _ b s a hs ha => ?_) (fun _ _ b s hs hq => ?_) (fun v d hv => by simp at hv)
    (Prod.ext (hr.trans hok) rfl) p hp
  · rcases putTagDict_spec b hs with ⟨h, -⟩ | ⟨did, -, -, -, -, h⟩
    · rw [h]
      exact hs
    · exact h
  · rcases putTagDict_spec b hs with ⟨-, h⟩ | ⟨did, h1, h2, h3, h4, -⟩
    · exact absurd ha (h a)
    · rw [h1]
      exact decodes_set h3 h4 (.inr ⟨rfl, h2 a ha⟩)
  · rcases putTagDict_spec b hs with ⟨h, -⟩ | ⟨did, h1, -, h3, h4, -⟩
    · rw [h]
      exact hq
    · rw [h1]
      exact decodes_set h3 h4 (.inl hq)

end Arms

/-- The bits `append_valid_mask` sets among the first `to_insert` are exactly the positions
the loop visits. -/
theorem getElem?_validBits_eq_some_true {valid_mask : Option (List UInt8)} {n p : Nat} :
    (validBits valid_mask n)[p]? = some true ↔ p ∈ setPositionIterator valid_mask n := by
  rw [mem_setPositionIterator]
  by_cases hp : p < n
  · cases valid_mask <;> simp [validBits, List.getElem?_range hp, hp]
  · have hnone : (List.range n)[p]? = none := List.getElem?_eq_none (by simpa using hp)
    cases valid_mask <;> simp [validBits, hp, hnone, List.getElem?_replicate]

/-! ### Columns -/

namespace Column

/-- Every set row of the column holds a value, for a tag column a code that decodes,
and a store other than a string store has a slot for every validity bit. -/
structure Filled (c : Column) : Prop where
  slots : c.data.storage ≠ .string → c.valid.length ≤ c.data.len
  values : ∀ r : Nat, c.valid[r]? = some true → (c.data.value? r).isSome

variable {c c' : Column}

theorem filled_new (n : Nat) (t : InfluxColumnType) : (Column.new n t).Filled where
  slots _ := by simp
  values r h := by simp [List.getElem?_replicate] at h

theorem Filled.pushNullsToLen (h : c.Filled) (len : Nat) : (c.pushNullsToLen len).Filled where
  slots hs := by
    simp only [valid_pushNullsToLen, data_pushNullsToLen, ColumnData.storage_pushNulls,
      ColumnData.len_pushNulls, List.length_append, List.length_replicate] at hs ⊢
    have := h.slots hs
    omega
  values r hr := by
    simp only [valid_pushNullsToLen, data_pushNullsToLen] at hr ⊢
    rcases Nat.lt_or_ge r c.valid.length with hl | hl
    · rw [List.getElem?_append_left hl] at hr
      obtain ⟨v, hv⟩ := Option.isSome_iff_exists.mp (h.values r hr)
      rw [ColumnData.value?_pushNulls _ hv]
      rfl
    · rw [List.getElem?_append_right hl, List.getElem?_replicate] at hr
      split_ifs at hr
      simp at hr

theorem Filled.mergeStatistics (h : c.Filled) {rec : Statistics}
    (hm : c.mergeStatistics rec = some c') : c'.Filled := by
  obtain ⟨-, hv, hs, hl⟩ := mergeStatistics_shape hm
  refine ⟨fun h' => ?_, fun r hr => ?_⟩
  · rw [hv, hl]
    exact h.slots (hs ▸ h')
  · rw [value?_mergeStatistics hm]
    exact h.values r (hv ▸ hr)

theorem Filled.truncate (h : c.Filled) (n : Nat) : (c.truncate n).Filled where
  slots hs := by
    simp only [valid_truncate, data_truncate, ColumnData.storage_truncate, List.length_take,
      ColumnData.len_truncate] at hs ⊢
    have := h.slots hs
    omega
  values r hr := by
    simp only [valid_truncate, data_truncate, List.getElem?_take] at hr ⊢
    split_ifs at hr with hn
    rw [ColumnData.value?_truncate _ hn]
    exact h.values r hr

theorem Filled.commitsTo {final_rows : Nat} (h : c.Filled) (hc : CommitsTo final_rows c c') :
    c'.Filled := by
  rcases hc with rfl | rfl | ⟨rec, hm⟩
  · exact h
  · exact h.pushNullsToLen final_rows
  · exact h.mergeStatistics hm

end Column

/-! ### One call leaves values at its set rows -/

section Resolved

variable {α : Type} {i n : Nat} {ps : List Nat} {valid_mask : Option (List UInt8)}
  {wrap : StatValues α → Statistics}
  {body : ColumnData → Option (Except Exit Unit × ColumnData × StatValues α)} {col : Column}

theorem writeResolved_filled {sto : Storage} (hk : ArmKeeps i body) (hs : ArmSpec sto body)
    (hb : ArmFills i n ps body) (hps : ∀ p, (validBits valid_mask n)[p]? = some true → p ∈ ps)
    (hf : col.Filled) (hv : col.valid.length = i) :
    (writeResolved n valid_mask wrap body col).2.1.Filled := by
  obtain ⟨r, col', st, h⟩ : ∃ r col' st, writeResolved n valid_mask wrap body col = (r, col', st) :=
    ⟨_, _, _, rfl⟩
  rw [h]
  rcases writeResolved_cases h with
    ⟨-, -, rfl, -⟩ | ⟨r₀, data, stats, hbody, ⟨-, -, rfl⟩ | ⟨rfl, rfl, -⟩⟩
  · exact hf
  all_goals
    have hsto : data.storage = col.data.storage :=
      (hs.storage _ _ _ _ hbody).trans ((hs.isSome_iff _).mp (by rw [hbody]; rfl)).symm
    obtain ⟨hslot, hval⟩ := hb _ _ _ _ hbody fun h' => hv ▸ hf.slots h'
    -- a row below `initial_rows` keeps its bit, and the kept store its value
    have hold : ∀ r, col.valid[r]? = some true → (data.value? r).isSome := fun r hr => by
      obtain ⟨v, hv'⟩ := Option.isSome_iff_exists.mp (hf.values r hr)
      rw [(hk _ _ _ _ hbody).value? (hv ▸ (List.getElem?_eq_some_iff.mp hr).1) hv']
      rfl
    refine ⟨fun h' => ?_, fun r hr => ?_⟩
  · have := hslot (hsto ▸ h')
    simp only
    omega
  · exact hold r hr
  · have := hslot (hsto ▸ h')
    simp only [List.length_append, length_validBits]
    omega
  · simp only at hr ⊢
    rcases Nat.lt_or_ge r col.valid.length with hl | hl
    · exact hold r (by rwa [List.getElem?_append_left hl] at hr)
    · rw [List.getElem?_append_right hl] at hr
      have := hval rfl _ (hps _ hr)
      rwa [hv, Nat.add_sub_cancel' (hv ▸ hl)] at this

end Resolved

/-- **A write call leaves a value at every set row of the column it works on**,
whatever it returns, when the column had one at every set row of its `initial_rows`. -/
theorem WriteCall.apply_filled (c : WriteCall) {i n : Nat} {col : Column} (hf : col.Filled)
    (hv : col.valid.length = i) : (c.apply i n col).2.1.Filled := by
  have hps := fun p => (@getElem?_validBits_eq_some_true c.validMask n p).mp
  cases c with
  | f64 =>
    exact writeResolved_filled (armKeeps_fixed FixedWidth.lawful_f64 (fun _ _ _ h => ⟨h, rfl⟩) _)
      (armSpec_fixed _ _ _ FixedWidth.lawful_f64 _) (armFills_fixed FixedWidth.lawful_f64
        (by decide) (fun _ _ => rfl) (fun _ => lt_of_mem_setPositionIterator) _) hps hf hv
  | i64 =>
    exact writeResolved_filled (armKeeps_fixed FixedWidth.lawful_i64 (fun _ _ _ h => ⟨h, rfl⟩) _)
      (armSpec_fixed _ _ _ FixedWidth.lawful_i64 _) (armFills_fixed FixedWidth.lawful_i64
        (by decide) (fun _ _ => rfl) (fun _ => lt_of_mem_setPositionIterator) _) hps hf hv
  | u64 =>
    exact writeResolved_filled (armKeeps_fixed FixedWidth.lawful_u64 (fun _ _ _ h => ⟨h, rfl⟩) _)
      (armSpec_fixed _ _ _ FixedWidth.lawful_u64 _) (armFills_fixed FixedWidth.lawful_u64
        (by decide) (fun _ _ => rfl) (fun _ => lt_of_mem_setPositionIterator) _) hps hf hv
  | bool =>
    exact writeResolved_filled (armKeeps_bool _) (armSpec_bool _ _ _ _)
      (armFills_bool (fun _ => lt_of_mem_setPositionIterator) _) hps hf hv
  | string =>
    exact writeResolved_filled (armKeeps_string _) (armSpec_string _ _ _) (armFills_string _)
      hps hf hv
  | tag =>
    exact writeResolved_filled (armKeeps_tag _) (armSpec_tag _ _ _ _) (armFills_tag _) hps hf hv
  | tagDict =>
    exact writeResolved_filled (armKeeps_tagDict _ _) (armSpec_tagDict _ _ _ _ _)
      (armFills_tagDict _ _) hps hf hv
  | time =>
    exact writeResolved_filled (armKeeps_fixed FixedWidth.lawful_i64 (fun _ _ _ h => ⟨h, rfl⟩) _)
      (armSpec_fixed _ _ _ FixedWidth.lawful_i64 _) (armFills_fixed FixedWidth.lawful_i64
        (by decide) (fun _ _ => rfl) (fun _ => List.mem_range.mp) _) hps hf hv

/-! ### Every reachable state -/

/-- Every column of the state's batch holds a value at every set row. -/
def Sys.FilledOk (s : Sys) : Prop := ∀ col ∈ s.batch.columns, col.Filled

theorem Writer.drop_filled {w : Writer} (h : ∀ col ∈ w.batch.columns, col.Filled) :
    ∀ col ∈ w.drop.columns, col.Filled := by
  unfold Writer.drop
  split
  · exact h
  · simpa using fun col hc => (h col hc).truncate _

/-- Every step keeps a value at every set row, on a state of the right shape. -/
theorem Step.filledOk {s t : Sys} (h : Step s t) (hshape : s.ShapeOk) (hs : s.FilledOk) :
    t.FilledOk := by
  cases h with
  | new b n => exact hs
  | write c hw _ =>
    exact Writer.write_columns hshape.1 hs (Column.filled_new _ _)
      (fun col hf _ hlen _ => c.apply_filled hf hlen) hw
  | commit hw =>
    exact forall_mem_of_forall₂ (Writer.commit_forall₂ hw) (fun hr hf => hf.commitsTo hr) hs
  | drop w => exact Writer.drop_filled hs

/-- **Every set row holds a value, in every reachable state**: a number, a bit or a
string, and for a tag column a code that decodes to a string of its dictionary. -/
theorem reachable_filled {s : Sys} (h : Reachable s) : s.FilledOk := by
  induction h with
  | refl => exact fun _ h => by cases h
  | tail hr hstep ih => exact hstep.filledOk (reachable_shapeOk hr) ih

/-! ### Rows between transactions -/

/-- **Between transactions, one validity bit per row and a slot for it.** In every state
between the transactions of a run from the empty batch, every column has `row_count`
validity bits, and every store but a string store holds at least `row_count` entries;
a commit that completes sets `row_count` to `initial_rows + to_insert`. -/
theorem reachable_valid_rows :
    (∀ b, Reachable (.idle b) → ∀ col ∈ b.columns, col.valid.length = b.rowCount ∧
      (col.data.storage ≠ .string → b.rowCount ≤ col.data.len)) ∧
      ∀ w w', Reachable (.busy w) → w.commit = (.ok (), w') →
        w'.batch.rowCount = w.initialRows + w.toInsert := by
  refine ⟨fun b hb col hcol => ?_, fun w w' _ hw => (Writer.commit_eq_ok hw).2.2⟩
  have hv : col.valid.length = b.rowCount := reachable_rowsOk hb col hcol
  exact ⟨hv, hv ▸ (reachable_filled hb col hcol).slots⟩

/-- A `write_bool` of one value over two rows fails on an empty batch, and the commit
after it completes: the batch it leaves has two validity bits per column and at least
two store bits, and two rows, `0 + 2`. -/
theorem reachable_valid_rows_after_commit :
    let w := ((Writer.new MutableBatch.new 2).write (.bool "b" none [true])).2
    Reachable (.busy w) ∧ Reachable (.idle w.commit.2.batch) ∧ w.commit = (.ok (), w.commit.2) ∧
      (∀ col ∈ w.commit.2.batch.columns, col.valid.length = w.commit.2.batch.rowCount ∧
        (col.data.storage ≠ .string → w.commit.2.batch.rowCount ≤ col.data.len)) ∧
      w.commit.2.batch.rowCount = w.initialRows + w.toInsert :=
  have h : Reachable (.busy ((Writer.new MutableBatch.new 2).write (.bool "b" none [true])).2) :=
    .tail (.single (.new _ 2)) (.write (.bool "b" none [true]) (Prod.ext rfl rfl) (by rfl))
  have hc : Reachable (.idle ((Writer.new MutableBatch.new 2).write
      (.bool "b" none [true])).2.commit.2.batch) := h.tail (.commit (Prod.ext rfl rfl))
  ⟨h, hc, Prod.ext rfl rfl, reachable_valid_rows.1 _ hc,
    reachable_valid_rows.2 _ _ h (Prod.ext rfl rfl)⟩

/-- On an empty batch, a `write_bool` of one value over two rows fails after setting
its bit, and the commit that follows completes: the batch has two rows, and its one
column two validity bits and a store of four bits. -/
theorem bool_store_after_failed_write :
    ((Writer.new MutableBatch.new 2).write (.bool "b" none [true])).1 =
        .error (.err .insufficientValues) ∧
      Reachable
        (.idle ((Writer.new MutableBatch.new 2).write (.bool "b" none [true])).2.commit.2.batch) ∧
      ((Writer.new MutableBatch.new 2).write (.bool "b" none [true])).2.commit.2.batch.rowCount =
        2 ∧
      ((Writer.new MutableBatch.new 2).write (.bool "b" none [true])).2.commit.2.batch.columns.map
        (fun col => (col.valid.length, col.data.len)) = [(2, 4)] :=
  ⟨rfl, .tail (.tail (.single (.new _ 2)) (.write (.bool "b" none [true]) (Prod.ext rfl rfl)
    (by rfl))) (.commit (Prod.ext rfl rfl)), rfl, by decide⟩

end BatchWriter
