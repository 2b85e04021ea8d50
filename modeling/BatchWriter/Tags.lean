import BatchWriter.Fill

/-!
# `write_tag` and `write_tag_dict`

`write_tag` interns each value it consumes, in order, and stores its code at the
value's row. What the dictionary becomes is therefore a function of the consumed
values alone (`BatchWriter.Dictionary.insertAll`): the old entries, followed by the
consumed strings that were not among them, each once, in order of first use
(`BatchWriter.Dictionary.values_insertAll`). And on success each set row decodes to
the value it consumed (`BatchWriter.tagArm_spec`).

`write_tag_dict` takes keys into a local table instead of strings, and caches the code
of each table entry the first time a key reaches it. The cache never changes what is
stored: a cached code is the code `lookup_value_or_insert` would return, because its
string is already in the dictionary. So as long as every key the loop consumes is
inside the table, the loop of `write_tag_dict` takes, step for step, the steps of the
loop of `write_tag` on the strings the keys stand for
(`BatchWriter.tagDictArm_eq_tagArm`), and the two calls are one and the same
(`BatchWriter.writeTagDict_refines_writeTag`).
-/

namespace BatchWriter

/-! ### Interning a list of strings -/

section Interning

/-- The entries after interning each string of `values` in order, from the entries
`acc`: a string is appended unless it is there already. -/
def internEntries (acc values : List String) : List String :=
  values.foldl (fun acc value => if value ∈ acc then acc else acc ++ [value]) acc

variable {acc d : List String} {x : String}

@[simp] theorem internEntries_nil (acc : List String) : internEntries acc [] = acc := rfl

@[simp] theorem internEntries_cons (acc : List String) (v : String) (vs : List String) :
    internEntries acc (v :: vs) = internEntries (if v ∈ acc then acc else acc ++ [v]) vs := rfl

theorem mem_internEntries (values : List String) :
    x ∈ internEntries acc values ↔ x ∈ acc ∨ x ∈ values := by
  induction values generalizing acc with
  | nil => simp
  | cons v vs ih =>
    rw [internEntries_cons, ih]
    split_ifs with h
    · constructor
      · rintro (hx | hx)
        · exact .inl hx
        · exact .inr (List.mem_cons_of_mem _ hx)
      · rintro (hx | hx)
        · exact .inl hx
        · rcases List.mem_cons.mp hx with rfl | hx
          · exact .inl h
          · exact .inr hx
    · simp [or_assoc]

/-- Entries that the strings never meet stay in front, untouched. -/
theorem internEntries_append (values : List String) (h : ∀ x ∈ values, x ∉ d) :
    internEntries (d ++ acc) values = d ++ internEntries acc values := by
  induction values generalizing acc with
  | nil => rfl
  | cons v vs ih =>
    have hv : v ∉ d := h v (List.mem_cons_self _ _)
    simp only [internEntries_cons, List.mem_append, hv, false_or]
    split_ifs
    · exact ih fun x hx => h x (List.mem_cons_of_mem _ hx)
    · rw [List.append_assoc]
      exact ih fun x hx => h x (List.mem_cons_of_mem _ hx)

/-- Strings already among the entries are skipped. -/
theorem internEntries_filter (values : List String) (h : ∀ x ∈ d, x ∈ acc) :
    internEntries acc (values.filter (· ∉ d)) = internEntries acc values := by
  induction values generalizing acc with
  | nil => rfl
  | cons v vs ih =>
    by_cases hv : v ∈ d
    · simp only [List.filter_cons, hv, not_true_eq_false, decide_False, internEntries_cons,
        h v hv, if_true, ite_false]
      exact ih h
    · simp only [List.filter_cons, hv, not_false_eq_true, decide_True, if_true,
        internEntries_cons]
      exact ih fun x hx => by split_ifs <;> simp [h x hx]

/-- `eraseDups` is interning from no entries. -/
theorem eraseDups_loop (values acc : List String) :
    List.eraseDups.loop values acc = internEntries acc.reverse values := by
  induction values generalizing acc with
  | nil => rfl
  | cons v vs ih =>
    by_cases h : v ∈ acc <;> simp [List.eraseDups.loop, List.elem_eq_mem, h, ih]

end Interning

namespace Dictionary

/-- The dictionary after `lookup_value_or_insert` of each string of `values`, in
order. -/
def insertAll (d : Dictionary) (values : List String) : Dictionary :=
  values.foldl (fun d value => (d.lookupValueOrInsert value).2) d

@[simp] theorem insertAll_nil (d : Dictionary) : d.insertAll [] = d := rfl

@[simp] theorem insertAll_cons (d : Dictionary) (v : String) (vs : List String) :
    d.insertAll (v :: vs) = (d.lookupValueOrInsert v).2.insertAll vs := rfl

theorem values_insertAll_eq_internEntries (d : Dictionary) (values : List String) :
    (d.insertAll values).values = internEntries d.values values := by
  induction values generalizing d with
  | nil => rfl
  | cons v vs ih => rw [insertAll_cons, ih, values_lookupValueOrInsert]; rfl

/-- **Interning a list appends exactly its strings that are not in the dictionary yet,
each once, in order of first use.** -/
theorem values_insertAll (d : Dictionary) (values : List String) :
    (d.insertAll values).values = d.values ++ (values.filter (· ∉ d.values)).eraseDups :=
  calc (d.insertAll values).values
      = internEntries d.values (values.filter (· ∉ d.values)) := by
        rw [values_insertAll_eq_internEntries, internEntries_filter _ fun _ => id]
    _ = d.values ++ internEntries [] (values.filter (· ∉ d.values)) := by
        rw [← internEntries_append _ fun x hx => by simpa using (List.mem_filter.mp hx).2,
          List.append_nil]
    _ = d.values ++ (values.filter (· ∉ d.values)).eraseDups := by
        rw [List.eraseDups, eraseDups_loop]
        rfl

theorem mem_insertAll {d : Dictionary} {values : List String} {x : String} :
    x ∈ (d.insertAll values).values ↔ x ∈ d.values ∨ x ∈ values := by
  rw [values_insertAll_eq_internEntries, mem_internEntries]

theorem prefix_insertAll (d : Dictionary) (values : List String) :
    d.values <+: (d.insertAll values).values := by
  rw [values_insertAll]
  exact List.prefix_append _ _

/-- A string that a code decodes to is interned under that code. -/
theorem lookupValueOrInsert_of_lookupId {d : Dictionary} {id : Int} {value : String}
    (h : d.lookupId id = some value) : d.lookupValueOrInsert value = (id, d) := by
  have hmem := mem_of_lookupId h
  unfold lookupId at h
  split_ifs at h with h0
  obtain ⟨hlt, hget⟩ := List.getElem?_eq_some_iff.mp h
  have hidx : d.values.indexOf value = id.toNat := by
    rw [← hget, List.indexOf_getElem d.nodup]
  simp [lookupValueOrInsert, hmem, hidx, Int.toNat_of_nonneg h0]

theorem lt_length_lookupValueOrInsert (d : Dictionary) (value : String) :
    (d.lookupValueOrInsert value).1 < (d.lookupValueOrInsert value).2.values.length := by
  unfold lookupValueOrInsert
  split
  · simpa using List.indexOf_lt_length.mpr ‹_›
  · simp only [List.length_append, List.length_singleton]
    omega

end Dictionary

/-! ### The loop of `write_tag` -/

section TagLoop

variable {i n : Nat}

/-- **The loop of `write_tag` over slots that exist** never fails to store: it succeeds
exactly when there is a value for every position, its dictionary interns exactly the
values it consumed, and it keeps the length of the store. -/
theorem fillLoop_putTag {ps : List Nat} {vs : List String} {s : List Int × Dictionary}
    {stats : StatValues String} (hlt : ∀ p ∈ ps, i + p < s.1.length) :
    (fillLoop (putTag i) ps vs s stats).1 =
        (if ps.length ≤ vs.length then .ok () else .error (.err .insufficientValues)) ∧
      (fillLoop (putTag i) ps vs s stats).2.1.2 = s.2.insertAll (vs.take ps.length) ∧
      (fillLoop (putTag i) ps vs s stats).2.1.1.length = s.1.length := by
  induction ps generalizing vs s stats with
  | nil => simp [fillLoop]
  | cons p ps ih =>
    cases vs with
    | nil => simp [fillLoop]
    | cons v vs =>
      have hput : putTag i p v s = (.ok v, (putTag i p v s).2) := by
        refine Prod.ext ?_ rfl
        rw [putTag_fst]
        simp [storeAt, Vec.setAt, hlt p (List.mem_cons_self _ _)]
      have hlt' : ∀ q ∈ ps, i + q < (putTag i p v s).2.1.length := fun q hq => by
        rw [length_putTag]
        exact hlt q (List.mem_cons_of_mem _ hq)
      simp only [fillLoop]
      rw [hput]
      refine ⟨(ih hlt').1.trans ?_, (ih hlt').2.1.trans ?_, (ih hlt').2.2.trans (length_putTag _ _)⟩
      · simp
      · simp [putTag_snd]

/-- On success, over distinct positions, each position's row decodes to the value the
loop consumed there. -/
theorem fillLoop_putTag_decodes {ps : List Nat} {vs : List String} {s s' : List Int × Dictionary}
    {stats stats' : StatValues String} (hnd : ps.Nodup)
    (h : fillLoop (putTag i) ps vs s stats = (.ok (), s', stats')) :
    ∀ pv ∈ ps.zip vs, (s'.1[i + pv.1]?).bind s'.2.lookupId = some pv.2 :=
  fillLoop_zip (putTag i) (fun _ => True) (fun q v t => (t.1[i + q]?).bind t.2.lookupId = some v)
    (fun _ _ _ _ => trivial)
    (fun idx v t a _ ha => by
      have hlt := lt_of_storeAt_ok (show (storeAt _ _ _ v).1 = .ok a from ha)
      simp only [putTag_snd]
      rw [List.getElem?_set, if_pos rfl, if_pos hlt, Option.some_bind,
        Dictionary.lookupId_lookupValueOrInsert])
    (fun q v idx b t hne _ hq => by
      simp only [putTag_snd]
      rw [List.getElem?_set, if_neg (by omega)]
      obtain ⟨c, hc, hl⟩ := Option.bind_eq_some.mp hq
      rw [hc, Option.some_bind]
      exact Dictionary.lookupId_of_prefix (Dictionary.prefix_lookupValueOrInsert _ _) hl)
    hnd trivial h

/-- Every step of the loop of `write_tag` keeps every stored code below the size of the
dictionary. -/
theorem putTag_codesBelow (idx : Nat) (value : String) {s : List Int × Dictionary}
    (h : ∀ c ∈ s.1, c < s.2.values.length) :
    ∀ c ∈ (putTag i idx value s).2.1, c < (putTag i idx value s).2.2.values.length := by
  simp only [putTag_snd]
  intro c hc
  have hle : s.2.values.length ≤ (s.2.lookupValueOrInsert value).2.values.length :=
    (Dictionary.prefix_lookupValueOrInsert _ _).length_le
  rcases List.mem_or_eq_of_mem_set hc with hc | rfl
  · have := h c hc
    omega
  · exact Dictionary.lt_length_lookupValueOrInsert _ _

/-- **What `write_tag` does to a tag column**, with positions below `to_insert`: the
codes are resized to `initial_rows + to_insert`, the dictionary interns exactly the
values the loop consumes, and the call succeeds exactly when there is a value for
every position; then, over distinct positions, each position's row decodes to the
value consumed there. No code ends up past the dictionary's end unless one was. -/
theorem tagArm_spec {ps : List Nat} (hps : ∀ p ∈ ps, p < n) (vs : List String)
    (codes : List Int) (dict : Dictionary) (s : StatValues String) :
    ∃ codes' stats, tagArm i n ps vs (.tag codes dict s) =
        some (if ps.length ≤ vs.length then .ok () else .error (.err .insufficientValues),
          .tag codes' (dict.insertAll (vs.take ps.length)) s, stats) ∧
      codes'.length = i + n ∧
      (ps.Nodup → ps.length ≤ vs.length →
        ∀ pv ∈ ps.zip vs, (codes'[i + pv.1]?).bind (dict.insertAll (vs.take ps.length)).lookupId =
          some pv.2) ∧
      ((∀ c ∈ codes, c < dict.values.length) →
        ∀ c ∈ codes', c < (dict.insertAll (vs.take ps.length)).values.length) := by
  have hlt : ∀ p ∈ ps, i + p < (Vec.resize codes (i + n) invalidDid, dict).1.length := by
    intro p hp
    have := hps p hp
    simp only [Vec.length_resize]
    omega
  have h := @fillLoop_putTag i ps vs _ StatValues.newEmpty hlt
  set L := fillLoop (putTag i) ps vs (Vec.resize codes (i + n) invalidDid, dict) StatValues.newEmpty
  refine ⟨L.2.1.1, L.2.2, ?_, by rw [h.2.2, Vec.length_resize], fun hnd hle pv hpv => ?_,
    fun hc => ?_⟩
  · show some (L.1, ColumnData.tag L.2.1.1 L.2.1.2 s, L.2.2) = _
    rw [h.1, h.2.1]
  · rw [← h.2.1]
    refine fillLoop_putTag_decodes hnd (Prod.ext ?_ rfl) pv hpv
    rw [h.1, if_pos hle]
  · rw [← h.2.1]
    refine fillLoop_invariant (putTag i) (fun t => ∀ c ∈ t.1, c < t.2.values.length)
      (fun idx _ b t ht => putTag_codesBelow idx b ht) fun c hc' => ?_
    rcases List.mem_append.mp hc' with hc' | hc'
    · exact hc c (List.mem_of_mem_take hc')
    · rw [List.eq_of_mem_replicate hc', invalidDid]
      omega

end TagLoop

/-! ### `write_tag_dict` takes the steps of `write_tag` -/

section TagDict

variable {i n idx : Nat} {table : List String}

/-- `table[key]`, the string a key of `write_tag_dict` stands for. -/
def tableAt (table : List String) (key : Nat) : String := (table[key]?).getD ""

/-- The local table of `write_tag_dict` holds the strings of `table`, in order, and the
codes it has resolved decode to their strings in `dict`. -/
def Mapping.Tracks (mapping : Mapping) (table : List String) (dict : Dictionary) : Prop :=
  (∀ j : Nat, (mapping[j]?).map Prod.fst = table[j]?) ∧ mapping.Decodes dict

theorem tracks_init (table : List String) (dict : Dictionary) :
    Mapping.Tracks (table.map fun value => (value, (none : Option Int))) table dict :=
  ⟨fun j => by rw [List.getElem?_map, Option.map_map]; cases table[j]? <;> rfl,
    fun _ _ h => by simp at h⟩

/-- **One step of `write_tag_dict` on a key inside the table is the step of
`write_tag` on the string the key stands for**: the same result, the same codes and
dictionary, and a table that still tracks them. A cached code is the code
`lookup_value_or_insert` gives its string. -/
theorem putTagDict_eq_putTag {s : List Int × Dictionary × Mapping}
    (hs : s.2.2.Tracks table s.2.1) {key : Nat} (hk : key < table.length) :
    (putTagDict i idx key s).1 = (putTag i idx (tableAt table key) (s.1, s.2.1)).1 ∧
      ((putTagDict i idx key s).2.1, (putTagDict i idx key s).2.2.1) =
        (putTag i idx (tableAt table key) (s.1, s.2.1)).2 ∧
      (putTagDict i idx key s).2.2.2.Tracks table (putTagDict i idx key s).2.2.1 := by
  obtain ⟨codes, dict, mapping⟩ := s
  obtain ⟨hmap, hdec⟩ := hs
  have hD : Mapping.Decodes (putTagDict i idx key (codes, dict, mapping)).2.2.2
      (putTagDict i idx key (codes, dict, mapping)).2.2.1 := by
    rcases @putTagDict_spec i idx key _ hdec with ⟨h, -⟩ | ⟨-, -, -, -, -, h⟩
    · rw [h]
      exact hdec
    · exact h
  have htab : table[key]? = some (tableAt table key) := by
    simp [tableAt, List.getElem?_eq_getElem hk]
  cases hm : mapping[key]? with
  | none =>
    have := hmap key
    rw [hm, htab] at this
    cases this
  | some entry =>
    obtain ⟨value, cached⟩ := entry
    obtain rfl : value = tableAt table key := by
      have := hmap key
      rw [hm, htab] at this
      simpa using this
    cases cached with
    | some did =>
      -- a cached code: the string is interned already, under that code
      have hl := Dictionary.lookupValueOrInsert_of_lookupId (hdec _ did (List.getElem?_mem hm))
      simp only [putTagDict, hm, putTag, hl, Prod.map_fst, Prod.map_snd, id_eq] at hD ⊢
      exact ⟨trivial, trivial, hmap, hD⟩
    | none =>
      simp only [putTagDict, hm, putTag, Prod.map_fst, Prod.map_snd, id_eq] at hD ⊢
      refine ⟨trivial, trivial, fun j => ?_, hD⟩
      rw [List.getElem?_set]
      split_ifs with h1 h2
      · rw [← h1, htab]
        rfl
      · exact absurd (List.getElem?_eq_some_iff.mp hm).1 h2
      · exact hmap j

/-- **The loop of `write_tag_dict` over keys inside the table takes the steps of the loop
of `write_tag`** on the strings they stand for, from a fresh local table: the same result,
codes, dictionary and statistics, with a local table that tracks the dictionary. -/
theorem fillLoop_putTagDict_sim {ps keys : List Nat}
    (hkeys : ∀ pk ∈ ps.zip keys, pk.2 < table.length) (codes : List Int) (dict : Dictionary)
    (stats : StatValues String) :
    let L := fillLoop (putTagDict i) ps keys (codes, dict, table.map fun v => (v, none)) stats
    let M := fillLoop (putTag i) ps (keys.map (tableAt table)) (codes, dict) stats
    L.1 = M.1 ∧ (L.2.1.1, L.2.1.2.1) = M.2.1 ∧ L.2.1.2.2.Tracks table L.2.1.2.1 ∧
      L.2.2 = M.2.2 := by
  let R : List Int × Dictionary × Mapping → List Int × Dictionary → Prop :=
    fun t u => (t.1, t.2.1) = u ∧ Mapping.Tracks t.2.2 table t.2.1
  have hR : R (codes, dict, table.map fun v => (v, none)) (codes, dict) :=
    ⟨rfl, tracks_init table dict⟩
  obtain ⟨h1, ⟨h2, hT⟩, h3⟩ := fillLoop_sim (putTagDict i) (putTag i) R (tableAt table)
    (fun pk hpk t u hR => by
      obtain ⟨rfl, hT⟩ := hR
      exact putTagDict_eq_putTag hT (hkeys pk hpk)) hR stats
  exact ⟨h1, h2, hT, h3⟩

/-- **The arm of `write_tag_dict` is the arm of `write_tag` on the strings its keys
stand for**, as long as every key the loop consumes is inside the table. -/
theorem tagDictArm_eq_tagArm {ps keys : List Nat}
    (hkeys : ∀ pk ∈ ps.zip keys, pk.2 < table.length) :
    tagDictArm i n ps keys table = tagArm i n ps (keys.map (tableAt table)) := by
  funext d
  cases d with
  | tag codes dict s =>
    obtain ⟨h1, h2, -, h3⟩ := @fillLoop_putTagDict_sim i table _ _ hkeys
      (Vec.resize codes (i + n) invalidDid) dict StatValues.newEmpty
    exact congrArg some (Prod.ext h1 (Prod.ext (congrArg₂ (fun c d => ColumnData.tag c d s)
      (congrArg Prod.fst h2) (congrArg Prod.snd h2)) h3))
  | _ => rfl

theorem length_putTagDict_mapping (key : Nat) (s : List Int × Dictionary × Mapping) :
    (putTagDict i idx key s).2.2.2.length = s.2.2.length := by
  obtain ⟨codes, dict, mapping⟩ := s
  simp only [putTagDict]
  split <;> simp

theorem lt_of_putTagDict_ok {key : Nat} {s : List Int × Dictionary × Mapping} {a : String}
    (h : (putTagDict i idx key s).1 = .ok a) : key < s.2.2.length := by
  obtain ⟨codes, dict, mapping⟩ := s
  simp only [putTagDict] at h
  split at h
  · simp at h
  all_goals exact (List.getElem?_eq_some_iff.mp ‹_›).1

/-- A loop of `write_tag_dict` that succeeds, over distinct positions, consumed only
keys inside the table. -/
theorem fillLoop_putTagDict_keys {ps keys : List Nat} {s s' : List Int × Dictionary × Mapping}
    {stats stats' : StatValues String} (hnd : ps.Nodup) (hs : s.2.2.length = table.length)
    (h : fillLoop (putTagDict i) ps keys s stats = (.ok (), s', stats')) :
    ∀ pk ∈ ps.zip keys, pk.2 < table.length :=
  fillLoop_zip (putTagDict i) (fun t => t.2.2.length = table.length) (fun _ k _ => k < table.length)
    (fun _ k t ht => (length_putTagDict_mapping k t).trans ht)
    (fun _ _ _ _ ht ha => ht ▸ lt_of_putTagDict_ok ha) (fun _ _ _ _ _ _ _ hq => hq) hnd hs h

/-- An arm of `write_tag_dict` that succeeds, over distinct positions, consumed only
keys inside the table. -/
theorem tagDictArm_keys {ps keys : List Nat} {d d' : ColumnData} {stats : StatValues String}
    (hnd : ps.Nodup) (h : tagDictArm i n ps keys table d = some (.ok (), d', stats)) :
    ∀ pk ∈ ps.zip keys, pk.2 < table.length := by
  cases d <;> simp only [tagDictArm, Option.some.injEq, Prod.mk.injEq, reduceCtorEq] at h
  exact fillLoop_putTagDict_keys hnd (List.length_map _ _) (Prod.ext h.1 rfl)

end TagDict

end BatchWriter
