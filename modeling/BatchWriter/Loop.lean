import BatchWriter.System

/-!
# The value loop

Two facts about the loop every typed write runs carry most of what follows.

The positions it visits (`BatchWriter.setPositionIterator`) are the set bits of
the mask below `to_insert`, in strictly increasing order
(`BatchWriter.setPositionIterator_some`, `BatchWriter.pairwise_setPositionIterator`).
The `take_while` of the source is what cuts the mask off at `to_insert`: the
positions are sorted, so taking them while they are below `to_insert` is filtering
them.

And `BatchWriter.fillLoop` is a plain fold with an early exit, so what a single step
of `put` preserves, the loop preserves (`BatchWriter.fillLoop_invariant`), also when
it stops early; and when it succeeds it has visited every position, with one input
item each (`BatchWriter.fillLoop_ok`).
-/

namespace BatchWriter

/-! ### Positions -/

section Positions

/-- On a strictly increasing list, taking while below `n` is filtering below `n`. -/
theorem takeWhile_lt_eq_filter {l : List Nat} (h : l.Pairwise (· < ·)) (n : Nat) :
    l.takeWhile (fun i => decide (i < n)) = l.filter (fun i => decide (i < n)) := by
  induction l with
  | nil => rfl
  | cons x xs ih =>
    rw [List.pairwise_cons] at h
    by_cases hx : x < n
    · simp [List.takeWhile_cons, List.filter_cons, hx, ih h.2]
    · have hxs : xs.filter (fun i => decide (i < n)) = [] :=
        List.filter_eq_nil_iff.mpr fun a ha => by have := h.1 a ha; simp; omega
      simp [List.takeWhile_cons, List.filter_cons, hx, hxs]

/-- A filter over a longer range is the same filter over a shorter one when the
predicate fails on the difference. -/
theorem filter_range_of_le {f : Nat → Bool} {k k' : Nat} (hk : k ≤ k')
    (hf : ∀ i, k ≤ i → i < k' → f i = false) :
    (List.range k').filter f = (List.range k).filter f := by
  obtain ⟨d, rfl⟩ := Nat.exists_eq_add_of_le hk
  rw [List.range_add, List.filter_append, List.append_right_eq_self,
    List.filter_eq_nil_iff]
  intro i hi
  obtain ⟨j, hj, rfl⟩ := List.mem_map.mp hi
  simpa using hf (k + j) (by omega) (by simpa using hj)

/-- The positions a mask gives are its set bits below `to_insert`. -/
theorem setPositionIterator_some (mask : List UInt8) (n : Nat) :
    setPositionIterator (some mask) n = (List.range n).filter (maskBit mask) := by
  have hsorted : (iterSetPositions mask).Pairwise (· < ·) :=
    (List.pairwise_lt_range _).filter _
  let f i := decide (i < n) && maskBit mask i
  have hm := min_le_left (8 * mask.length) n
  have hn := min_le_right (8 * mask.length) n
  have hfalse : ∀ k', min (8 * mask.length) n ≤ k' → ∀ i, min (8 * mask.length) n ≤ i →
      i < k' → f i = false := by
    intro k' _ i hi _
    rcases Nat.le_total (8 * mask.length) n with h | h
    · simp [f, maskBit_of_le (show 8 * mask.length ≤ i by omega)]
    · simp [f, show ¬i < n by omega]
  calc setPositionIterator (some mask) n
      = (iterSetPositions mask).filter (fun i => decide (i < n)) :=
        takeWhile_lt_eq_filter hsorted n
    _ = (List.range (8 * mask.length)).filter f := by
        simp only [iterSetPositions, List.filter_filter, f]
    _ = (List.range (min (8 * mask.length) n)).filter f :=
        filter_range_of_le hm (hfalse _ hm)
    _ = (List.range n).filter f := (filter_range_of_le hn (hfalse _ hn)).symm
    _ = (List.range n).filter (maskBit mask) :=
        List.filter_congr fun i hi => by simp [f, List.mem_range.mp hi]

theorem mem_setPositionIterator {valid_mask : Option (List UInt8)} {n i : Nat} :
    i ∈ setPositionIterator valid_mask n ↔
      i < n ∧ (valid_mask.map (maskBit · i)).getD true = true := by
  cases valid_mask with
  | none => simp [setPositionIterator]
  | some mask => simp [setPositionIterator_some, and_comm]

theorem lt_of_mem_setPositionIterator {valid_mask : Option (List UInt8)} {n i : Nat}
    (h : i ∈ setPositionIterator valid_mask n) : i < n :=
  (mem_setPositionIterator.mp h).1

theorem pairwise_setPositionIterator (valid_mask : Option (List UInt8)) (n : Nat) :
    (setPositionIterator valid_mask n).Pairwise (· < ·) := by
  cases valid_mask with
  | none => exact List.pairwise_lt_range n
  | some mask => rw [setPositionIterator_some]; exact (List.pairwise_lt_range n).filter _

theorem length_setPositionIterator_le (valid_mask : Option (List UInt8)) (n : Nat) :
    (setPositionIterator valid_mask n).length ≤ n := by
  cases valid_mask with
  | none => simp [setPositionIterator]
  | some mask =>
    rw [setPositionIterator_some]
    exact (List.length_filter_le _ _).trans (List.length_range n).le

end Positions

/-! ### The loop -/

section Loop

variable {α β σ : Type} [LT α] [DecidableRel (α := α) (· < ·)]
  (put : Nat → β → σ → Except Exit α × σ)

/-- **What every step of `put` preserves, the loop preserves**, wherever it stops. -/
theorem fillLoop_invariant (P : σ → Prop) {idxs : List Nat} {bs : List β} {s : σ}
    {stats : StatValues α} (hput : ∀ idx ∈ idxs, ∀ b s, P s → P (put idx b s).2) (hs : P s) :
    P (fillLoop put idxs bs s stats).2.1 := by
  induction idxs generalizing bs s stats with
  | nil => exact hs
  | cons idx idxs ih =>
    cases bs with
    | nil => exact hs
    | cons b bs =>
      have hstep := hput idx (List.mem_cons_self _ _) b s hs
      simp only [fillLoop]
      split
      · simpa [*] using hstep
      · rename_i a s' h
        rw [h] at hstep
        exact ih (fun i hi => hput i (List.mem_cons_of_mem _ hi)) hstep

/-- **A loop that succeeds has run a step at every position.** What a step that
succeeds makes true at its own position, and every step keeps, holds at the end at
every position, given an invariant `P` that every step keeps. -/
theorem fillLoop_mem (P : σ → Prop) (Q : Nat → σ → Prop) (hP : ∀ idx b s, P s → P (put idx b s).2)
    (hset : ∀ idx b s a, P s → (put idx b s).1 = .ok a → Q idx (put idx b s).2)
    (hkeep : ∀ q idx b s, P s → Q q s → Q q (put idx b s).2) {idxs : List Nat} {bs : List β}
    {s s' : σ} {stats stats' : StatValues α} (hs : P s)
    (h : fillLoop put idxs bs s stats = (.ok (), s', stats')) : ∀ p ∈ idxs, Q p s' := by
  induction idxs generalizing bs s stats with
  | nil => simp
  | cons idx idxs ih =>
    cases bs with
    | nil => simp [fillLoop] at h
    | cons b bs =>
      simp only [fillLoop] at h
      split at h
      · simp at h
      · rename_i a s₁ hput
        have hs₁ : P s₁ := by simpa [hput] using hP idx b s hs
        intro p hp
        rcases List.mem_cons.mp hp with rfl | hp
        · -- the position of this step: set by it, and kept by every later step
          have hQ : Q p s₁ := by simpa [hput] using hset p b s a hs (by rw [hput])
          have hend : (fun s => P s ∧ Q p s) (fillLoop put idxs bs s₁ (stats.update a)).2.1 :=
            fillLoop_invariant put (fun s => P s ∧ Q p s)
              (fun i _ b s hs => ⟨hP i b s hs.1, hkeep p i b s hs.1 hs.2⟩) ⟨hs₁, hQ⟩
          rw [h] at hend
          exact hend.2
        · exact ih hs₁ h p hp

/-- **A loop that succeeds has run a step at every position, with its item.** Over
distinct positions, what a step that succeeds makes true of its own position and item,
and every step at another position keeps, holds at the end of every position the loop
visited and the item it took there. -/
theorem fillLoop_zip (P : σ → Prop) (Q : Nat → β → σ → Prop)
    (hP : ∀ idx b s, P s → P (put idx b s).2)
    (hset : ∀ idx b s a, P s → (put idx b s).1 = .ok a → Q idx b (put idx b s).2)
    (hkeep : ∀ q c idx b s, q ≠ idx → P s → Q q c s → Q q c (put idx b s).2)
    {idxs : List Nat} {bs : List β} {s s' : σ} {stats stats' : StatValues α} (hnd : idxs.Nodup)
    (hs : P s) (h : fillLoop put idxs bs s stats = (.ok (), s', stats')) :
    ∀ pb ∈ idxs.zip bs, Q pb.1 pb.2 s' := by
  induction idxs generalizing bs s stats with
  | nil => simp
  | cons idx idxs ih =>
    cases bs with
    | nil => simp [fillLoop] at h
    | cons b bs =>
      simp only [fillLoop] at h
      split at h
      · simp at h
      · rename_i a s₁ hput
        have hs₁ : P s₁ := by simpa [hput] using hP idx b s hs
        obtain ⟨hidx, hnd⟩ := List.nodup_cons.mp hnd
        intro pb hpb
        rw [List.zip_cons_cons, List.mem_cons] at hpb
        rcases hpb with rfl | hpb
        · -- the step at this position, kept by every later step at another position
          have hQ : Q idx b s₁ := by simpa [hput] using hset idx b s a hs (by rw [hput])
          have hend : (fun t => P t ∧ Q idx b t) (fillLoop put idxs bs s₁ (stats.update a)).2.1 :=
            fillLoop_invariant put (fun t => P t ∧ Q idx b t)
              (fun i hi b' t ht => ⟨hP i b' t ht.1,
                hkeep idx b i b' t (fun he => hidx (he ▸ hi)) ht.1 ht.2⟩) ⟨hs₁, hQ⟩
          rw [h] at hend
          exact hend.2
        · exact ih hnd hs₁ h pb hpb

/-- **Two loops that take the same steps end the same way.** When every step of `put`
on an item the loop consumes returns what a step of `put'` returns on its image under
`f`, from related states to related states, the two loops return the same result and
the same accumulator, in related states. -/
theorem fillLoop_sim {γ τ : Type} (put' : Nat → γ → τ → Except Exit α × τ) (R : σ → τ → Prop)
    (f : β → γ) {idxs : List Nat} {bs : List β}
    (hstep : ∀ pb ∈ idxs.zip bs, ∀ s t, R s t → (put pb.1 pb.2 s).1 = (put' pb.1 (f pb.2) t).1 ∧
      R (put pb.1 pb.2 s).2 (put' pb.1 (f pb.2) t).2)
    {s : σ} {t : τ} (hR : R s t) (stats : StatValues α) :
    (fillLoop put idxs bs s stats).1 = (fillLoop put' idxs (bs.map f) t stats).1 ∧
      R (fillLoop put idxs bs s stats).2.1 (fillLoop put' idxs (bs.map f) t stats).2.1 ∧
      (fillLoop put idxs bs s stats).2.2 = (fillLoop put' idxs (bs.map f) t stats).2.2 := by
  induction idxs generalizing bs s t stats with
  | nil => exact ⟨rfl, hR, rfl⟩
  | cons idx idxs ih =>
    cases bs with
    | nil => exact ⟨rfl, hR, rfl⟩
    | cons b bs =>
      obtain ⟨h1, h2⟩ := hstep (idx, b) (List.mem_cons_self _ _) s t hR
      simp only [fillLoop, List.map_cons]
      rcases hp : put idx b s with ⟨r, s₁⟩
      rcases hp' : put' idx (f b) t with ⟨r', t₁⟩
      rw [hp, hp'] at h1 h2
      obtain rfl : r = r' := h1
      cases r with
      | error x => exact ⟨rfl, h2, rfl⟩
      | ok a => exact ih (fun pb hpb => hstep pb (List.mem_cons_of_mem _ hpb)) h2 _

/-- A loop that succeeds had an input item for every position, and counted one
value per position. -/
theorem fillLoop_ok {idxs : List Nat} {bs : List β} {s s' : σ} {stats stats' : StatValues α}
    (h : fillLoop put idxs bs s stats = (.ok (), s', stats')) :
    idxs.length ≤ bs.length ∧ stats'.totalCount = stats.totalCount + idxs.length := by
  induction idxs generalizing bs s stats with
  | nil => simp_all [fillLoop]
  | cons idx idxs ih =>
    cases bs with
    | nil => simp [fillLoop] at h
    | cons b bs =>
      simp only [fillLoop] at h
      split at h
      · simp at h
      · have := ih h
        simp only [List.length_cons, StatValues.totalCount_update] at this ⊢
        omega

/-- A loop counts at most one value per position, wherever it stops. -/
theorem fillLoop_totalCount_le (idxs : List Nat) (bs : List β) (s : σ) (stats : StatValues α) :
    (fillLoop put idxs bs s stats).2.2.totalCount ≤ stats.totalCount + idxs.length := by
  induction idxs generalizing bs s stats with
  | nil => simp [fillLoop]
  | cons idx idxs ih =>
    cases bs with
    | nil => simp [fillLoop]
    | cons b bs =>
      simp only [fillLoop]
      split
      · simp
      · rename_i a s₁ _
        have := ih bs s₁ (stats.update a)
        simp only [List.length_cons, StatValues.totalCount_update] at this ⊢
        omega

/-- **The accumulator of a loop that succeeds is `update` folded over the items it
took**, one per position, when every step returns the value of its item. -/
theorem fillLoop_stats (f : β → α) (hput : ∀ idx b s a, (put idx b s).1 = .ok a → a = f b)
    {idxs : List Nat} {bs : List β} {s s' : σ} {stats stats' : StatValues α}
    (h : fillLoop put idxs bs s stats = (.ok (), s', stats')) :
    stats' = ((bs.take idxs.length).map f).foldl StatValues.update stats := by
  induction idxs generalizing bs s stats with
  | nil =>
    simp only [fillLoop, Prod.mk.injEq] at h
    simp [← h.2.2]
  | cons idx idxs ih =>
    cases bs with
    | nil => simp [fillLoop] at h
    | cons b bs =>
      simp only [fillLoop] at h
      split at h
      · simp at h
      · rename_i a s₁ hp
        rw [ih h, hput idx b s a (by rw [hp])]
        simp

end Loop

end BatchWriter
