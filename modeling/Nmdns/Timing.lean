import Nmdns.Record

/-!
# Rate limiting and response delays

`src/timing.rs`: the time at which each record was last multicast on each interface, and the
delay of a response.

* `MulticastTracker`: `mark`, `pruneOlderThan`, `allows`, `checkAndMark`;
* `retainMarked`: the loop `retain(check_and_mark)` over a list of records;
* `DelayClass`, `responseDelay`.
-/

namespace Nmdns

/-- `MIN_MULTICAST_INTERVAL`. -/
def minMulticastInterval : ℕ := fromSecs 1

/-- `PROBE_DEFENSE_INTERVAL`. -/
def probeDefenseInterval : ℕ := fromMillis 250

/-- `ANNOUNCE_GAP`. -/
def announceGap : ℕ := fromSecs 1

/-- The time of the last multicast of a record on an interface. -/
structure MulticastTracker where
  last : KeyedMap (UInt32 × RecordKey) ℕ

namespace MulticastTracker

/-- `MulticastTracker::new`. -/
def new : MulticastTracker := ⟨KeyedMap.empty⟩

/-- The stamp of a record on an interface. -/
def stamp? (t : MulticastTracker) (ifindex : UInt32) (k : RecordKey) : Option ℕ :=
  t.last.find? (ifindex, k)

/-- `MulticastTracker::mark`. -/
def mark (t : MulticastTracker) (now : ℕ) (ifindex : UInt32) (rec : Record) : MulticastTracker :=
  ⟨t.last.insert (ifindex, RecordKey.of rec) now⟩

/-- The loop of `announce_all` that marks the records of an announcement. -/
def markAll (t : MulticastTracker) (now : ℕ) (ifindex : UInt32) (rs : List Record) :
    MulticastTracker :=
  rs.foldl (fun t r => t.mark now ifindex r) t

/-- `MulticastTracker::prune_older_than`. -/
def pruneOlderThan (t : MulticastTracker) (now minInterval : ℕ) : MulticastTracker :=
  ⟨t.last.retain fun _ s => decide (now - s < minInterval)⟩

/-- `MulticastTracker::allows`. -/
def allows (t : MulticastTracker) (now : ℕ) (ifindex : UInt32) (rec : Record)
    (minInterval : ℕ) : Bool :=
  match t.stamp? ifindex (RecordKey.of rec) with
  | some s => decide (minInterval ≤ now - s)
  | none => true

/-- `MulticastTracker::check_and_mark`. -/
def checkAndMark (t : MulticastTracker) (now : ℕ) (ifindex : UInt32) (rec : Record)
    (minInterval : ℕ) : MulticastTracker × Bool :=
  match t.stamp? ifindex (RecordKey.of rec) with
  | some s => if now - s < minInterval then (t, false) else (t.mark now ifindex rec, true)
  | none => (t.mark now ifindex rec, true)

/-- `records.retain(|r| check_and_mark(ifindex, r, min_interval))`. -/
def retainMarked (t : MulticastTracker) (now : ℕ) (ifindex : UInt32) (minInterval : ℕ) :
    List Record → MulticastTracker × List Record
  | [] => (t, [])
  | r :: rs =>
    let (t', ok) := t.checkAndMark now ifindex r minInterval
    let (t'', kept) := t'.retainMarked now ifindex minInterval rs
    (t'', if ok then r :: kept else kept)

/-! ### One call -/

theorem stamp?_congr (t : MulticastTracker) (i : UInt32) {k k' : RecordKey} (h : k == k') :
    t.stamp? i k = t.stamp? i k' :=
  t.last.find?_congr (Bool.and_eq_true_iff.2 ⟨BEq.rfl, h⟩)

theorem stamp?_mark (t : MulticastTracker) (now : ℕ) (ifindex : UInt32) (rec : Record)
    (i : UInt32) (k : RecordKey) :
    (t.mark now ifindex rec).stamp? i k =
      if i = ifindex ∧ k == RecordKey.of rec then some now else t.stamp? i k := by
  unfold mark stamp?
  rw [KeyedMap.find?_insert]
  have hpair : ((i, k) == (ifindex, RecordKey.of rec)) = true ↔
      i = ifindex ∧ k == RecordKey.of rec := by
    show (i == ifindex && k == RecordKey.of rec) = true ↔ _
    rw [Bool.and_eq_true, beq_iff_eq]
  by_cases h : ((i, k) == (ifindex, RecordKey.of rec)) = true
  · rw [if_pos h, if_pos (hpair.1 h)]
  · rw [if_neg h, if_neg fun h' => h (hpair.2 h')]

theorem stamp?_markAll (t : MulticastTracker) (now : ℕ) (ifindex : UInt32) (rs : List Record)
    (i : UInt32) (k : RecordKey) :
    (t.markAll now ifindex rs).stamp? i k =
      if i = ifindex ∧ ∃ r ∈ rs, k == RecordKey.of r then some now else t.stamp? i k := by
  induction rs generalizing t with
  | nil => simp [markAll]
  | cons r rs ih =>
    show ((t.mark now ifindex r).markAll now ifindex rs).stamp? i k = _
    rw [ih, stamp?_mark]
    by_cases hi : i = ifindex
    · by_cases hk : k == RecordKey.of r <;> simp [hi, hk]
    · simp [hi]

theorem stamp?_pruneOlderThan (t : MulticastTracker) (now minInterval : ℕ) (i : UInt32)
    (k : RecordKey) :
    (t.pruneOlderThan now minInterval).stamp? i k =
      (t.stamp? i k).filter fun s => decide (now - s < minInterval) :=
  KeyedMap.find?_retain _ (fun _ _ _ _ => rfl) _

/-- `check_and_mark` marks exactly when the record is allowed. -/
theorem checkAndMark_eq (t : MulticastTracker) (now : ℕ) (ifindex : UInt32) (rec : Record)
    (minInterval : ℕ) :
    t.checkAndMark now ifindex rec minInterval =
      if t.allows now ifindex rec minInterval then (t.mark now ifindex rec, true)
      else (t, false) := by
  unfold checkAndMark allows
  cases t.stamp? ifindex (RecordKey.of rec) with
  | none => rfl
  | some s =>
    by_cases h : now - s < minInterval
    · simp [h]
    · simp [h, Nat.not_lt.1 h]

theorem retainMarked_cons (t : MulticastTracker) (now : ℕ) (ifindex : UInt32) (minInterval : ℕ)
    (r : Record) (rs : List Record) :
    t.retainMarked now ifindex minInterval (r :: rs) =
      if t.allows now ifindex r minInterval then
        (((t.mark now ifindex r).retainMarked now ifindex minInterval rs).1,
          r :: ((t.mark now ifindex r).retainMarked now ifindex minInterval rs).2)
      else t.retainMarked now ifindex minInterval rs := by
  rw [retainMarked, checkAndMark_eq]
  by_cases h : t.allows now ifindex r minInterval = true
  · rw [if_pos h, if_pos h]
    rfl
  · rw [if_neg h, if_neg h]
    rfl

theorem allows_iff {t : MulticastTracker} {now : ℕ} {ifindex : UInt32} {rec : Record}
    {minInterval : ℕ} : t.allows now ifindex rec minInterval = true ↔
      ∀ s, t.stamp? ifindex (RecordKey.of rec) = some s → minInterval ≤ now - s := by
  unfold allows
  cases t.stamp? ifindex (RecordKey.of rec) <;> simp

/-! ### The retaining loop -/

section Retain

variable {now : ℕ} {ifindex : UInt32} {minInterval : ℕ}

theorem retainMarked_sublist (t : MulticastTracker) (rs : List Record) :
    (t.retainMarked now ifindex minInterval rs).2.Sublist rs := by
  induction rs generalizing t with
  | nil => exact List.Sublist.refl _
  | cons r rs ih =>
    rw [retainMarked_cons]
    split_ifs
    · exact (ih _).cons_cons r
    · exact (ih _).cons r

/-- The loop stamps the records it keeps, and no others. -/
theorem stamp?_retainMarked (t : MulticastTracker) (rs : List Record) (i : UInt32)
    (k : RecordKey) :
    (t.retainMarked now ifindex minInterval rs).1.stamp? i k =
      if i = ifindex ∧ ∃ r ∈ (t.retainMarked now ifindex minInterval rs).2, k == RecordKey.of r
      then some now else t.stamp? i k := by
  induction rs generalizing t with
  | nil => simp [retainMarked]
  | cons r rs ih =>
    rw [retainMarked_cons]
    by_cases hok : t.allows now ifindex r minInterval = true
    · simp only [if_pos hok, ih, stamp?_mark, List.mem_cons, exists_eq_or_imp]
      by_cases hi : i = ifindex
      · by_cases hk : k == RecordKey.of r <;> simp [hi, hk]
      · simp [hi]
    · simp only [if_neg hok, ih]

/-- A record that is kept was allowed before the loop. -/
theorem allows_of_mem_retainMarked {t : MulticastTracker} {rs : List Record} {r : Record}
    (h : r ∈ (t.retainMarked now ifindex minInterval rs).2) :
    t.allows now ifindex r minInterval = true := by
  induction rs generalizing t with
  | nil => cases h
  | cons s rs ih =>
    rw [retainMarked_cons] at h
    split_ifs at h with hok
    · rcases List.mem_cons.1 h with rfl | h
      · exact hok
      · have hmarked := allows_iff.1 (ih h)
        -- a stamp made by the loop is too fresh, unless the interval is zero
        rw [allows_iff]
        intro s₀ hs₀
        by_cases hk : RecordKey.of r == RecordKey.of s
        · have hzero := hmarked now (by rw [stamp?_mark, if_pos ⟨rfl, hk⟩])
          omega
        · exact hmarked s₀ (by rw [stamp?_mark, if_neg fun hc => hk hc.2]; exact hs₀)
    · exact ih h

/-- The loop keeps nothing exactly when no record is allowed, and then it marks nothing. -/
theorem retainMarked_eq_nil_iff (t : MulticastTracker) (rs : List Record) :
    (t.retainMarked now ifindex minInterval rs).2 = [] ↔
      ∀ r ∈ rs, t.allows now ifindex r minInterval = false := by
  induction rs with
  | nil => simp [retainMarked]
  | cons r rs ih =>
    rw [retainMarked_cons, List.forall_mem_cons]
    by_cases hok : t.allows now ifindex r minInterval = true
    · simp [hok]
    · rw [if_neg hok, ih, and_iff_right (Bool.not_eq_true _ ▸ hok)]

theorem retainMarked_tracker_of_nil {t : MulticastTracker} {rs : List Record}
    (h : (t.retainMarked now ifindex minInterval rs).2 = []) :
    (t.retainMarked now ifindex minInterval rs).1 = t := by
  induction rs with
  | nil => rfl
  | cons r rs ih =>
    have hok := (retainMarked_eq_nil_iff t _).1 h r List.mem_cons_self
    rw [retainMarked_cons, if_neg (by rw [hok]; exact Bool.false_ne_true)] at h ⊢
    exact ih h

/-- What is allowed after others were marked was allowed before. -/
theorem allows_of_allows_retainMarked {t : MulticastTracker} {rs : List Record} {r : Record}
    (hpos : 0 < minInterval)
    (h : (t.retainMarked now ifindex minInterval rs).1.allows now ifindex r minInterval = true) :
    t.allows now ifindex r minInterval = true := by
  rw [allows_iff] at h ⊢
  intro s hs
  by_cases hmark : ∃ a ∈ (t.retainMarked now ifindex minInterval rs).2,
      RecordKey.of r == RecordKey.of a
  · -- it would have been marked just now
    have hnow := h now (by rw [stamp?_retainMarked, if_pos ⟨rfl, hmark⟩])
    rw [Nat.sub_self] at hnow
    exact absurd hnow (Nat.not_le.2 hpos)
  · exact h s (by
      rw [stamp?_retainMarked, if_neg fun hm => hmark hm.2]
      exact hs)

/-- Marking another record changes nothing for a record. -/
theorem allows_mark_of_ne (t : MulticastTracker) {r s : Record}
    (h : ¬ RecordKey.of s == RecordKey.of r) :
    (t.mark now ifindex r).allows now ifindex s minInterval =
      t.allows now ifindex s minInterval := by
  unfold allows
  rw [stamp?_mark, if_neg fun hc => h hc.2]

/-- The loop keeps every record that is allowed, or an earlier one with the same key. -/
theorem exists_mem_retainMarked {t : MulticastTracker} {rs : List Record} {r : Record}
    (hr : r ∈ rs) (hok : t.allows now ifindex r minInterval = true) :
    ∃ s ∈ (t.retainMarked now ifindex minInterval rs).2, RecordKey.of r == RecordKey.of s := by
  induction rs generalizing t with
  | nil => cases hr
  | cons s rs ih =>
    rw [retainMarked_cons]
    by_cases hs : t.allows now ifindex s minInterval = true
    · rw [if_pos hs]
      by_cases hk : RecordKey.of r == RecordKey.of s
      · exact ⟨s, List.mem_cons_self, hk⟩
      · have hr' : r ∈ rs := by
          rcases List.mem_cons.1 hr with rfl | hr
          · exact absurd BEq.rfl hk
          · exact hr
        obtain ⟨u, hu, hru⟩ := ih hr' ((allows_mark_of_ne t hk).trans hok)
        exact ⟨u, List.mem_cons_of_mem _ hu, hru⟩
    · rw [if_neg hs]
      rcases List.mem_cons.1 hr with rfl | hr
      · exact absurd hok hs
      · exact ih hr hok

/-- On records with distinct keys the loop is a filter. -/
theorem retainMarked_eq_filter (t : MulticastTracker) {rs : List Record}
    (hd : rs.Pairwise fun r s => (RecordKey.of r == RecordKey.of s) = false) :
    (t.retainMarked now ifindex minInterval rs).2 =
      rs.filter fun r => t.allows now ifindex r minInterval := by
  induction rs generalizing t with
  | nil => rfl
  | cons r rs ih =>
    rw [List.pairwise_cons] at hd
    rw [retainMarked_cons, List.filter_cons]
    split_ifs with hok
    · have hsame : ∀ s ∈ rs, (t.mark now ifindex r).allows now ifindex s minInterval =
          t.allows now ifindex s minInterval := by
        intro s hs
        have hrs : ¬ RecordKey.of s == RecordKey.of r := by
          rw [BEq.comm, hd.1 s hs]
          exact Bool.false_ne_true
        exact allows_mark_of_ne t hrs
      rw [ih _ hd.2, List.filter_congr hsame]
    · exact ih _ hd.2

end Retain

end MulticastTracker

/-! ### Delays -/

/-- `DelayClass`. -/
inductive DelayClass
  | probeDefense
  | uniqueAnswer
  | shared
  | truncated
  deriving DecidableEq, Repr

/-- `response_delay`, drawing `rand` from the random number generator. -/
def responseDelay (cls : DelayClass) (rand : ℕ) : ℕ :=
  match cls with
  | .probeDefense | .uniqueAnswer => 0
  | .shared => fromMillis (20 + rand % 101)
  | .truncated => fromMillis (400 + rand % 101)

/-- No response is delayed by more than half a second. -/
theorem responseDelay_le (cls : DelayClass) (rand : ℕ) :
    responseDelay cls rand ≤ fromMillis 500 := by
  have := Nat.mod_lt rand (show 101 > 0 by omega)
  cases cls <;> simp only [responseDelay, fromMillis] <;> omega

end Nmdns
