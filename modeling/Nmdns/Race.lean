import Nmdns.Sources

/-!
# Lookups that race with insertions

`src/cache.rs`: the cache is behind a lock.  `insert_from` reads the clock while it holds the lock;
`lookup`, `lookup_from_other_ifaces`, `snapshot` and `evict_expired` read it before they take the
lock.  Between the two, other calls may change the cache.

* `CacheQuery`: the calls that return records; `selects`, `serve`, `mem_serve`;
* `RaceStep`, `Race.step`, `Race.run`: a reading of the clock and the taking of the lock as separate
  steps, in any order;
* `served_run`: what a call sees is the cache after the changes that came before it;
* `served_ttl_iff`: the TTLs that are served are within bounds exactly when no call sees an entry
  that was stored at a later reading than its own.
-/

namespace Nmdns

/-- The calls that return records. -/
inductive CacheQuery
  | lookup (name : Name) (rtype : RecordType)
  | lookupFromOtherIfaces (name : Name) (rtype : RecordType) (arrivalIfindex : UInt32)
  | snapshot
  deriving DecidableEq, Repr

/-- The result of a call under the lock, with the reading it has made. -/
def CacheQuery.serve (c : Cache) (σ : CacheOrder) (reading : ℕ) : CacheQuery → List Record
  | .lookup name rtype => c.lookup σ reading name rtype
  | .lookupFromOtherIfaces name rtype arrivalIfindex =>
    c.lookupFromOtherIfaces σ reading name rtype arrivalIfindex
  | .snapshot => c.snapshot σ reading

/-- The entries that a call selects. -/
def CacheQuery.selects (e : Entry) : CacheQuery → Bool
  | .lookup name rtype => recordMatches e.record name rtype
  | .lookupFromOtherIfaces name rtype arrivalIfindex =>
    recordMatches e.record name rtype && learnedElsewhere arrivalIfindex e
  | .snapshot => true

/-- What a call returns: the selected entries that are live, with their remaining TTL. -/
theorem CacheQuery.mem_serve {c : Cache} {σ : CacheOrder} {reading : ℕ} {q : CacheQuery}
    {r : Record} (h : r ∈ q.serve c σ reading) :
    ∃ k e s, c.byKey.find? k = some e ∧ q.selects e = true ∧
      recordWithRemainingTtl e reading = some s ∧ RecordKey.of r = RecordKey.of s ∧
      r.ttl = s.ttl := by
  cases q with
  | lookup name rtype =>
    obtain ⟨k, e, hfind, hm, -, hs⟩ := mem_lookupInner.1 h
    exact ⟨k, e, r, hfind, hm, hs, rfl, rfl⟩
  | lookupFromOtherIfaces name rtype arrivalIfindex =>
    obtain ⟨s, hs, rfl⟩ := List.mem_map.1 h
    obtain ⟨k, e, hfind, hm, hsrc, hs⟩ := mem_lookupInner.1 hs
    exact ⟨k, e, s, hfind, Bool.and_eq_true_iff.2 ⟨hm, hsrc⟩, hs, rfl, rfl⟩
  | snapshot =>
    obtain ⟨k, e, hfind, hs⟩ := mem_snapshot.1 h
    exact ⟨k, e, r, hfind, rfl, hs, rfl, rfl⟩

theorem CacheQuery.exists_mem_serve {c : Cache} (σ : CacheOrder) {reading : ℕ} {q : CacheQuery}
    {k : RecordKey} {e : Entry} {s : Record} (hfind : c.byKey.find? k = some e)
    (hsel : q.selects e = true) (hs : recordWithRemainingTtl e reading = some s) :
    ∃ r ∈ q.serve c σ reading, RecordKey.of r = RecordKey.of s ∧ r.ttl = s.ttl := by
  cases q with
  | lookup name rtype => exact ⟨s, mem_lookupInner.2 ⟨k, e, hfind, hsel, rfl, hs⟩, rfl, rfl⟩
  | lookupFromOtherIfaces name rtype arrivalIfindex =>
    obtain ⟨hm, hsrc⟩ := Bool.and_eq_true_iff.1 hsel
    exact ⟨_, List.mem_map_of_mem (mem_lookupInner.2 ⟨k, e, hfind, hm, hsrc, hs⟩), rfl, rfl⟩
  | snapshot => exact ⟨s, mem_snapshot.2 ⟨k, e, hfind, hs⟩, rfl, rfl⟩

/-! ### Interleavings -/

/-- A call that has read the clock and waits for the lock. -/
inductive Waiting
  | query (q : CacheQuery)
  | sweep
  deriving DecidableEq, Repr

/-- A call that has returned: its reading, the cache it saw, the changes made before, and its
result. -/
structure Served where
  query : CacheQuery
  reading : ℕ
  cache : Cache
  changes : List CacheEvent
  records : List Record

/-- The cache, the calls that wait for its lock, the changes made so far and the calls that have
returned. -/
structure Race where
  cache : Cache
  waiting : List (ℕ × Waiting)
  changes : List CacheEvent
  served : List Served

/-- What may happen next. -/
inductive RaceStep
  | insert (now : ℕ) (σ : CacheOrder) (record : Record) (src : Option UInt32)
  | read (now : ℕ) (call : Waiting)
  | lock (n : ℕ) (σ : CacheOrder)

/-- The reading of the clock that a step makes. -/
def RaceStep.reading? : RaceStep → Option ℕ
  | .insert now _ _ _ => some now
  | .read now _ => some now
  | .lock _ _ => none

/-- The state before the first call. -/
def Race.start (maxEntries : ℕ) (maxTtl : Option UInt64) : Race :=
  ⟨Cache.withCapacityAndMaxTtl maxEntries maxTtl, [], [], []⟩

/-- The state after a change under the lock. -/
def Race.change (s : Race) (ev : CacheEvent) : Race :=
  { s with cache := s.cache.step ev, changes := s.changes ++ [ev] }

/-- One step: an insertion, a reading of the clock, or the rest of the `n`-th waiting call. -/
def Race.step (s : Race) : RaceStep → Race
  | .insert now σ record src => s.change ⟨now, .insert σ record src⟩
  | .read now call => { s with waiting := s.waiting ++ [(now, call)] }
  | .lock n σ =>
    match s.waiting[n]? with
    | none => s
    | some (reading, .sweep) =>
      { s.change ⟨reading, .sweep⟩ with waiting := s.waiting.eraseIdx n }
    | some (reading, .query q) =>
      { s with
        waiting := s.waiting.eraseIdx n
        served := s.served ++
          [⟨q, reading, s.cache, s.changes, q.serve s.cache σ reading⟩] }

/-- Any sequence of steps. -/
def Race.run (s : Race) (steps : List RaceStep) : Race := steps.foldl Race.step s

/-- A call that returned saw the cache after the changes before it, under some iteration order. -/
structure Served.Sound (n : ℕ) (cap : Option UInt64) (s : Served) : Prop where
  cache_eq : s.cache = (Cache.withCapacityAndMaxTtl n cap).run s.changes
  records_eq : ∃ σ, s.records = s.query.serve s.cache σ s.reading

/-- The cache is that of the changes, and every call that returned is sound. -/
structure Race.Sound (n : ℕ) (cap : Option UInt64) (s : Race) : Prop where
  cache_eq : s.cache = (Cache.withCapacityAndMaxTtl n cap).run s.changes
  served : ∀ r ∈ s.served, r.Sound n cap

section Sound

variable {n : ℕ} {cap : Option UInt64} {s : Race}

theorem Race.Sound.change (h : s.Sound n cap) (ev : CacheEvent) : (s.change ev).Sound n cap where
  cache_eq := by
    show s.cache.step ev = _
    rw [h.cache_eq]
    exact (run_append_singleton _ _ _).symm
  served := h.served

theorem Race.Sound.step (h : s.Sound n cap) (st : RaceStep) : (s.step st).Sound n cap := by
  cases st with
  | insert now σ record src => exact h.change _
  | read now call => exact ⟨h.cache_eq, h.served⟩
  | lock m σ =>
    unfold Race.step
    dsimp only
    split
    · exact h
    · rename_i reading _
      exact ⟨(h.change ⟨reading, .sweep⟩).cache_eq, h.served⟩
    · refine ⟨h.cache_eq, fun r hr => ?_⟩
      rcases List.mem_append.1 hr with hr | hr
      · exact h.served r hr
      · rw [List.mem_singleton.1 hr]
        exact ⟨h.cache_eq, σ, rfl⟩

/-- **What a call sees**: in every interleaving, the cache after the changes that came before. -/
theorem served_run (n : ℕ) (cap : Option UInt64) (steps : List RaceStep) :
    ((Race.start n cap).run steps).Sound n cap := by
  induction steps using List.reverseRecOn with
  | nil => exact ⟨rfl, fun r hr => absurd hr List.not_mem_nil⟩
  | append_singleton steps st ih =>
    rw [Race.run, List.foldl_append]
    exact ih.step st

end Sound

/-! ### The TTLs that are served -/

/-- The TTL of a returned record is positive and at most that of the insertion that created its
entry, capped. -/
def Served.Within (cap : Option UInt64) (s : Served) (r : Record) : Prop :=
  ∃ r₀ t₀, Standing s.changes r₀ t₀ ∧ RecordKey.of r₀ == RecordKey.of r ∧ 1 ≤ r.ttl.toNat ∧
    r.ttl.toNat ≤ cappedSecs cap r₀.ttl

/-- The call finds the entry of `r` in the cache and selects it. -/
def Served.Sees (s : Served) (r : Record) : Prop :=
  ∃ e, s.cache.byKey.find? (RecordKey.of r) = some e ∧ s.query.selects e = true

section Ttl

variable {n : ℕ} {cap : Option UInt64} {e : Entry} {r s : Record} {t T : ℕ}

theorem cappedSecs_le (cap : Option UInt64) (ttl : UInt32) : cappedSecs cap ttl ≤ 2 ^ 32 - 1 := by
  have := ttl.toNat_lt
  unfold cappedSecs
  split <;> omega

/-- The TTL served at `T` for an insertion at `t`: at least one, and within the stored TTL unless
the insertion is later and the TTL can still grow. -/
theorem served_ttl_bounds (hcap : CapOk cap) (he : e.face = storedAs cap (r, t))
    (hs : recordWithRemainingTtl e T = some s) :
    1 ≤ s.ttl.toNat ∧
      (s.ttl.toNat ≤ cappedSecs cap r.ttl ↔ t ≤ T ∨ cappedSecs cap r.ttl = 2 ^ 32 - 1) := by
  have hdl : e.deadline = t + fromSecs (cappedSecs cap r.ttl) := by
    rw [← capTtl_toNat hcap]
    exact congrArg Prod.snd he
  obtain ⟨hlt, rfl⟩ := recordWithRemainingTtl_eq_some.1 hs
  have hle := cappedSecs_le cap r.ttl
  rw [hdl] at hlt ⊢
  generalize cappedSecs cap r.ttl = ttl at hlt hle ⊢
  dsimp only
  rw [toNat_ofNat_min]
  unfold fromSecs at hlt ⊢
  omega

end Ttl

/-- The entry that a call finds stems from the standing insertion of its key. -/
theorem Served.Sound.standing {n : ℕ} {cap : Option UInt64} {s : Served} (hs : s.Sound n cap)
    (hcap : CapOk cap) {k : RecordKey} {e : Entry} (hfind : s.cache.byKey.find? k = some e) :
    ∃ r t, k == RecordKey.of r ∧ Standing s.changes r t ∧ e.face = storedAs cap (r, t) ∧
      RecordKey.of e.record = RecordKey.of r := by
  rw [hs.cache_eq] at hfind
  obtain ⟨r, t, hk, hst, hface⟩ := find?_run_standing hcap hfind
  refine ⟨r, t, hk, hst, hface, ?_⟩
  rw [show e.record = { r with ttl := capTtl cap r.ttl } from congrArg Prod.fst hface]
  rfl

/-- **The TTLs that are served**: in every interleaving they are within bounds, exactly when every
entry that a call sees was stored at a reading that is not later than its own, or has the greatest
TTL there is. -/
theorem served_ttl_iff (n : ℕ) {cap : Option UInt64} (hcap : CapOk cap) (steps : List RaceStep) :
    (∀ s ∈ ((Race.start n cap).run steps).served, ∀ r ∈ s.records, s.Within cap r) ↔
      ∀ s ∈ ((Race.start n cap).run steps).served, ∀ r t, Standing s.changes r t → s.Sees r →
        t ≤ s.reading ∨ cappedSecs cap r.ttl = 2 ^ 32 - 1 := by
  have hsound := (served_run n cap steps).served
  refine forall₂_congr fun s hs => ?_
  obtain ⟨σ, hrec⟩ := (hsound s hs).records_eq
  constructor
  · rintro hall r t hst ⟨e, hfind, hsel⟩
    obtain ⟨r', t', hk, hst', hface, hkey⟩ := (hsound s hs).standing hcap hfind
    obtain ⟨rfl, rfl⟩ := hst.unique hst' hk
    by_contra hlate
    -- the entry was stored after the reading, so it is live and is returned
    have hlive : s.reading < e.deadline := by
      have hdl : e.deadline = t + fromSecs (capTtl cap r.ttl).toNat := congrArg Prod.snd hface
      omega
    obtain ⟨v, hv⟩ : ∃ v, recordWithRemainingTtl e s.reading = some v :=
      ⟨_, recordWithRemainingTtl_eq_some.2 ⟨hlive, rfl⟩⟩
    obtain ⟨u, hu, huk, httl⟩ := s.query.exists_mem_serve σ hfind hsel hv
    rw [← hrec] at hu
    obtain ⟨r₀, t₀, hst₀, hk₀, -, hle⟩ := hall u hu
    rw [huk, recordWithRemainingTtl_key hv, hkey] at hk₀
    obtain ⟨rfl, rfl⟩ := hst.unique hst₀ (BEq.symm hk₀)
    rw [httl] at hle
    exact hlate ((served_ttl_bounds hcap hface hv).2.1 hle)
  · intro hseen r hr
    rw [hrec] at hr
    obtain ⟨k, e, v, hfind, hsel, hv, hrv, httl⟩ := CacheQuery.mem_serve hr
    obtain ⟨r₀, t₀, hk, hst, hface, hkey⟩ := (hsound s hs).standing hcap hfind
    have hsees : s.Sees r₀ := ⟨e, by rw [← KeyedMap.find?_congr _ hk]; exact hfind, hsel⟩
    obtain ⟨hpos, hle⟩ := served_ttl_bounds hcap hface hv
    have hbound := hle.2 (hseen r₀ t₀ hst hsees)
    rw [← httl] at hpos hbound
    refine ⟨r₀, t₀, hst, ?_, hpos, hbound⟩
    rw [hrv, recordWithRemainingTtl_key hv, hkey]
    exact BEq.rfl

/-- The printer is heard, and then a lookup reads the clock and takes the lock. -/
def orderedLookup : List RaceStep :=
  [.insert 0 (IterOrder.id _ _) printerAddress (some 3),
    .read 1 (.query (.lookup printerAddress.name .a)), .lock 0 (IterOrder.id _ _)]

/-- The lookup reads the clock, the printer is heard a nanosecond later, and the lookup takes the
lock. -/
def racingLookup : List RaceStep :=
  [.read 0 (.query (.lookup printerAddress.name .a)),
    .insert 1 (IterOrder.id _ _) printerAddress (some 3), .lock 0 (IterOrder.id _ _)]

theorem served_ttl_iff_ordered :
    (orderedLookup.filterMap RaceStep.reading?).Pairwise (· ≤ ·) ∧
      ∀ s ∈ ((Race.start 4096 (some 120)).run orderedLookup).served, ∀ r ∈ s.records,
        s.Within (some 120) r := by
  refine ⟨by decide, (served_ttl_iff 4096 (by intro cap hc; cases hc; decide) orderedLookup).2 ?_⟩
  intro s hs r t hst _
  obtain rfl := List.mem_singleton.1 hs
  obtain ⟨pre, σ, src, post, hsplit, -, -⟩ := hst
  have hmem : (⟨t, .insert σ r src⟩ : CacheEvent) ∈ pre ++ ⟨t, .insert σ r src⟩ :: post :=
    List.mem_append_right _ List.mem_cons_self
  rw [← hsplit] at hmem
  cases List.mem_singleton.1 hmem
  exact Or.inl (Nat.zero_le 1)

/-- The clock does not go back in the race, and the lookup returns 121 s for a record that was
inserted with 120 s, under a cap of 120 s. -/
theorem lookup_serves_longer :
    (racingLookup.filterMap RaceStep.reading?).Pairwise (· ≤ ·) ∧
      ∃ s ∈ ((Race.start 4096 (some 120)).run racingLookup).served,
        s.records = [{ printerAddress with ttl := 121 }] ∧ Standing s.changes printerAddress 1 ∧
        ¬ s.Within (some 120) { printerAddress with ttl := 121 } := by
  have hst : Standing [⟨1, .insert (IterOrder.id _ _) printerAddress (some 3)⟩] printerAddress 1 :=
    ⟨[], _, _, [], rfl, by decide, by simp⟩
  refine ⟨by decide, _, List.mem_singleton.2 rfl, by decide +kernel, hst, ?_⟩
  rintro ⟨r₀, t₀, hst₀, hk, -, hle⟩
  obtain ⟨rfl, -⟩ := hst.unique hst₀ (BEq.symm hk)
  exact absurd hle (by decide)

end Nmdns
