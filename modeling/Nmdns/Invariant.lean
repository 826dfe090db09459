import Nmdns.Config
import Nmdns.History

/-!
# The invariant of the cache

What holds of the cache in every state that the daemon reaches, at any capacity.

* `CacheCall`, `Cache.call`, `Cache.runCalls`: insertions, sweeps and lookups in any order;
* `Cache.Inv`: the size, the keys, the stored TTLs and the deadlines;
* `inv_step`, `inv_runCalls`: one call keeps it, so every run does;
* `cache_invariant`: the invariant under every accepted configuration, and what holds right after
  an insertion.
-/

namespace Nmdns

/-- A call of the cache. -/
inductive CacheCall
  | change (op : CacheOp)
  | lookup (σ : CacheOrder) (name : Name) (rtype : RecordType)
  | lookupFromOtherIfaces (σ : CacheOrder) (name : Name) (rtype : RecordType)
      (arrivalIfindex : UInt32)
  | snapshot (σ : CacheOrder)

/-- The cache after a call at `now`, and the records that the call returns. -/
def Cache.call (c : Cache) (now : ℕ) : CacheCall → Cache × List Record
  | .change op => (c.step ⟨now, op⟩, [])
  | .lookup σ name rtype => (c, c.lookup σ now name rtype)
  | .lookupFromOtherIfaces σ name rtype arrivalIfindex =>
    (c, c.lookupFromOtherIfaces σ now name rtype arrivalIfindex)
  | .snapshot σ => (c, c.snapshot σ now)

/-- The cache after a sequence of calls, each with its reading of the clock. -/
def Cache.runCalls (c : Cache) (calls : List (ℕ × CacheCall)) : Cache :=
  calls.foldl (fun c call => (c.call call.1 call.2).1) c

/-- Only an insertion or a sweep changes the cache. -/
theorem call_cases (c : Cache) (now : ℕ) (call : CacheCall) :
    (c.call now call).1 = c ∨ ∃ op, (c.call now call).1 = c.step ⟨now, op⟩ := by
  cases call with
  | change op => exact Or.inr ⟨op, rfl⟩
  | lookup => exact Or.inl rfl
  | lookupFromOtherIfaces => exact Or.inl rfl
  | snapshot => exact Or.inl rfl

theorem runCalls_append_singleton (c : Cache) (calls : List (ℕ × CacheCall))
    (call : ℕ × CacheCall) :
    c.runCalls (calls ++ [call]) = ((c.runCalls calls).call call.1 call.2).1 := by
  simp [Cache.runCalls, List.foldl_append]

/-- A run of insertions and sweeps as a sequence of calls. -/
theorem run_eq_runCalls (c : Cache) (h : List CacheEvent) :
    c.run h = c.runCalls (h.map fun ev => (ev.time, .change ev.op)) := by
  unfold Cache.run Cache.runCalls
  rw [List.foldl_map]
  rfl

/-- The invariant at the time `now`. -/
structure Cache.Inv (c : Cache) (now : ℕ) : Prop where
  /-- The capacity is kept. -/
  size : c.byKey.length ≤ c.maxEntries
  /-- Every entry is stored under the key of its record. -/
  keyed : ∀ p ∈ c.byKey.entries, RecordKey.of p.2.record == p.1
  /-- No two entries share a key. -/
  distinct : c.byKey.entries.Pairwise fun p q => (p.1 == q.1) = false
  /-- A stored TTL is positive and within the cap. -/
  ttl : ∀ p ∈ c.byKey.entries, 1 ≤ p.2.record.ttl.toNat ∧
    ∀ cap, c.maxTtl = some cap → p.2.record.ttl.toNat ≤ cap.toNat
  /-- No entry outlives its TTL. -/
  deadline : ∀ p ∈ c.byKey.entries, p.2.deadline ≤ now + fromSecs p.2.record.ttl.toNat

/-! ### The size -/

/-- A capacity eviction leaves room for one entry. -/
theorem length_evictVictim_lt (σ : CacheOrder) {n : ℕ} (hn : 1 ≤ n) {m : Entries}
    (hm : m.length ≤ n) : (evictVictim σ n m).length < n := by
  rcases Nat.lt_or_ge m.length n with hfree | hfull
  · rw [evictVictim_of_lt hfree]
    exact hfree
  · obtain ⟨p, hp, -, -, heq⟩ := evictVictim_of_le σ hn hfull
    rw [heq]
    exact (m.length_erase_lt hp).trans_le hm

theorem length_insertFrom_le {c : Cache} (hpos : 1 ≤ c.maxEntries)
    (h : c.byKey.length ≤ c.maxEntries) (σ : CacheOrder) (now : ℕ) (record : Record)
    (src : Option UInt32) :
    (c.insertFrom σ now record src).1.byKey.length ≤ c.maxEntries := by
  have hpurge := (length_purge_le c.byKey record).trans h
  by_cases hz : capTtl c.maxTtl record.ttl = 0
  · simp only [Cache.insertFrom, if_pos hz]
    split
    · exact (KeyedMap.length_retain_le _ _).trans h
    · exact h
  · simp only [Cache.insertFrom, if_neg hz]
    split
    · rename_i e hold
      have hbound : (purge c.byKey record).find? (RecordKey.of record) ≠ none := by
        rw [hold]
        exact Option.some_ne_none e
      exact (KeyedMap.length_insert_of_bound _ hbound _).trans_le hpurge
    · have hroom := length_evictVictim_lt σ hpos hpurge
      have hle := KeyedMap.length_insert_le (evictVictim σ c.maxEntries (purge c.byKey record))
        (RecordKey.of record) (c.entryOf now record src)
      exact hle.trans hroom

/-! ### One call and whole runs -/

section Run

variable {c : Cache} {now : ℕ}

/-- What an entry after a step is: one from before, or one just stored with a positive TTL. -/
theorem step_mem_cases (hcap : CapOk c.maxTtl) {ev : CacheEvent} {p : RecordKey × Entry}
    (hp : p ∈ (c.step ev).byKey.entries) :
    (∃ k, (k, p.2) ∈ c.byKey.entries) ∨
      ∃ record src, 0 < record.ttl ∧ p.2 = c.entryOf ev.time record src := by
  have hfind : (c.step ev).byKey.find? p.1 = some p.2 :=
    KeyedMap.find?_eq_some_iff.2 ⟨p.1, hp, BEq.rfl⟩
  have hold : c.byKey.find? p.1 = some p.2 → ∃ k, (k, p.2) ∈ c.byKey.entries := fun h =>
    (KeyedMap.find?_eq_some_iff.1 h).imp fun k hk => hk.1
  obtain ⟨t, op⟩ := ev
  cases op with
  | insert σ record src =>
    rcases insertFrom_find?_cases hcap hfind with ⟨-, httl, heq⟩ | ⟨-, hprev, -⟩
    · exact Or.inr ⟨record, _, UInt32.pos_iff_ne_zero.2 httl, heq⟩
    · exact Or.inl (hold hprev)
  | sweep =>
    rw [Cache.step, evictExpired_find?, Option.filter_eq_some_iff] at hfind
    exact Or.inl (hold hfind.1)

/-- The TTL and the deadline of an entry that was just stored. -/
theorem entryOf_bounds (hcap : CapOk c.maxTtl) {record : Record} (hpos : 0 < record.ttl) {t : ℕ}
    (ht : t ≤ now) (src : Option UInt32) :
    (1 ≤ (c.entryOf t record src).record.ttl.toNat ∧
      ∀ cap, c.maxTtl = some cap → (c.entryOf t record src).record.ttl.toNat ≤ cap.toNat) ∧
      (c.entryOf t record src).deadline ≤
        now + fromSecs (c.entryOf t record src).record.ttl.toNat := by
  refine ⟨⟨?_, fun cap hc => ?_⟩, Nat.add_le_add_right ht _⟩
  · show 1 ≤ (capTtl c.maxTtl record.ttl).toNat
    exact one_le_capTtl (capTtl_ne_zero hcap hpos)
  · show (capTtl c.maxTtl record.ttl).toNat ≤ cap.toNat
    rw [capTtl_toNat hcap, hc]
    exact Nat.min_le_right _ _

theorem inv_step (hcap : CapOk c.maxTtl) (hpos : 1 ≤ c.maxEntries) (h : c.Inv now)
    {ev : CacheEvent} (ht : ev.time ≤ now) : (c.step ev).Inv now := by
  have hmem : ∀ p ∈ (c.step ev).byKey.entries,
      (1 ≤ p.2.record.ttl.toNat ∧
        ∀ cap, c.maxTtl = some cap → p.2.record.ttl.toNat ≤ cap.toNat) ∧
        p.2.deadline ≤ now + fromSecs p.2.record.ttl.toNat := by
    intro p hp
    rcases step_mem_cases hcap hp with ⟨k, hk⟩ | ⟨record, src, hr, heq⟩
    · exact ⟨h.ttl (k, p.2) hk, h.deadline (k, p.2) hk⟩
    · rw [heq]
      exact entryOf_bounds hcap hr ht src
  refine ⟨?_, fun p hp => ?_, (c.step ev).byKey.distinct, fun p hp => ?_,
    fun p hp => (hmem p hp).2⟩
  · rw [step_maxEntries]
    obtain ⟨t, op⟩ := ev
    cases op with
    | insert σ record src => exact length_insertFrom_le hpos h.size σ t record src
    | sweep => exact (KeyedMap.length_retain_le _ _).trans h.size
  · exact (c.step ev).keyed p.1 p.2 (KeyedMap.find?_eq_some_iff.2 ⟨p.1, hp, BEq.rfl⟩)
  · rw [step_maxTtl]
    exact (hmem p hp).1

theorem inv_runCalls {n : ℕ} {cap : Option UInt64} (hcap : CapOk cap)
    {calls : List (ℕ × CacheCall)} (hnow : ∀ call ∈ calls, call.1 ≤ now) :
    ((Cache.withCapacityAndMaxTtl n cap).runCalls calls).Inv now ∧
      ((Cache.withCapacityAndMaxTtl n cap).runCalls calls).maxEntries = max n 1 ∧
      ((Cache.withCapacityAndMaxTtl n cap).runCalls calls).maxTtl = cap := by
  induction calls using List.reverseRecOn with
  | nil =>
    refine ⟨⟨Nat.zero_le _, ?_, List.Pairwise.nil, ?_, ?_⟩, rfl, rfl⟩ <;>
      exact fun p hp => absurd hp List.not_mem_nil
  | append_singleton calls call ih =>
    obtain ⟨hinv, hmax, httl⟩ := ih fun call' h => hnow call' (List.mem_append_left _ h)
    rw [runCalls_append_singleton]
    have ht := hnow call (List.mem_append_right _ (List.mem_singleton.2 rfl))
    set c := (Cache.withCapacityAndMaxTtl n cap).runCalls calls with hc
    rcases call_cases c call.1 call.2 with hsame | ⟨op, hstep⟩
    · rw [hsame]
      exact ⟨hinv, hmax, httl⟩
    · rw [hstep, step_maxEntries, step_maxTtl]
      refine ⟨inv_step (by rw [httl]; exact hcap) (by omega) hinv ht, hmax, httl⟩

/-- A record with a positive TTL is present right after its insertion. -/
theorem exists_mem_insertFrom (hcap : CapOk c.maxTtl) {record : Record} (hpos : 0 < record.ttl)
    (σ : CacheOrder) (src : Option UInt32) :
    ∃ p ∈ (c.insertFrom σ now record src).1.byKey.entries, p.1 == RecordKey.of record ∧
      p.2.record = { record with ttl := capTtl c.maxTtl record.ttl } := by
  have hfind : (c.insertFrom σ now record src).1.byKey.find? (RecordKey.of record) = _ :=
    insertFrom_find?_self (capTtl_ne_zero hcap hpos) BEq.rfl
  obtain ⟨k, hmem, hk⟩ := KeyedMap.find?_eq_some_iff.1 hfind
  exact ⟨_, hmem, hk, rfl⟩

/-- A cache-flush record is then the only one of its name, type and class. -/
theorem eq_of_flush (hcap : CapOk c.maxTtl) {record : Record} (hpos : 0 < record.ttl)
    (hflush : record.mdnsCacheFlush = true) {σ : CacheOrder} {src : Option UInt32}
    {p : RecordKey × Entry} (hp : p ∈ (c.insertFrom σ now record src).1.byKey.entries)
    (hname : p.1.name == record.name) (htype : p.1.rtype = record.recordType)
    (hclass : p.1.dnsClass = record.dnsClass) : p.1 == RecordKey.of record := by
  by_contra hk
  have hfind := KeyedMap.find?_eq_some_iff.2 ⟨p.1, hp, BEq.rfl⟩
  obtain ⟨-, hsib⟩ := insertFrom_find?_other (capTtl_ne_zero hcap hpos) hk hfind
  rw [hflush, Bool.true_and] at hsib
  exact hk (RecordKey.beq_of_not_sibling hname htype hclass hsib)

end Run

/-- **The invariant of every reachable cache.**  Under every accepted configuration and after every
sequence of calls, the cache keeps its capacity, its keys, its TTLs and its deadlines; the cast of
the cap to 32 bits changes nothing and makes no goodbye; and an insertion with a positive TTL is
present right after it, alone under its name, type and class if it has the cache-flush bit. -/
theorem cache_invariant {ε : Type} {std : StdParse} {toml : String → Except ε RawConfig}
    {body : String} {cfg : Config} (hparse : Config.parse std toml body = .ok cfg)
    {calls : List (ℕ × CacheCall)} {now : ℕ} (hnow : ∀ call ∈ calls, call.1 ≤ now) {c : Cache}
    (hc : (Cache.withCapacityAndMaxTtl cfg.maxCacheEntries cfg.cacheMaxTtlSecs).runCalls calls =
      c) :
    c.Inv now ∧ c.maxEntries = max 1 cfg.maxCacheEntries ∧ c.maxTtl = cfg.cacheMaxTtlSecs ∧
      (∀ cap, cfg.cacheMaxTtlSecs = some cap → cap.toUInt32.toNat = cap.toNat) ∧
      (∀ ttl : UInt32, 0 < ttl → 0 < capTtl cfg.cacheMaxTtlSecs ttl) ∧
      ∀ (σ : CacheOrder) (record : Record) (src : Option UInt32), 0 < record.ttl →
        (∃ p ∈ (c.insertFrom σ now record src).1.byKey.entries, p.1 == RecordKey.of record ∧
          p.2.record = { record with ttl := capTtl cfg.cacheMaxTtlSecs record.ttl }) ∧
        (record.mdnsCacheFlush = true →
          ∀ p ∈ (c.insertFrom σ now record src).1.byKey.entries, p.1.name == record.name →
            p.1.rtype = record.recordType → p.1.dnsClass = record.dnsClass →
            p.1 == RecordKey.of record) := by
  obtain ⟨-, -, hcap⟩ := parse_ok hparse
  obtain ⟨hinv, hmax, httl⟩ := inv_runCalls (n := cfg.maxCacheEntries) hcap hnow
  rw [hc] at hinv hmax httl
  have hcap' : CapOk c.maxTtl := by
    rw [httl]
    exact hcap
  refine ⟨hinv, by rw [hmax, Nat.max_comm], httl, fun cap heq => ?_, fun ttl hpos => ?_,
    fun σ record src hpos => ⟨?_, fun hflush p hp => eq_of_flush hcap' hpos hflush hp⟩⟩
  · rw [UInt64.toNat_toUInt32]
    exact Nat.mod_eq_of_lt (hcap cap heq).2
  · exact UInt32.pos_iff_ne_zero.2 (capTtl_ne_zero hcap hpos)
  · rw [← httl]
    exact exists_mem_insertFrom hcap' hpos σ src

/-- A configuration with room for one record and a cap of five minutes. -/
def smallCacheConfig : RawConfig :=
  ⟨["eth0"], true, true, [], [], none, 0, some 300, []⟩

/-- The printer is heard, and looked up a second later. -/
def printerCalls : List (ℕ × CacheCall) :=
  [(0, .change (.insert (IterOrder.id _ _) printerAddress (some 3))),
    (fromSecs 1, .lookup (IterOrder.id _ _) printerAddress.name .any)]

theorem cache_invariant_printer :
    ((Cache.withCapacityAndMaxTtl 0 (some 300)).runCalls printerCalls).Inv (fromSecs 1) := by
  have hparse : Config.parse ⟨fun _ => none, fun _ => none, fun _ => none⟩
      (fun _ => (.ok smallCacheConfig : Except Unit RawConfig)) "" =
        .ok ⟨⟨true, true, 0, some 300, [], []⟩, ["eth0"], none, []⟩ := rfl
  exact (cache_invariant hparse (by decide) rfl).1

end Nmdns
