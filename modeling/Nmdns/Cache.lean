import Nmdns.Record

/-!
# The record cache

`src/cache.rs`: records observed on the wire, stored under their `RecordKey` with a deadline and
the interface they were learned on.

* `Cache`, `Entry`, `Cache.insertFrom`, `Cache.evictExpired`, `Cache.lookup`,
  `Cache.lookupFromOtherIfaces`, `Cache.snapshot`;
* the stages of `insertFrom`: `capTtl` (TTL cap), `purge` (cache-flush), `evictVictim` (capacity);
* what one insertion does to every binding: `insertFrom_find?_goodbye`, `insertFrom_find?_self`,
  `insertFrom_find?_other`, and `insertFrom_find?_of_room` when nothing has to be evicted.

The lock is not modelled here: each call is one step.  Every call takes the reading of the clock
it makes (`now`) and the order in which it visits the hash map (`σ`).
-/

namespace Nmdns

/-- `InsertOutcome`. -/
inductive InsertOutcome
  | inserted
  | refreshed
  | goodbyeRemoved
  | goodbyeNoOp
  | rejected
  deriving DecidableEq, Repr

/-- A cached record. -/
structure Entry where
  record : Record
  deadline : ℕ
  sourceIfindex : Option UInt32
  deriving DecidableEq, Repr

/-- The bindings of the cache. -/
abbrev Entries := KeyedMap RecordKey Entry

/-- An iteration order of the cache. -/
abbrev CacheOrder := IterOrder RecordKey Entry

/-- Every entry is stored under the key of its own record. -/
def Keyed (m : Entries) : Prop := ∀ k e, m.find? k = some e → RecordKey.of e.record == k

theorem Keyed.retain {m : Entries} (h : Keyed m) (keep : RecordKey → Entry → Bool) :
    Keyed (m.retain keep) := by
  intro k e he
  obtain ⟨k', hmem, hk⟩ := KeyedMap.find?_eq_some_iff.1 he
  have hold := h k' e (KeyedMap.find?_eq_some_iff.2 ⟨k', List.mem_of_mem_filter hmem, BEq.rfl⟩)
  exact BEq.trans hold hk

theorem Keyed.insert {m : Entries} (h : Keyed m) {key : RecordKey} {e : Entry}
    (he : RecordKey.of e.record == key) : Keyed (m.insert key e) := by
  intro k e' he'
  rw [KeyedMap.find?_insert] at he'
  split_ifs at he' with hk
  · cases he'
    exact BEq.trans he (BEq.symm hk)
  · exact h k e' he'

/-- The cache.  Its entries are private, so that the key of an entry is always that of its
record. -/
structure Cache where
  byKey : Entries
  maxEntries : ℕ
  maxTtl : Option UInt64
  keyed : Keyed byKey

/-- `Cache::with_capacity_and_max_ttl`. -/
def Cache.withCapacityAndMaxTtl (maxEntries : ℕ) (maxTtl : Option UInt64) : Cache :=
  ⟨KeyedMap.empty, max maxEntries 1, maxTtl, fun _ _ h => nomatch h⟩

/-- The TTL cap: `cap as u32` keeps the low 32 bits; a goodbye is not capped. -/
def capTtl (maxTtl : Option UInt64) (ttl : UInt32) : UInt32 :=
  if 0 < ttl then
    match maxTtl with
    | some cap => min ttl cap.toUInt32
    | none => ttl
  else ttl

/-- A cache-flush record removes the records of its name, type and class with other data. -/
def purge (m : Entries) (record : Record) : Entries :=
  if record.mdnsCacheFlush then m.retain fun k _ => !k.sibling (RecordKey.of record) else m

/-- At capacity, the entry that expires first makes room. -/
def evictVictim (σ : CacheOrder) (maxEntries : ℕ) (m : Entries) : Entries :=
  if maxEntries ≤ m.length then
    match minByKey (fun p => p.2.deadline) (m.iter σ) with
    | some p => m.erase p.1
    | none => m
  else m

theorem Keyed.purge {m : Entries} (h : Keyed m) (record : Record) : Keyed (purge m record) := by
  unfold Nmdns.purge
  split_ifs
  · exact h.retain _
  · exact h

theorem Keyed.evictVictim {m : Entries} (h : Keyed m) (σ : CacheOrder) (maxEntries : ℕ) :
    Keyed (evictVictim σ maxEntries m) := by
  unfold Nmdns.evictVictim
  split_ifs
  · split
    · exact h.retain _
    · exact h
  · exact h

/-- The entry a record is stored as, with source `src`. -/
def Cache.entryOf (c : Cache) (now : ℕ) (record : Record) (src : Option UInt32) : Entry :=
  let ttl := capTtl c.maxTtl record.ttl
  ⟨{ record with ttl := ttl }, now + fromSecs ttl.toNat, src⟩

theorem Cache.entryOf_key (c : Cache) (now : ℕ) (record : Record) (src : Option UInt32) :
    RecordKey.of (c.entryOf now record src).record == RecordKey.of record :=
  BEq.rfl

/-- `Cache::insert_from`. -/
def Cache.insertFrom (c : Cache) (σ : CacheOrder) (now : ℕ) (record : Record)
    (sourceIfindex : Option UInt32) : Cache × InsertOutcome :=
  let key := RecordKey.of record
  if capTtl c.maxTtl record.ttl = 0 then
    match c.byKey.find? key with
    | some _ =>
      ({ c with byKey := c.byKey.erase key, keyed := c.keyed.retain _ }, .goodbyeRemoved)
    | none => (c, .goodbyeNoOp)
  else
    let m := purge c.byKey record
    match m.find? key with
    | some e =>
      ({ c with
          byKey := m.insert key (c.entryOf now record (sourceIfindex.or e.sourceIfindex))
          keyed := (c.keyed.purge record).insert (c.entryOf_key now record _) }, .refreshed)
    | none =>
      ({ c with
          byKey := (evictVictim σ c.maxEntries m).insert key (c.entryOf now record sourceIfindex)
          keyed := ((c.keyed.purge record).evictVictim σ _).insert (c.entryOf_key now record _) },
        .inserted)

/-- `Cache::evict_expired`: the swept cache and the number of entries removed. -/
def Cache.evictExpired (c : Cache) (now : ℕ) : Cache × ℕ :=
  let m := c.byKey.retain fun _ e => decide (now < e.deadline)
  ({ c with byKey := m, keyed := c.keyed.retain _ }, c.byKey.length - m.length)

/-- `record_matches`. -/
def recordMatches (record : Record) (name : Name) (rtype : RecordType) : Bool :=
  record.name == name && (rtype == .any || record.recordType == rtype)

@[simp] theorem recordMatches_ttl (r : Record) (t : UInt32) (name : Name) (rtype : RecordType) :
    recordMatches { r with ttl := t } name rtype = recordMatches r name rtype := rfl

@[simp] theorem recordMatches_mdnsCacheFlush (r : Record) (b : Bool) (name : Name)
    (rtype : RecordType) :
    recordMatches { r with mdnsCacheFlush := b } name rtype = recordMatches r name rtype := rfl

/-- `record_with_remaining_ttl`: the remaining time in whole seconds, rounded up. -/
def recordWithRemainingTtl (entry : Entry) (now : ℕ) : Option Record :=
  if now ≤ entry.deadline then
    let remaining := entry.deadline - now
    let secs := remaining / fromSecs 1
    let ttl := if 0 < remaining % fromSecs 1 then min (secs + 1) (2 ^ 64 - 1) else secs
    if ttl = 0 then none
    else some { entry.record with ttl := UInt32.ofNat (min ttl (2 ^ 32 - 1)) }
  else none

/-- `Cache::lookup_inner`. -/
def Cache.lookupInner (c : Cache) (σ : CacheOrder) (now : ℕ) (name : Name)
    (rtype : RecordType) (sourceFilter : Entry → Bool) : List Record :=
  (((c.byKey.iter σ).map Prod.snd).filter fun e =>
    recordMatches e.record name rtype && sourceFilter e).filterMap fun e =>
      recordWithRemainingTtl e now

/-- `Cache::lookup`. -/
def Cache.lookup (c : Cache) (σ : CacheOrder) (now : ℕ) (name : Name) (rtype : RecordType) :
    List Record :=
  c.lookupInner σ now name rtype fun _ => true

/-- The source filter of `lookup_from_other_ifaces`: known, and not the arrival interface. -/
def learnedElsewhere (arrivalIfindex : UInt32) (e : Entry) : Bool :=
  match e.sourceIfindex with
  | some source => source != arrivalIfindex
  | none => false

/-- `Cache::lookup_from_other_ifaces`. -/
def Cache.lookupFromOtherIfaces (c : Cache) (σ : CacheOrder) (now : ℕ) (name : Name)
    (rtype : RecordType) (arrivalIfindex : UInt32) : List Record :=
  (c.lookupInner σ now name rtype (learnedElsewhere arrivalIfindex)).map fun r =>
    { r with mdnsCacheFlush := false }

/-- `Cache::snapshot`. -/
def Cache.snapshot (c : Cache) (σ : CacheOrder) (now : ℕ) : List Record :=
  ((c.byKey.iter σ).map Prod.snd).filterMap fun e => recordWithRemainingTtl e now

/-! ### The TTL cap -/

/-- The caps that the configuration lets through: none, or between 1 and `2 ^ 32 - 1`. -/
def CapOk (maxTtl : Option UInt64) : Prop :=
  ∀ cap, maxTtl = some cap → 1 ≤ cap.toNat ∧ cap.toNat < 2 ^ 32

/-- The lifetime in seconds that a TTL stands for under the cap. -/
def cappedSecs (maxTtl : Option UInt64) (ttl : UInt32) : ℕ :=
  match maxTtl with
  | some cap => min ttl.toNat cap.toNat
  | none => ttl.toNat

/-- Within range, the cast in the cap changes nothing. -/
theorem capTtl_toNat {maxTtl : Option UInt64} (h : CapOk maxTtl) (ttl : UInt32) :
    (capTtl maxTtl ttl).toNat = cappedSecs maxTtl ttl := by
  unfold capTtl cappedSecs
  split_ifs with hpos
  · cases maxTtl with
    | none => rfl
    | some cap =>
      obtain ⟨-, hlt⟩ := h cap rfl
      have hcast : cap.toUInt32.toNat = cap.toNat := by
        rw [UInt64.toNat_toUInt32]
        exact Nat.mod_eq_of_lt hlt
      show (if ttl ≤ cap.toUInt32 then ttl else cap.toUInt32).toNat = min ttl.toNat cap.toNat
      split_ifs with hle
      · rw [UInt32.le_iff_toNat_le, hcast] at hle
        exact (Nat.min_eq_left hle).symm
      · rw [UInt32.le_iff_toNat_le, hcast] at hle
        rw [hcast, Nat.min_eq_right (by omega)]
  · have hz : ttl.toNat = 0 := by
      rw [UInt32.lt_iff_toNat_lt] at hpos
      simpa using hpos
    cases maxTtl <;> simp [hz]

/-- No cap at all. -/
theorem capOk_none : CapOk none := fun _ h => nomatch h

/-- Only a goodbye is capped to a goodbye. -/
theorem capTtl_eq_zero {maxTtl : Option UInt64} (h : CapOk maxTtl) {ttl : UInt32} :
    capTtl maxTtl ttl = 0 ↔ ttl = 0 := by
  rw [← UInt32.toNat_inj, capTtl_toNat h, ← UInt32.toNat_inj]
  unfold cappedSecs
  cases maxTtl with
  | none => rfl
  | some cap =>
    obtain ⟨hpos, -⟩ := h cap rfl
    simp only [UInt32.toNat_zero]
    omega

theorem capTtl_ne_zero {maxTtl : Option UInt64} (h : CapOk maxTtl) {ttl : UInt32}
    (hpos : 0 < ttl) : capTtl maxTtl ttl ≠ 0 :=
  fun hz => UInt32.pos_iff_ne_zero.1 hpos ((capTtl_eq_zero h).1 hz)

/-- A stored TTL is at least one second. -/
theorem one_le_capTtl {maxTtl : Option UInt64} {ttl : UInt32} (h : capTtl maxTtl ttl ≠ 0) :
    1 ≤ (capTtl maxTtl ttl).toNat := by
  rw [Nat.one_le_iff_ne_zero, ne_eq, ← UInt32.toNat_zero, UInt32.toNat_inj]
  exact h

/-- A stored entry has not run out at the time of its insertion. -/
theorem lt_deadline_entryOf {c : Cache} {r : Record} (h : capTtl c.maxTtl r.ttl ≠ 0) (t : ℕ)
    (src : Option UInt32) : t < (c.entryOf t r src).deadline := by
  have httl := one_le_capTtl h
  show t < t + fromSecs (capTtl c.maxTtl r.ttl).toNat
  unfold fromSecs
  omega

/-! ### One insertion, binding by binding -/

section Insert

variable {c : Cache} {σ : CacheOrder} {now : ℕ} {record : Record} {src : Option UInt32}

theorem find?_purge (m : Entries) (record : Record) (k : RecordKey) :
    (purge m record).find? k =
      if record.mdnsCacheFlush && k.sibling (RecordKey.of record) then none else m.find? k := by
  unfold purge
  cases record.mdnsCacheFlush with
  | false => simp
  | true =>
    simp only [if_true, Bool.true_and]
    rw [m.find?_retain fun a b _ hab => by rw [RecordKey.sibling_congr_left hab]]
    cases k.sibling (RecordKey.of record) <;> cases m.find? k <;> simp [Option.filter]

theorem length_purge_le (m : Entries) (record : Record) : (purge m record).length ≤ m.length := by
  unfold purge
  split_ifs
  · exact KeyedMap.length_retain_le _ _
  · exact le_rfl

/-- The purge spares the record itself. -/
theorem find?_purge_self (m : Entries) (record : Record) :
    (purge m record).find? (RecordKey.of record) = m.find? (RecordKey.of record) := by
  rw [find?_purge, RecordKey.sibling_of_beq BEq.rfl, Bool.and_false]
  simp

theorem evictVictim_of_lt {σ : CacheOrder} {n : ℕ} {m : Entries} (h : m.length < n) :
    evictVictim σ n m = m := by
  unfold evictVictim
  rw [if_neg (Nat.not_le.2 h)]

/-- At capacity there is a victim, which no other entry precedes. -/
theorem evictVictim_of_le (σ : CacheOrder) {n : ℕ} (hpos : 1 ≤ n) {m : Entries}
    (hfull : n ≤ m.length) :
    ∃ p ∈ m.entries, minByKey (fun p => p.2.deadline) (m.iter σ) = some p ∧
      (∀ q ∈ m.entries, p.2.deadline ≤ q.2.deadline) ∧ evictVictim σ n m = m.erase p.1 := by
  cases hmin : minByKey (fun p => p.2.deadline) (m.iter σ) with
  | none =>
    have hlen := (σ.perm m.entries).length_eq
    rw [KeyedMap.iter, minByKey_eq_none] at hmin
    rw [hmin] at hlen
    have hzero : m.length = 0 := hlen.symm
    omega
  | some p =>
    obtain ⟨hmem, hleast⟩ := minByKey_eq_some hmin
    refine ⟨p, KeyedMap.mem_iter.1 hmem, rfl, fun q hq => hleast q (KeyedMap.mem_iter.2 hq), ?_⟩
    unfold evictVictim
    rw [if_pos hfull, hmin]

/-- The capacity eviction removes bindings and changes none. -/
theorem find?_evictVictim (σ : CacheOrder) (n : ℕ) (m : Entries) (k : RecordKey) :
    (evictVictim σ n m).find? k = none ∨ (evictVictim σ n m).find? k = m.find? k := by
  unfold evictVictim
  split_ifs with hfull
  · split
    · rw [KeyedMap.find?_erase]
      split_ifs
      · exact Or.inl rfl
      · exact Or.inr rfl
    · exact Or.inr rfl
  · exact Or.inr rfl

/-- There is no capacity eviction: the record is a goodbye or already stored, or there is a free
slot. -/
def Cache.Room (c : Cache) (record : Record) : Prop :=
  capTtl c.maxTtl record.ttl = 0 ∨ c.byKey.find? (RecordKey.of record) ≠ none ∨
    (purge c.byKey record).length < c.maxEntries

instance (c : Cache) (record : Record) : Decidable (c.Room record) :=
  inferInstanceAs (Decidable (_ ∨ _))

/-- An insertion changes neither limit of the cache. -/
theorem insertFrom_limits (c : Cache) (σ : CacheOrder) (now : ℕ) (record : Record)
    (src : Option UInt32) :
    (c.insertFrom σ now record src).1.maxEntries = c.maxEntries ∧
      (c.insertFrom σ now record src).1.maxTtl = c.maxTtl := by
  by_cases h : capTtl c.maxTtl record.ttl = 0
  · simp only [Cache.insertFrom, if_pos h]
    split <;> exact ⟨rfl, rfl⟩
  · simp only [Cache.insertFrom, if_neg h]
    split <;> exact ⟨rfl, rfl⟩

@[simp] theorem insertFrom_maxEntries (c : Cache) (σ : CacheOrder) (now : ℕ)
    (record : Record) (src : Option UInt32) :
    (c.insertFrom σ now record src).1.maxEntries = c.maxEntries :=
  (insertFrom_limits c σ now record src).1

@[simp] theorem insertFrom_maxTtl (c : Cache) (σ : CacheOrder) (now : ℕ)
    (record : Record) (src : Option UInt32) :
    (c.insertFrom σ now record src).1.maxTtl = c.maxTtl :=
  (insertFrom_limits c σ now record src).2

/-- A goodbye removes its own binding and nothing else. -/
theorem insertFrom_find?_goodbye (h : capTtl c.maxTtl record.ttl = 0) (k : RecordKey) :
    (c.insertFrom σ now record src).1.byKey.find? k =
      if k == RecordKey.of record then none else c.byKey.find? k := by
  simp only [Cache.insertFrom, if_pos h]
  split
  · rw [KeyedMap.find?_erase]
  · rename_i hnone
    split_ifs with hk
    · rw [KeyedMap.find?_congr _ hk]
      exact hnone
    · rfl

/-- A record with a positive TTL is stored; a refresh without a source keeps the old one. -/
theorem insertFrom_find?_self (h : capTtl c.maxTtl record.ttl ≠ 0) {k : RecordKey}
    (hk : k == RecordKey.of record) :
    (c.insertFrom σ now record src).1.byKey.find? k =
      some (c.entryOf now record
        (src.or ((c.byKey.find? (RecordKey.of record)).bind Entry.sourceIfindex))) := by
  simp only [Cache.insertFrom, if_neg h]
  rw [find?_purge_self]
  cases hold : c.byKey.find? (RecordKey.of record) with
  | none => simp [KeyedMap.find?_insert, hk]
  | some e => simp [KeyedMap.find?_insert, hk]

/-- Any other binding that is left was there before, and a cache-flush record leaves no sibling. -/
theorem insertFrom_find?_other (h : capTtl c.maxTtl record.ttl ≠ 0) {k : RecordKey}
    (hk : ¬ k == RecordKey.of record) {e : Entry}
    (he : (c.insertFrom σ now record src).1.byKey.find? k = some e) :
    c.byKey.find? k = some e ∧
      (record.mdnsCacheFlush && k.sibling (RecordKey.of record)) = false := by
  have hpurged : (purge c.byKey record).find? k = some e := by
    simp only [Cache.insertFrom, if_neg h] at he
    split at he
    · rw [KeyedMap.find?_insert, if_neg hk] at he
      exact he
    · rw [KeyedMap.find?_insert, if_neg hk] at he
      rcases find?_evictVictim σ c.maxEntries (purge c.byKey record) k with hv | hv
      · rw [hv] at he
        cases he
      · rw [← hv]
        exact he
  rw [find?_purge] at hpurged
  split_ifs at hpurged with hflush
  exact ⟨hpurged, Bool.not_eq_true _ ▸ hflush⟩

/-- Without a capacity eviction, every other binding is kept unless the record flushes it. -/
theorem insertFrom_find?_of_room (h : capTtl c.maxTtl record.ttl ≠ 0) (hroom : c.Room record)
    {k : RecordKey} (hk : ¬ k == RecordKey.of record) :
    (c.insertFrom σ now record src).1.byKey.find? k =
      if record.mdnsCacheFlush && k.sibling (RecordKey.of record) then none
      else c.byKey.find? k := by
  simp only [Cache.insertFrom, if_neg h]
  rw [find?_purge_self]
  cases hold : c.byKey.find? (RecordKey.of record) with
  | some e => simp only [KeyedMap.find?_insert, if_neg hk, find?_purge]
  | none =>
    have hfree : ¬ c.maxEntries ≤ (purge c.byKey record).length := by
      rcases hroom with hr | hr | hr
      · exact absurd hr h
      · exact absurd hold hr
      · omega
    simp only [KeyedMap.find?_insert, if_neg hk, evictVictim_of_lt (Nat.lt_of_not_le hfree),
      find?_purge]

/-- With a cap in range and no capacity eviction, an insertion leaves every other binding alone
unless it flushes it. -/
theorem insertFrom_find?_ne (hcap : CapOk c.maxTtl) (hroom : c.Room record) {k : RecordKey}
    (hk : ¬ k == RecordKey.of record) :
    (c.insertFrom σ now record src).1.byKey.find? k =
      if record.flushes k then none else c.byKey.find? k := by
  unfold Record.flushes
  by_cases hz : record.ttl = 0
  · rw [insertFrom_find?_goodbye ((capTtl_eq_zero hcap).2 hz), if_neg hk]
    simp [hz]
  · rw [insertFrom_find?_of_room (fun h => hz ((capTtl_eq_zero hcap).1 h)) hroom hk]
    simp [UInt32.pos_iff_ne_zero, hz]

/-- Where a binding comes from: it was stored by this insertion, or it was there before and the
record does not flush it. -/
theorem insertFrom_find?_cases (hcap : CapOk c.maxTtl) {k : RecordKey} {e : Entry}
    (he : (c.insertFrom σ now record src).1.byKey.find? k = some e) :
    (k == RecordKey.of record ∧ record.ttl ≠ 0 ∧ e = c.entryOf now record
        (src.or ((c.byKey.find? (RecordKey.of record)).bind Entry.sourceIfindex))) ∨
      (¬ k == RecordKey.of record ∧ c.byKey.find? k = some e ∧ record.flushes k = false) := by
  have hzero : capTtl c.maxTtl record.ttl = 0 ↔ record.ttl = 0 := capTtl_eq_zero hcap
  by_cases hz : record.ttl = 0
  · rw [insertFrom_find?_goodbye (hzero.2 hz)] at he
    split_ifs at he with hk
    exact Or.inr ⟨hk, he, by simp [Record.flushes, hz]⟩
  · have hz' : capTtl c.maxTtl record.ttl ≠ 0 := fun h => hz (hzero.1 h)
    by_cases hk : k == RecordKey.of record
    · rw [insertFrom_find?_self hz' hk] at he
      exact Or.inl ⟨hk, hz, (Option.some.inj he).symm⟩
    · obtain ⟨hold, hflush⟩ := insertFrom_find?_other hz' hk he
      exact Or.inr ⟨hk, hold, by rw [Record.flushes, Bool.and_assoc, hflush, Bool.and_false]⟩

end Insert

/-! ### Sweeps and lookups -/

theorem evictExpired_find? (c : Cache) (now : ℕ) (k : RecordKey) :
    (c.evictExpired now).1.byKey.find? k =
      (c.byKey.find? k).filter fun e => decide (now < e.deadline) :=
  KeyedMap.find?_retain _ (fun _ _ _ _ => rfl) k

/-- An entry is live strictly before its deadline, and then carries the remaining time. -/
theorem recordWithRemainingTtl_eq_some {e : Entry} {now : ℕ} {r : Record} :
    recordWithRemainingTtl e now = some r ↔
      now < e.deadline ∧ r = { e.record with
        ttl := UInt32.ofNat (min ((e.deadline - now + (fromSecs 1 - 1)) / fromSecs 1)
          (2 ^ 32 - 1)) } := by
  unfold recordWithRemainingTtl
  have hone : fromSecs 1 = 1000000000 := rfl
  have hpow32 : (2 : ℕ) ^ 32 = 4294967296 := rfl
  have hpow64 : (2 : ℕ) ^ 64 = 18446744073709551616 := rfl
  by_cases hle : now ≤ e.deadline
  · rw [if_pos hle]
    dsimp only
    generalize hd : e.deadline - now = d
    generalize ht : (if 0 < d % fromSecs 1 then min (d / fromSecs 1 + 1) (2 ^ 64 - 1)
      else d / fromSecs 1) = ttl
    have hmin : min ttl (2 ^ 32 - 1) =
        min ((d + (fromSecs 1 - 1)) / fromSecs 1) (2 ^ 32 - 1) := by
      rw [hone, hpow64] at ht
      rw [hone, hpow32]
      split_ifs at ht <;> omega
    have hzero : ttl = 0 ↔ ¬ now < e.deadline := by
      rw [hone, hpow64] at ht
      split_ifs at ht <;> omega
    rw [hmin]
    by_cases h0 : ttl = 0
    · rw [if_pos h0]
      simp [hzero.1 h0]
    · rw [if_neg h0]
      have hlt : now < e.deadline := not_not.1 fun h => h0 (hzero.2 h)
      simp [hlt, eq_comm]
  · rw [if_neg hle]
    simp only [reduceCtorEq, false_iff, not_and]
    omega

/-- The cast of a TTL that is served loses nothing. -/
theorem toNat_ofNat_min (secs : ℕ) :
    (UInt32.ofNat (min secs (2 ^ 32 - 1))).toNat = min secs (2 ^ 32 - 1) :=
  UInt32.toNat_ofNat_of_lt' (by
    show min secs (2 ^ 32 - 1) < 2 ^ 32
    omega)

/-- The remaining time is rounded up by less than a second. -/
theorem recordWithRemainingTtl_ttl_lt {e : Entry} {now : ℕ} {r : Record}
    (h : recordWithRemainingTtl e now = some r) :
    now + fromSecs r.ttl.toNat < e.deadline + fromSecs 1 := by
  obtain ⟨hlt, rfl⟩ := recordWithRemainingTtl_eq_some.1 h
  generalize hsecs : (e.deadline - now + (fromSecs 1 - 1)) / fromSecs 1 = secs
  show now + fromSecs (UInt32.ofNat (min secs (2 ^ 32 - 1))).toNat < _
  rw [toNat_ofNat_min]
  have hmin : min secs (2 ^ 32 - 1) ≤ secs := Nat.min_le_left _ _
  generalize min secs (2 ^ 32 - 1) = ttl at hmin
  unfold fromSecs at *
  omega

/-- The record served for an entry has the key of the entry's record. -/
theorem recordWithRemainingTtl_key {e : Entry} {now : ℕ} {r : Record}
    (h : recordWithRemainingTtl e now = some r) : RecordKey.of r = RecordKey.of e.record := by
  obtain ⟨-, rfl⟩ := recordWithRemainingTtl_eq_some.1 h
  rw [RecordKey.of_ttl]

/-- What a lookup returns: the served records of the matching bindings. -/
theorem mem_lookupInner {c : Cache} {σ : CacheOrder} {now : ℕ} {name : Name} {rtype : RecordType}
    {f : Entry → Bool} {r : Record} :
    r ∈ c.lookupInner σ now name rtype f ↔
      ∃ k e, c.byKey.find? k = some e ∧ recordMatches e.record name rtype ∧ f e ∧
        recordWithRemainingTtl e now = some r := by
  unfold Cache.lookupInner
  simp only [List.mem_filterMap, List.mem_filter, List.mem_map, KeyedMap.mem_iter,
    Bool.and_eq_true]
  constructor
  · rintro ⟨e, ⟨⟨⟨k, e'⟩, hmem, rfl⟩, hm, hf⟩, hr⟩
    exact ⟨k, e', KeyedMap.find?_eq_some_iff.2 ⟨k, hmem, BEq.rfl⟩, hm, hf, hr⟩
  · rintro ⟨k, e, hfind, hm, hf, hr⟩
    obtain ⟨k', hmem, -⟩ := KeyedMap.find?_eq_some_iff.1 hfind
    exact ⟨e, ⟨⟨(k', e), hmem, rfl⟩, hm, hf⟩, hr⟩

theorem mem_snapshot {c : Cache} {σ : CacheOrder} {now : ℕ} {r : Record} :
    r ∈ c.snapshot σ now ↔ ∃ k e, c.byKey.find? k = some e ∧
      recordWithRemainingTtl e now = some r := by
  unfold Cache.snapshot
  simp only [List.mem_filterMap, List.mem_map, KeyedMap.mem_iter]
  constructor
  · rintro ⟨e, ⟨⟨k, e'⟩, hmem, rfl⟩, hr⟩
    exact ⟨k, e', KeyedMap.find?_eq_some_iff.2 ⟨k, hmem, BEq.rfl⟩, hr⟩
  · rintro ⟨k, e, hfind, hr⟩
    obtain ⟨k', hmem, -⟩ := KeyedMap.find?_eq_some_iff.1 hfind
    exact ⟨e, ⟨(k', e), hmem, rfl⟩, hr⟩

theorem mem_lookupFromOtherIfaces {c : Cache} {σ : CacheOrder} {now : ℕ} {name : Name}
    {rtype : RecordType} {i : UInt32} {r : Record} :
    r ∈ c.lookupFromOtherIfaces σ now name rtype i ↔
      ∃ k e s, c.byKey.find? k = some e ∧ recordMatches e.record name rtype ∧
        (∃ j, e.sourceIfindex = some j ∧ j ≠ i) ∧ recordWithRemainingTtl e now = some s ∧
        r = { s with mdnsCacheFlush := false } := by
  have hsrc : ∀ e : Entry, learnedElsewhere i e = true ↔ ∃ j, e.sourceIfindex = some j ∧ j ≠ i := by
    intro e
    unfold learnedElsewhere
    cases e.sourceIfindex <;> simp
  unfold Cache.lookupFromOtherIfaces
  simp only [List.mem_map, mem_lookupInner, hsrc]
  constructor
  · rintro ⟨s, ⟨k, e, hfind, hm, hj, hs⟩, rfl⟩
    exact ⟨k, e, s, hfind, hm, hj, hs, rfl⟩
  · rintro ⟨k, e, s, hfind, hm, hj, hs, rfl⟩
    exact ⟨s, ⟨k, e, hfind, hm, hj, hs⟩, rfl⟩

/-- The records of different entries have different keys. -/
theorem values_distinct (c : Cache) (σ : CacheOrder) :
    ((c.byKey.iter σ).map Prod.snd).Pairwise fun d e =>
      (RecordKey.of d.record == RecordKey.of e.record) = false := by
  have hkey : ∀ p ∈ c.byKey.iter σ, RecordKey.of p.2.record == p.1 := by
    intro p hp
    rw [KeyedMap.mem_iter] at hp
    exact c.keyed p.1 p.2 (KeyedMap.find?_eq_some_iff.2 ⟨p.1, hp, BEq.rfl⟩)
  have hiter : (c.byKey.iter σ).Pairwise fun p q => (p.1 == q.1) = false :=
    (σ.perm c.byKey.entries).symm.pairwise c.byKey.distinct fun hpq => BEq.symm_false hpq
  rw [List.pairwise_map]
  refine hiter.imp_of_mem fun {p q} hp hq hpq => ?_
  rw [BEq.congr_left (hkey p hp), BEq.congr_right (hkey q hq)]
  exact hpq

/-- Serving entries keeps their keys apart. -/
theorem served_distinct {es : List Entry} (now : ℕ)
    (h : es.Pairwise fun d e => (RecordKey.of d.record == RecordKey.of e.record) = false) :
    (es.filterMap fun e => recordWithRemainingTtl e now).Pairwise fun r s =>
      (RecordKey.of r == RecordKey.of s) = false := by
  refine List.Pairwise.filterMap _ (fun d e hde r hr s hs => ?_) h
  rw [recordWithRemainingTtl_key hr, recordWithRemainingTtl_key hs]
  exact hde

/-- No two records of a lookup have equal keys. -/
theorem lookupInner_distinct (c : Cache) (σ : CacheOrder) (now : ℕ)
    (name : Name) (rtype : RecordType) (f : Entry → Bool) :
    (c.lookupInner σ now name rtype f).Pairwise fun r s =>
      (RecordKey.of r == RecordKey.of s) = false :=
  served_distinct now ((values_distinct c σ).filter _)

/-- No two records of a snapshot have equal keys. -/
theorem snapshot_distinct (c : Cache) (σ : CacheOrder) (now : ℕ) :
    (c.snapshot σ now).Pairwise fun r s => (RecordKey.of r == RecordKey.of s) = false :=
  served_distinct now (values_distinct c σ)

end Nmdns
