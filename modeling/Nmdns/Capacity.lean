import Nmdns.Sources
import Nmdns.Invariant

/-!
# What a full cache drops

The capacity eviction is greedy: whenever a new key arrives at a full cache, the entry that expires
first makes room, and the newcomer is admitted even if it expires sooner than every other entry.

* `Flood`: a history of insertions with pairwise distinct keys, none of them a goodbye or a flush;
* `Cache.outliving c d`: how many entries of the cache expire at `d` or later;
* `outlived_insertFrom`: what one insertion does to that number;
* `flood_outlived`: over a whole flood, a record that is no longer cached is outlived by all cached
  entries but one, whatever the order in which the map is scanned for a victim.
-/

namespace Nmdns

/-- Insertions of fresh keys only: no goodbye, no cache-flush, no key twice. -/
structure Flood (h : List CacheEvent) : Prop where
  fresh : ∀ ev ∈ h, ∃ r, ev.record? = some r ∧ 0 < r.ttl ∧ r.mdnsCacheFlush = false
  distinct : h.Pairwise fun ev ev' => ∀ r ∈ ev.record?, ∀ r' ∈ ev'.record?,
    ¬ RecordKey.of r == RecordKey.of r'

/-- The number of cached entries that expire at `d` or later. -/
def Cache.outliving (c : Cache) (d : ℕ) : ℕ := c.byKey.count fun e => decide (d ≤ e.deadline)

/-! ### One insertion -/

section Insert

variable {c : Cache} {σ : CacheOrder} {now : ℕ} {record : Record} {src : Option UInt32}

/-- The insertion of a fresh key: a victim makes room, then the record is added. -/
theorem insertFrom_fresh (hz : capTtl c.maxTtl record.ttl ≠ 0)
    (hflush : record.mdnsCacheFlush = false) (hnew : c.byKey.find? (RecordKey.of record) = none) :
    (c.insertFrom σ now record src).1.byKey =
      (evictVictim σ c.maxEntries c.byKey).insert (RecordKey.of record)
        (c.entryOf now record src) := by
  have hpurge : purge c.byKey record = c.byKey := by
    unfold purge
    rw [hflush]
    simp
  simp only [Cache.insertFrom, if_neg hz, hpurge]
  rw [hnew]

/-- A victim costs the entries that expire at `d` or later nothing, as long as there are fewer of
them than the capacity. -/
theorem outliving_evictVictim {n : ℕ} (hpos : 1 ≤ n) {m : Entries} (hsize : m.length ≤ n) (d : ℕ) :
    min (m.count fun e => decide (d ≤ e.deadline)) (n - 1) ≤
      (evictVictim σ n m).count fun e => decide (d ≤ e.deadline) := by
  rcases Nat.lt_or_ge m.length n with hlt | hfull
  · rw [evictVictim_of_lt hlt]
    exact Nat.min_le_left _ _
  · obtain ⟨p, hp, -, hleast, heq⟩ := evictVictim_of_le σ hpos hfull
    have hlen : m.length = n := le_antisymm hsize hfull
    rw [heq, ← hlen]
    exact KeyedMap.min_count_le_erase hp hleast d

/-- The number of entries that expire at `d` or later does not fall below the
smaller of what it was and the capacity less one. -/
theorem outliving_insertFrom (hz : capTtl c.maxTtl record.ttl ≠ 0)
    (hflush : record.mdnsCacheFlush = false) (hnew : c.byKey.find? (RecordKey.of record) = none)
    (hpos : 1 ≤ c.maxEntries) (hsize : c.byKey.length ≤ c.maxEntries) (d : ℕ) :
    min (c.outliving d) (c.maxEntries - 1) ≤
      (c.insertFrom σ now record src).1.outliving d := by
  have hgone : (evictVictim σ c.maxEntries c.byKey).find? (RecordKey.of record) = none := by
    rcases find?_evictVictim σ c.maxEntries c.byKey (RecordKey.of record) with h | h
    · exact h
    · rw [h, hnew]
  unfold Cache.outliving
  rw [insertFrom_fresh hz hflush hnew]
  exact (outliving_evictVictim hpos hsize d).trans (KeyedMap.count_le_insert _ _ hgone _)

/-- An entry that an insertion displaces is the soonest to expire of a full cache. -/
theorem outliving_of_displaced (hz : capTtl c.maxTtl record.ttl ≠ 0)
    (hflush : record.mdnsCacheFlush = false) (hnew : c.byKey.find? (RecordKey.of record) = none)
    (hpos : 1 ≤ c.maxEntries) {k : RecordKey} {e : Entry} (hold : c.byKey.find? k = some e)
    (hgone : (c.insertFrom σ now record src).1.byKey.find? k = none) :
    c.maxEntries ≤ c.outliving e.deadline := by
  rw [insertFrom_fresh hz hflush hnew, KeyedMap.find?_insert] at hgone
  split_ifs at hgone with hk
  rcases Nat.lt_or_ge c.byKey.length c.maxEntries with hlt | hfull
  · rw [evictVictim_of_lt hlt, hold] at hgone
    cases hgone
  · obtain ⟨p, hp, -, hleast, heq⟩ := evictVictim_of_le σ hpos hfull
    rw [heq, KeyedMap.find?_erase] at hgone
    split_ifs at hgone with hkp
    · -- the key displaced is the victim's, so its deadline is the least
      have hfind : c.byKey.find? k = some p.2 :=
        KeyedMap.find?_eq_some_iff.2 ⟨p.1, hp, BEq.symm hkp⟩
      have hpe : p.2 = e := Option.some.inj (hfind.symm.trans hold)
      have hall : c.outliving e.deadline = c.byKey.length := by
        rw [← hpe]
        exact KeyedMap.count_eq_length fun q hq => decide_eq_true (hleast q hq)
      rw [hall]
      exact hfull
    · rw [hold] at hgone
      cases hgone

/-- **One insertion.**  Let `d` be the deadline of the key `k` as long as it is cached, and let all
entries but one of a full cache expire at `d` or later once it is not.  If `k` is not cached after
the insertion, this is so afterwards. -/
theorem outlived_insertFrom (hz : capTtl c.maxTtl record.ttl ≠ 0)
    (hflush : record.mdnsCacheFlush = false) (hnew : c.byKey.find? (RecordKey.of record) = none)
    (hpos : 1 ≤ c.maxEntries) (hsize : c.byKey.length ≤ c.maxEntries) {k : RecordKey} {d : ℕ}
    (hdeadline : ∀ e, c.byKey.find? k = some e → e.deadline = d)
    (hbefore : c.byKey.find? k = none → c.maxEntries - 1 ≤ c.outliving d)
    (hgone : (c.insertFrom σ now record src).1.byKey.find? k = none) :
    c.maxEntries - 1 ≤ (c.insertFrom σ now record src).1.outliving d := by
  have hcount : c.maxEntries - 1 ≤ c.outliving d := by
    cases hfind : c.byKey.find? k with
    | none => exact hbefore hfind
    | some e =>
      -- the entry was there before, so it is the victim
      have hdisplaced := outliving_of_displaced hz hflush hnew hpos hfind hgone
      rw [hdeadline e hfind] at hdisplaced
      omega
  exact (le_min hcount le_rfl).trans (outliving_insertFrom hz hflush hnew hpos hsize d)

end Insert

/-! ### Whole floods -/

section Run

variable {n : ℕ} {cap : Option UInt64} {h : List CacheEvent} {t : ℕ} {σ : CacheOrder} {r : Record}
  {src : Option UInt32}

theorem Flood.of_append_singleton {ev : CacheEvent} (hf : Flood (h ++ [ev])) : Flood h where
  fresh ev' hev' := hf.fresh ev' (List.mem_append_left _ hev')
  distinct := (List.pairwise_append.1 hf.distinct).1

theorem Flood.fresh_insert (hf : Flood h) (hmem : ⟨t, .insert σ r src⟩ ∈ h) :
    0 < r.ttl ∧ r.mdnsCacheFlush = false := by
  obtain ⟨r', hr', hfresh⟩ := hf.fresh _ hmem
  obtain rfl : r = r' := Option.some.inj hr'
  exact hfresh

/-- Nothing in a flood supersedes a record inserted before. -/
theorem Flood.standing (hf : Flood h) (hmem : ⟨t, .insert σ r src⟩ ∈ h) : Standing h r t := by
  obtain ⟨pre, post, rfl⟩ := List.append_of_mem hmem
  have hpost := (List.pairwise_cons.1 (List.pairwise_append.1 hf.distinct).2.1).1
  refine ⟨pre, σ, src, post, rfl, (hf.fresh_insert hmem).1, ?_⟩
  intro ev hev
  unfold Supersedes
  split
  · rename_i σ' r' src' hop
    have hr' : r' ∈ ev.record? := by
      unfold CacheEvent.record?
      rw [hop]
      rfl
    rintro (hk | hflush)
    · exact hpost ev hev r rfl r' hr' (BEq.symm hk)
    · obtain ⟨r'', hr'', -, hclear⟩ := hf.fresh ev (by simp [hev])
      obtain rfl : r'' = r' := Option.some.inj (hr''.symm.trans hr')
      simp [Record.flushes, hclear] at hflush
  · exact id

/-- What a flood has cached under the key of a record is that record. -/
theorem Flood.face_of_find? (hcap : CapOk cap) (hf : Flood h)
    (hmem : ⟨t, .insert σ r src⟩ ∈ h) {e : Entry}
    (he : ((Cache.withCapacityAndMaxTtl n cap).run h).byKey.find? (RecordKey.of r) = some e) :
    e.face = storedAs cap (r, t) := by
  obtain ⟨r', t', hk, hst, hface⟩ := find?_run_standing hcap he
  obtain ⟨rfl, rfl⟩ := (hf.standing hmem).unique hst hk
  exact hface

/-- The key of the last insertion of a flood was not bound before it. -/
theorem Flood.find?_last (hcap : CapOk cap) (hf : Flood (h ++ [⟨t, .insert σ r src⟩])) :
    ((Cache.withCapacityAndMaxTtl n cap).run h).byKey.find? (RecordKey.of r) = none := by
  by_contra hbound
  obtain ⟨e, he⟩ := Option.ne_none_iff_exists'.1 hbound
  obtain ⟨r', t', hk, ⟨pre, σ', src', post, hh, -, -⟩, -⟩ := find?_run_standing hcap he
  have hmem : ⟨t', .insert σ' r' src'⟩ ∈ h := by
    rw [hh]
    exact List.mem_append_right _ List.mem_cons_self
  have hne := (List.pairwise_append.1 hf.distinct).2.2 _ hmem _ (List.mem_singleton.2 rfl)
  exact hne r' rfl r rfl (BEq.symm hk)

/-- The last insertion of a flood is cached. -/
theorem Flood.exists_find?_last (hcap : CapOk cap) (hf : Flood (h ++ [⟨t, .insert σ r src⟩])) :
    ∃ e, ((Cache.withCapacityAndMaxTtl n cap).run (h ++ [⟨t, .insert σ r src⟩])).byKey.find?
      (RecordKey.of r) = some e := by
  have httl : ((Cache.withCapacityAndMaxTtl n cap).run h).maxTtl = cap := run_maxTtl _ h
  have hpos := (hf.fresh_insert (List.mem_append_right _ (List.mem_singleton.2 rfl))).1
  have hz : capTtl ((Cache.withCapacityAndMaxTtl n cap).run h).maxTtl r.ttl ≠ 0 := by
    rw [httl]
    exact capTtl_ne_zero hcap hpos
  rw [run_append_singleton]
  exact ⟨_, insertFrom_find?_self hz BEq.rfl⟩

theorem length_run_le (n : ℕ) (hcap : CapOk cap) (h : List CacheEvent) :
    ((Cache.withCapacityAndMaxTtl n cap).run h).byKey.length ≤ max n 1 := by
  -- the invariant needs some instant after the run
  have hnow : ∀ call ∈ h.map fun ev => (ev.time, CacheCall.change ev.op),
      call.1 ≤ (h.map CacheEvent.time).sum := by
    intro call hcall
    obtain ⟨ev, hev, rfl⟩ := List.mem_map.1 hcall
    exact List.le_sum_of_mem (List.mem_map_of_mem hev)
  obtain ⟨hinv, hmax, -⟩ := inv_runCalls (n := n) hcap hnow
  rw [run_eq_runCalls, ← hmax]
  exact hinv.size

/-- A record of a flood that is no longer cached is outlived by all cached entries but one. -/
theorem Flood.outlived (hcap : CapOk cap) (hf : Flood h) (hmem : ⟨t, .insert σ r src⟩ ∈ h)
    (hgone : ((Cache.withCapacityAndMaxTtl n cap).run h).byKey.find? (RecordKey.of r) = none) :
    max n 1 - 1 ≤ ((Cache.withCapacityAndMaxTtl n cap).run h).outliving
      (storedAs cap (r, t)).2 := by
  induction h using List.reverseRecOn with
  | nil => cases hmem
  | append_singleton h ev ih =>
    have hmax : ((Cache.withCapacityAndMaxTtl n cap).run h).maxEntries = max n 1 :=
      run_maxEntries _ h
    have httl : ((Cache.withCapacityAndMaxTtl n cap).run h).maxTtl = cap := run_maxTtl _ h
    have hsize := length_run_le n hcap h
    obtain ⟨t', op⟩ := ev
    obtain ⟨last, hlast, hpos, hflush⟩ := hf.fresh ⟨t', op⟩ (by simp)
    cases op with
    | sweep => cases hlast
    | insert σ' last' src' =>
      obtain rfl : last' = last := Option.some.inj hlast
      have hnew := hf.find?_last (n := n) hcap
      have hz : capTtl ((Cache.withCapacityAndMaxTtl n cap).run h).maxTtl last'.ttl ≠ 0 := by
        rw [httl]
        exact capTtl_ne_zero hcap hpos
      rcases List.mem_append.1 hmem with hmem | hmem
      · have hf' := hf.of_append_singleton
        rw [run_append_singleton] at hgone ⊢
        rw [← hmax] at hsize ih ⊢
        refine outlived_insertFrom hz hflush hnew (by omega) hsize (fun e he => ?_) (ih hf' hmem)
          hgone
        exact congrArg Prod.snd (hf'.face_of_find? hcap hmem he)
      · -- the last record itself is cached
        cases List.mem_singleton.1 hmem
        obtain ⟨e, he⟩ := hf.exists_find?_last (n := n) hcap
        rw [hgone] at he
        cases he

end Run

/-- **What capacity eviction may drop.**  Over every flood, for every capacity: the record inserted
last is cached, and a record inserted that is no longer cached is outlived by all cached entries but
one, whichever victims were taken among equal deadlines. -/
theorem flood_outlived (n : ℕ) {cap : Option UInt64} (hcap : CapOk cap) {h : List CacheEvent}
    (hf : Flood h) :
    (∀ pre t σ r src, h = pre ++ [⟨t, .insert σ r src⟩] →
      ∃ e, ((Cache.withCapacityAndMaxTtl n cap).run h).byKey.find? (RecordKey.of r) = some e ∧
        e.face = storedAs cap (r, t)) ∧
    ∀ t σ r src, ⟨t, .insert σ r src⟩ ∈ h →
      ((Cache.withCapacityAndMaxTtl n cap).run h).byKey.find? (RecordKey.of r) = none →
        max n 1 - 1 ≤ ((Cache.withCapacityAndMaxTtl n cap).run h).outliving
          (t + fromSecs (cappedSecs cap r.ttl)) := by
  constructor
  · rintro pre t σ r src rfl
    obtain ⟨e, he⟩ := hf.exists_find?_last (n := n) hcap
    have hmem : ⟨t, .insert σ r src⟩ ∈ pre ++ [⟨t, .insert σ r src⟩] :=
      List.mem_append_right _ (List.mem_singleton.2 rfl)
    exact ⟨e, he, hf.face_of_find? hcap hmem he⟩
  · intro t σ r src hmem hgone
    have hout := hf.outlived hcap hmem hgone
    rwa [storedAs, capTtl_toNat hcap] at hout

/-- An address of the printer, sent without the cache-flush bit. -/
def printerAlias (addr : BitVec 32) (ttl : UInt32) : Record :=
  { printerAddress with data := .a addr, ttl := ttl, mdnsCacheFlush := false }

/-- Three addresses arrive within two nanoseconds, the first with the shortest TTL. -/
def printerFlood : List CacheEvent :=
  [⟨0, .insert (IterOrder.id _ _) (printerAlias 1 10) (some 3)⟩,
    ⟨1, .insert (IterOrder.id _ _) (printerAlias 2 120) (some 3)⟩,
    ⟨2, .insert (IterOrder.id _ _) (printerAlias 3 60) (some 3)⟩]

/-- With room for two, the first address is displaced, and one of the others outlives it. -/
theorem flood_outlived_printer :
    Flood printerFlood ∧
      ((Cache.withCapacityAndMaxTtl 2 none).run printerFlood).byKey.find?
        (RecordKey.of (printerAlias 1 10)) = none ∧
      max 2 1 - 1 ≤ ((Cache.withCapacityAndMaxTtl 2 none).run printerFlood).outliving
        (0 + fromSecs (cappedSecs none (printerAlias 1 10).ttl)) := by
  have hf : Flood printerFlood := by
    refine ⟨?_, ?_⟩
    · simp only [printerFlood, List.forall_mem_cons, List.not_mem_nil, false_imp_iff, implies_true,
        and_true]
      exact ⟨⟨_, rfl, by decide, rfl⟩, ⟨_, rfl, by decide, rfl⟩, ⟨_, rfl, by decide, rfl⟩⟩
    · simp only [printerFlood, List.pairwise_cons, List.forall_mem_cons, List.not_mem_nil,
        false_imp_iff, implies_true, and_true, List.Pairwise.nil, CacheEvent.record?,
        Option.mem_some_iff, forall_eq']
      decide
  have hgone : ((Cache.withCapacityAndMaxTtl 2 none).run printerFlood).byKey.find?
      (RecordKey.of (printerAlias 1 10)) = none := by
    decide +kernel
  refine ⟨hf, hgone, (flood_outlived 2 capOk_none hf).2 0 (IterOrder.id _ _) (printerAlias 1 10)
    (some 3) ?_ hgone⟩
  exact List.mem_cons_self

end Nmdns
