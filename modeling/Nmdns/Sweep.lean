import Mathlib.SetTheory.Cardinal.Order
import Nmdns.Invariant

/-!
# Sweeps are unobservable

A run of the cache and the same run with some of its sweeps left out serve the same records, at any
capacity.

* `faceAt`: the record and the deadline stored under a key, without its source;
* `SweptTo τ m m'`: `m` is `m'` without the entries that expire at `τ` or earlier.  An entry that
  only `m'` has expires before everything in `m`, so a capacity eviction takes it first
  (`SweptTo.evictVictim`);
* `Thinned h h'`: `h'` is `h` without some of its sweeps; `sweptTo_run` keeps the two caches in
  step;
* `sweep_unobservable`: `lookup` and `snapshot` return the same records.

Which of several entries with one deadline is evicted depends on the iteration order of the hash
map.  `BreaksTiesBy rank` fixes it: the entry whose key has the smallest rank.
-/

namespace Nmdns

variable {α : Type*} [LinearOrder α] {rank : RecordKey → α} {τ : ℕ} {m m' : Entries}

/-- The record and the deadline stored under a key. -/
def faceAt (m : Entries) (k : RecordKey) : Option (Record × ℕ) := (m.find? k).map Entry.face

theorem faceAt_eq_none {k : RecordKey} : faceAt m k = none ↔ m.find? k = none :=
  Option.map_eq_none_iff

theorem faceAt_erase (m : Entries) (k k' : RecordKey) :
    faceAt (m.erase k) k' = if k' == k then none else faceAt m k' := by
  unfold faceAt
  rw [KeyedMap.find?_erase]
  split_ifs <;> rfl

theorem faceAt_insert (m : Entries) (k k' : RecordKey) (e : Entry) :
    faceAt (m.insert k e) k' = if k' == k then some e.face else faceAt m k' := by
  unfold faceAt
  rw [KeyedMap.find?_insert]
  split_ifs <;> rfl

theorem faceAt_purge (m : Entries) (record : Record) (k : RecordKey) :
    faceAt (purge m record) k =
      if record.mdnsCacheFlush && k.sibling (RecordKey.of record) then none else faceAt m k := by
  unfold faceAt
  rw [find?_purge]
  split_ifs <;> rfl

/-- `m` is `m'` without the entries that expire at `τ` or earlier. -/
def SweptTo (τ : ℕ) (m m' : Entries) : Prop :=
  ∀ k, faceAt m k = (faceAt m' k).filter fun w => decide (τ < w.2)

/-- The order on keys decides which entry is evicted among those that expire first. -/
def BreaksTiesBy (rank : RecordKey → α) (σ : CacheOrder) : Prop :=
  ∀ (m : Entries) p, minByKey (fun p => p.2.deadline) (m.iter σ) = some p →
    ∀ q ∈ m.entries, q.2.deadline = p.2.deadline → rank p.1 ≤ rank q.1

/-! ### The two maps, operation by operation -/

namespace SweptTo

theorem bound (h : SweptTo τ m m') {k : RecordKey} (hk : m.find? k ≠ none) :
    m'.find? k ≠ none := by
  intro hnone
  refine hk (faceAt_eq_none.1 ?_)
  rw [h k, faceAt_eq_none.2 hnone]
  rfl

theorem length_le (h : SweptTo τ m m') : m.length ≤ m'.length :=
  KeyedMap.length_le_of_bound (fun _ _ => RecordKey.beq_iff) fun _ => h.bound

theorem length_lt (h : SweptTo τ m m') {k : RecordKey} (hk : m.find? k = none)
    (hk' : m'.find? k ≠ none) : m.length < m'.length :=
  KeyedMap.length_lt_of_bound (fun _ _ => RecordKey.beq_iff) (fun _ => h.bound) hk hk'

/-- A key that only the unswept map binds has expired. -/
theorem expired (h : SweptTo τ m m') {k : RecordKey} (hk : m.find? k = none) {e : Entry}
    (he : m'.find? k = some e) : e.deadline ≤ τ := by
  have hface := h k
  rw [faceAt_eq_none.2 hk, faceAt, he] at hface
  by_contra hlt
  simp [Option.filter, Entry.face, not_le.1 hlt] at hface

theorem insert (h : SweptTo τ m m') (k : RecordKey) {e e' : Entry} (hface : e.face = e'.face)
    (hlive : τ < e.deadline) : SweptTo τ (m.insert k e) (m'.insert k e') := by
  intro k'
  rw [faceAt_insert, faceAt_insert, h k', ← hface]
  split_ifs
  · simp [Option.filter, Entry.face, hlive]
  · rfl

theorem purge (h : SweptTo τ m m') (record : Record) :
    SweptTo τ (purge m record) (purge m' record) := by
  intro k
  rw [faceAt_purge, faceAt_purge, h k]
  split_ifs <;> rfl

end SweptTo

theorem faceAt_evictExpired (c : Cache) (now : ℕ) (k : RecordKey) :
    faceAt (c.evictExpired now).1.byKey k =
      (faceAt c.byKey k).filter fun w => decide (now < w.2) := by
  unfold faceAt
  rw [evictExpired_find?]
  cases c.byKey.find? k with
  | none => rfl
  | some e =>
    by_cases hlt : now < e.deadline <;> simp [Option.filter, Entry.face, hlt]

/-- A sweep of the swept map only. -/
theorem SweptTo.evictExpired_left {c : Cache} (h : SweptTo τ c.byKey m') {now : ℕ}
    (hle : τ ≤ now) : SweptTo now (c.evictExpired now).1.byKey m' := by
  intro k
  rw [faceAt_evictExpired, h k, Option.filter_filter]
  congr 1
  funext w
  rw [Bool.and_eq_right_iff_imp]
  simp only [decide_eq_true_eq]
  exact hle.trans_lt

/-- A sweep of the unswept map up to the same time. -/
theorem SweptTo.evictExpired_right {c : Cache} (h : SweptTo τ m c.byKey) :
    SweptTo τ m (c.evictExpired τ).1.byKey := by
  intro k
  rw [faceAt_evictExpired, Option.filter_filter, h k]
  simp only [Bool.and_self]

/-! ### The capacity eviction -/

/-- The entry that a capacity eviction takes: the first to expire, the least key among these. -/
structure IsVictim (rank : RecordKey → α) (m : Entries) (p : RecordKey × Entry) : Prop where
  mem : p ∈ m.entries
  least : ∀ q ∈ m.entries, p.2.deadline ≤ q.2.deadline
  tie : ∀ q ∈ m.entries, q.2.deadline = p.2.deadline → rank p.1 ≤ rank q.1

theorem exists_victim {σ : CacheOrder} (hσ : BreaksTiesBy rank σ) {n : ℕ} (hpos : 1 ≤ n)
    (hfull : n ≤ m.length) : ∃ p, IsVictim rank m p ∧ evictVictim σ n m = m.erase p.1 := by
  obtain ⟨p, hp, hmin, hleast, heq⟩ := evictVictim_of_le σ hpos hfull
  exact ⟨p, ⟨hp, hleast, hσ m p hmin⟩, heq⟩

theorem faceAt_of_mem {p : RecordKey × Entry} (hp : p ∈ m.entries) :
    faceAt m p.1 = some p.2.face := by
  unfold faceAt
  rw [KeyedMap.find?_eq_some_iff.2 ⟨p.1, hp, BEq.rfl⟩]
  rfl

/-- An entry of one map has a counterpart in the other one. -/
theorem exists_counterpart (h : ∀ k, faceAt m k = faceAt m' k) {p : RecordKey × Entry}
    (hp : p ∈ m.entries) : ∃ q ∈ m'.entries, q.1 == p.1 ∧ q.2.deadline = p.2.deadline := by
  have hface := h p.1
  rw [faceAt_of_mem hp] at hface
  obtain ⟨e, he, heq⟩ := Option.map_eq_some_iff.1 hface.symm
  obtain ⟨k, hmem, hk⟩ := KeyedMap.find?_eq_some_iff.1 he
  exact ⟨(k, e), hmem, hk, congrArg Prod.snd heq⟩

/-- Maps with the same entries have the same victim. -/
theorem IsVictim.beq (hrank : ∀ k k', rank k = rank k' ↔ k == k')
    (h : ∀ k, faceAt m k = faceAt m' k) {p p' : RecordKey × Entry} (hp : IsVictim rank m p)
    (hp' : IsVictim rank m' p') : p.1 == p'.1 := by
  obtain ⟨q, hq, hqk, hqd⟩ := exists_counterpart h hp.mem
  obtain ⟨q', hq', hqk', hqd'⟩ := exists_counterpart (fun k => (h k).symm) hp'.mem
  have hle := hp'.least q hq
  have hge := hp.least q' hq'
  have hrle := hp'.tie q hq (by omega)
  have hrge := hp.tie q' hq' (by omega)
  rw [(hrank _ _).2 hqk] at hrle
  rw [(hrank _ _).2 hqk'] at hrge
  exact (hrank _ _).1 (le_antisymm hrge hrle)

/-- A swept map that is as long as the unswept one has the same entries. -/
theorem SweptTo.faceAt_eq (h : SweptTo τ m m') (hlen : m'.length ≤ m.length) (k : RecordKey) :
    faceAt m k = faceAt m' k := by
  cases hk : m.find? k with
  | some e =>
    obtain ⟨w, hw⟩ : ∃ w, faceAt m k = some w := ⟨e.face, by rw [faceAt, hk]; rfl⟩
    have hface := h k
    rw [hw] at hface
    rw [hw, (Option.filter_eq_some_iff.1 hface.symm).1]
  | none =>
    have hnone : m'.find? k = none := by
      by_contra hne
      exact absurd (h.length_lt hk hne) (Nat.not_lt.2 hlen)
    rw [faceAt_eq_none.2 hk, faceAt_eq_none.2 hnone]

/-- An eviction from the unswept map alone takes an entry that has expired. -/
theorem SweptTo.erase_right (h : SweptTo τ m m') (hlt : m.length < m'.length)
    {p : RecordKey × Entry} (hp : IsVictim rank m' p) : SweptTo τ m (m'.erase p.1) := by
  -- some key is bound on the right only; its entry has expired, and the victim before it
  obtain ⟨k, hk, hk'⟩ : ∃ k, m.find? k = none ∧ m'.find? k ≠ none := by
    by_contra hall
    push Not at hall
    have hle := KeyedMap.length_le_of_bound (fun _ _ => RecordKey.beq_iff)
      fun k (hk : m'.find? k ≠ none) hnone => hk (hall k hnone)
    omega
  obtain ⟨e, he⟩ := Option.ne_none_iff_exists'.1 hk'
  obtain ⟨k₀, hmem, -⟩ := KeyedMap.find?_eq_some_iff.1 he
  have hdead : p.2.deadline ≤ τ := (hp.least _ hmem).trans (h.expired hk he)
  intro k'
  rw [faceAt_erase, h k']
  split_ifs with hkp
  · have hface : faceAt m' k' = some p.2.face := by
      rw [faceAt, KeyedMap.find?_congr _ hkp]
      exact faceAt_of_mem hp.mem
    rw [hface]
    simp [Option.filter, Entry.face, Nat.not_lt.2 hdead]
  · rfl

/-- The eviction keeps the two maps in step: it takes the same entry from both, or from the
unswept one an entry that has expired. -/
theorem SweptTo.evictVictim (hrank : ∀ k k', rank k = rank k' ↔ k == k') (h : SweptTo τ m m')
    {n : ℕ} (hpos : 1 ≤ n) (hlen : m'.length ≤ n) {σ σ' : CacheOrder}
    (hσ : BreaksTiesBy rank σ) (hσ' : BreaksTiesBy rank σ') :
    SweptTo τ (evictVictim σ n m) (evictVictim σ' n m') := by
  have hle := h.length_le
  rcases Nat.lt_or_ge m'.length n with hfree | hfull'
  · rw [evictVictim_of_lt (hle.trans_lt hfree), evictVictim_of_lt hfree]
    exact h
  obtain ⟨p', hp', hev'⟩ := exists_victim hσ' hpos hfull'
  rw [hev']
  rcases Nat.lt_or_ge m.length n with hfree | hfull
  · rw [evictVictim_of_lt hfree]
    exact h.erase_right (hfree.trans_le hfull') hp'
  · obtain ⟨p, hp, hev⟩ := exists_victim hσ hpos hfull
    have hface := h.faceAt_eq (hlen.trans hfull)
    rw [hev]
    intro k
    rw [faceAt_erase, faceAt_erase, BEq.congr_right (hp.beq hrank hface hp'), h k]
    split_ifs <;> rfl

/-! ### One call and whole runs -/

/-- An insertion into both caches.  Where only the unswept cache still has the record, the swept
one has a free slot for it. -/
theorem SweptTo.insertFrom (hrank : ∀ k k', rank k = rank k' ↔ k == k') {c c' : Cache}
    (h : SweptTo τ c.byKey c'.byKey) (hmax : c.maxEntries = c'.maxEntries)
    (hcap : c.maxTtl = c'.maxTtl) (hpos : 1 ≤ c'.maxEntries)
    (hlen : c'.byKey.length ≤ c'.maxEntries) {σ σ' : CacheOrder} (hσ : BreaksTiesBy rank σ)
    (hσ' : BreaksTiesBy rank σ') {now : ℕ} (hle : τ ≤ now) (record : Record)
    (src : Option UInt32) :
    SweptTo τ (c.insertFrom σ now record src).1.byKey
      (c'.insertFrom σ' now record src).1.byKey := by
  by_cases hz : capTtl c'.maxTtl record.ttl = 0
  · intro k
    unfold faceAt
    rw [insertFrom_find?_goodbye (by rw [hcap]; exact hz), insertFrom_find?_goodbye hz]
    split_ifs
    · rfl
    · exact h k
  have hz' : capTtl c.maxTtl record.ttl ≠ 0 := by rwa [hcap]
  have hpurge := h.purge record
  have hlen' := (length_purge_le c'.byKey record).trans hlen
  -- what is stored is the same on both sides, but for its source
  have hface : ∀ s s', (c.entryOf now record s).face = (c'.entryOf now record s').face := by
    intro s s'
    rw [entryOf_face, entryOf_face, hcap]
  have hlive : ∀ s, τ < (c.entryOf now record s).deadline := fun s =>
    hle.trans_lt (lt_deadline_entryOf hz' now s)
  simp only [Cache.insertFrom, if_neg hz, if_neg hz', hmax]
  cases hnew' : (Nmdns.purge c'.byKey record).find? (RecordKey.of record) with
  | none =>
    have hnew : (Nmdns.purge c.byKey record).find? (RecordKey.of record) = none := by
      by_contra hne
      exact hpurge.bound hne hnew'
    rw [hnew]
    exact (hpurge.evictVictim hrank hpos hlen' hσ hσ').insert _ (hface _ _) (hlive _)
  | some e' =>
    cases hnew : (Nmdns.purge c.byKey record).find? (RecordKey.of record) with
    | some e => exact hpurge.insert _ (hface _ _) (hlive _)
    | none =>
      have hfree := hpurge.length_lt hnew (by rw [hnew']; exact Option.some_ne_none e')
      simp only [evictVictim_of_lt (hfree.trans_le hlen')]
      exact hpurge.insert _ (hface _ _) (hlive _)

/-- `h'` is `h` without some of its sweeps.  The insertions may visit the hash map in another
order. -/
inductive Thinned : List CacheEvent → List CacheEvent → Prop
  | nil : Thinned [] []
  | insert (t : ℕ) (σ σ' : CacheOrder) (record : Record) (src : Option UInt32)
      {h h' : List CacheEvent} (ht : Thinned h h') :
      Thinned (⟨t, .insert σ record src⟩ :: h) (⟨t, .insert σ' record src⟩ :: h')
  | keep (t : ℕ) {h h' : List CacheEvent} (ht : Thinned h h') :
      Thinned (⟨t, .sweep⟩ :: h) (⟨t, .sweep⟩ :: h')
  | drop (t : ℕ) {h h' : List CacheEvent} (ht : Thinned h h') : Thinned (⟨t, .sweep⟩ :: h) h'

/-- Every insertion of a run breaks ties by the same order on keys. -/
def TiesBy (rank : RecordKey → α) (h : List CacheEvent) : Prop :=
  ∀ ev ∈ h, ∀ σ record src, ev.op = .insert σ record src → BreaksTiesBy rank σ

/-- The two caches stay in step over a whole run: at its end the one is the other swept up to some
time that has passed. -/
theorem sweptTo_run (hrank : ∀ k k', rank k = rank k' ↔ k == k') {h h' : List CacheEvent}
    (ht : Thinned h h') {c c' : Cache} (hs : SweptTo τ c.byKey c'.byKey)
    (hmax : c.maxEntries = c'.maxEntries) (hcap : c.maxTtl = c'.maxTtl)
    (hpos : 1 ≤ c'.maxEntries) (hlen : c'.byKey.length ≤ c'.maxEntries)
    (hties : TiesBy rank h) (hties' : TiesBy rank h')
    (hclock : h.Pairwise fun ev ev' => ev.time ≤ ev'.time) (hτ : ∀ ev ∈ h, τ ≤ ev.time)
    {now : ℕ} (hτnow : τ ≤ now) (hnow : ∀ ev ∈ h, ev.time ≤ now) :
    ∃ τ' ≤ now, SweptTo τ' (c.run h).byKey (c'.run h').byKey := by
  induction ht generalizing c c' τ with
  | nil => exact ⟨τ, hτnow, hs⟩
  | insert t σ σ' record src ht ih =>
    obtain ⟨hle, hclock⟩ := List.pairwise_cons.1 hclock
    obtain ⟨hσ, hties⟩ := List.forall_mem_cons.1 hties
    obtain ⟨hσ', hties'⟩ := List.forall_mem_cons.1 hties'
    obtain ⟨hτt, hτ⟩ := List.forall_mem_cons.1 hτ
    obtain ⟨-, hnow⟩ := List.forall_mem_cons.1 hnow
    have hs' := hs.insertFrom hrank hmax hcap hpos hlen (hσ σ record src rfl)
      (hσ' σ' record src rfl) hτt record src
    refine ih hs' ?_ ?_ ?_ ?_ hties hties' hclock hτ hτnow hnow
    · rw [step_maxEntries, step_maxEntries, hmax]
    · rw [step_maxTtl, step_maxTtl, hcap]
    · rwa [step_maxEntries]
    · rw [step_maxEntries]
      exact length_insertFrom_le hpos hlen σ' t record src
  | keep t ht ih =>
    obtain ⟨hle, hclock⟩ := List.pairwise_cons.1 hclock
    obtain ⟨hτt, -⟩ := List.forall_mem_cons.1 hτ
    obtain ⟨ht, hnow⟩ := List.forall_mem_cons.1 hnow
    exact ih (hs.evictExpired_left hτt).evictExpired_right hmax hcap hpos
      ((KeyedMap.length_retain_le _ _).trans hlen) (List.forall_mem_cons.1 hties).2
      (List.forall_mem_cons.1 hties').2 hclock hle ht hnow
  | drop t ht ih =>
    obtain ⟨hle, hclock⟩ := List.pairwise_cons.1 hclock
    obtain ⟨hτt, -⟩ := List.forall_mem_cons.1 hτ
    obtain ⟨ht, hnow⟩ := List.forall_mem_cons.1 hnow
    exact ih (hs.evictExpired_left hτt) hmax hcap hpos hlen (List.forall_mem_cons.1 hties).2
      hties' hclock hle ht hnow

/-! ### What is served -/

/-- The record served for an entry depends on its record and deadline only. -/
theorem served_congr {e e' : Entry} (h : e.face = e'.face) (now : ℕ) :
    recordWithRemainingTtl e now = recordWithRemainingTtl e' now := by
  obtain ⟨hrec, hdl⟩ := Prod.mk.inj h
  unfold recordWithRemainingTtl
  rw [hrec, hdl]

/-- A live entry of one map has a counterpart in the other. -/
theorem SweptTo.exists_served (h : SweptTo τ m m') {now : ℕ} (hτ : τ ≤ now) {k : RecordKey}
    {r : Record} (f : Record → Prop) :
    (∃ e, m.find? k = some e ∧ f e.record ∧ recordWithRemainingTtl e now = some r) ↔
      ∃ e, m'.find? k = some e ∧ f e.record ∧ recordWithRemainingTtl e now = some r := by
  have hk := h k
  constructor
  · rintro ⟨e, he, hf, hr⟩
    rw [faceAt, he] at hk
    obtain ⟨hface, -⟩ := Option.filter_eq_some_iff.1 hk.symm
    obtain ⟨e', he', heq⟩ := Option.map_eq_some_iff.1 hface
    refine ⟨e', he', ?_, by rw [served_congr heq]; exact hr⟩
    rw [(Prod.mk.inj heq).1]
    exact hf
  · rintro ⟨e', he', hf, hr⟩
    obtain ⟨hlt, -⟩ := recordWithRemainingTtl_eq_some.1 hr
    have hface : faceAt m k = some e'.face := by
      rw [hk, faceAt, he']
      simp [Option.filter, Entry.face, hτ.trans_lt hlt]
    obtain ⟨e, he, heq⟩ := Option.map_eq_some_iff.1 hface
    refine ⟨e, he, ?_, by rw [served_congr heq]; exact hr⟩
    rw [(Prod.mk.inj heq).1]
    exact hf

/-- **Sweep timing is unobservable.**  At any capacity, leaving out any of the sweeps of a run
changes nothing in what `lookup` and `snapshot` return from then on. -/
theorem sweep_unobservable (hrank : ∀ k k', rank k = rank k' ↔ k == k') (n : ℕ)
    (cap : Option UInt64) {h h' : List CacheEvent} (ht : Thinned h h') (hties : TiesBy rank h)
    (hties' : TiesBy rank h') (hclock : h.Pairwise fun ev ev' => ev.time ≤ ev'.time) {now : ℕ}
    (hnow : ∀ ev ∈ h, ev.time ≤ now) (σ σ' : CacheOrder) :
    (∀ name rtype r,
      r ∈ ((Cache.withCapacityAndMaxTtl n cap).run h).lookup σ now name rtype ↔
        r ∈ ((Cache.withCapacityAndMaxTtl n cap).run h').lookup σ' now name rtype) ∧
      ∀ r, r ∈ ((Cache.withCapacityAndMaxTtl n cap).run h).snapshot σ now ↔
        r ∈ ((Cache.withCapacityAndMaxTtl n cap).run h').snapshot σ' now := by
  have hempty : SweptTo 0 (Cache.withCapacityAndMaxTtl n cap).byKey
      (Cache.withCapacityAndMaxTtl n cap).byKey := fun _ => rfl
  obtain ⟨τ, hτ, hs⟩ : ∃ τ ≤ now, SweptTo τ ((Cache.withCapacityAndMaxTtl n cap).run h).byKey
      ((Cache.withCapacityAndMaxTtl n cap).run h').byKey :=
    sweptTo_run hrank ht hempty rfl rfl (Nat.le_max_right _ _) (Nat.zero_le _) hties hties'
      hclock (fun _ _ => Nat.zero_le _) (Nat.zero_le _) hnow
  constructor
  · intro name rtype r
    unfold Cache.lookup
    simp only [mem_lookupInner, true_and]
    exact exists_congr fun k => hs.exists_served hτ fun r' => recordMatches r' name rtype = true
  · intro r
    simp only [mem_snapshot]
    refine exists_congr fun k => ?_
    simpa using hs.exists_served hτ (k := k) (r := r) fun _ => True

/-- An order on keys, by their canonical forms. -/
noncomputable def keyRank (k : RecordKey) : Cardinal.{0} := embeddingToCardinal k.fold

theorem keyRank_eq_iff (k k' : RecordKey) : keyRank k = keyRank k' ↔ k == k' := by
  rw [RecordKey.beq_iff]
  exact embeddingToCardinal.injective.eq_iff

/-- Visiting the keys by rank breaks ties by rank. -/
theorem breaksTiesBy_sortedBy (rank : RecordKey → α) :
    BreaksTiesBy rank (IterOrder.sortedBy Entry rank) := by
  intro m p hmin q hq hd
  rcases minByKey_first (IterOrder.pairwise_sortedBy rank m.entries) hmin
    (KeyedMap.mem_iter.2 hq) hd with heq | hle
  · rw [heq]
  · exact hle

/-- Another host on the printer's network. -/
def scannerAddress : Record :=
  ⟨⟨[[115], [108, 111, 99, 97, 108]], true⟩, .in, 120, .a 0xC0A81433, true⟩

/-- The printer is heard and expires; the cache is swept only in the first of the two runs; then
the scanner is heard, and there is room for one record. -/
noncomputable def scannerRun (sweeps : List CacheEvent) : List CacheEvent :=
  ⟨0, .insert (IterOrder.sortedBy Entry keyRank) printerAddress none⟩ :: sweeps ++
    [⟨fromSecs 201, .insert (IterOrder.sortedBy Entry keyRank) scannerAddress none⟩]

theorem sweep_unobservable_scanner :
    (∀ r, r ∈ ((Cache.withCapacityAndMaxTtl 1 none).run
        (scannerRun [⟨fromSecs 200, .sweep⟩])).snapshot (IterOrder.id _ _) (fromSecs 201) ↔
      r = scannerAddress) ∧
      ∀ r, r ∈ ((Cache.withCapacityAndMaxTtl 1 none).run (scannerRun [])).snapshot
        (IterOrder.id _ _) (fromSecs 201) ↔ r = scannerAddress := by
  have hties : ∀ sweeps : List CacheEvent, (∀ ev ∈ sweeps, ev.op = .sweep) →
      TiesBy keyRank (scannerRun sweeps) := by
    intro sweeps hsweeps ev hev σ record src hop
    rcases List.mem_append.1 hev with hev | hev
    · rcases List.mem_cons.1 hev with rfl | hev
      · cases hop
        exact breaksTiesBy_sortedBy keyRank
      · rw [hsweeps ev hev] at hop
        cases hop
    · cases List.mem_singleton.1 hev
      cases hop
      exact breaksTiesBy_sortedBy keyRank
  have ht : Thinned (scannerRun [⟨fromSecs 200, .sweep⟩]) (scannerRun []) :=
    Thinned.insert 0 _ _ _ _ (Thinned.drop _ (Thinned.insert _ _ _ _ _ Thinned.nil))
  have hnow : ∀ ev ∈ scannerRun [⟨fromSecs 200, .sweep⟩], ev.time ≤ fromSecs 201 := by
    simp [scannerRun, fromSecs]
  have hsame := (sweep_unobservable keyRank_eq_iff 1 none ht (hties _ (by simp))
    (hties _ (by simp)) (by simp [scannerRun, fromSecs]) hnow (IterOrder.id _ _)
    (IterOrder.id _ _)).2
  have hswept : ((Cache.withCapacityAndMaxTtl 1 none).run
      (scannerRun [⟨fromSecs 200, .sweep⟩])).snapshot (IterOrder.id _ _) (fromSecs 201) =
      [scannerAddress] := by
    decide +kernel
  rw [hswept] at hsame ⊢
  exact ⟨fun r => List.mem_singleton, fun r => (hsame r).symm.trans List.mem_singleton⟩

end Nmdns
