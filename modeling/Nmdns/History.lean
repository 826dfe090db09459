import Nmdns.Cache
import Nmdns.Lib.Register

/-!
# The cache as a function of its history

A run of the cache is a sequence of insertions and sweeps with a non-decreasing clock.  As long as
the records fit, the cache answers as if every record key were a register of its own:

* an insertion with a positive TTL sets the register of its key;
* a goodbye clears it; a cache-flush insertion clears the registers of its siblings;
* a sweep does nothing, and a deadline in the past hides the value (`live_run`).

`step_find?_effect` is the exact effect of one call on one entry (`entryEffect`), and
`find?_run_effect` that of a whole run.
`Standing h record t₀` says that the insertion of `record` at `t₀` is the last word of the history
on its key.  `lookup_eq_history` is the resulting description of `lookup` and `snapshot`.
-/

namespace Nmdns

/-- One call that changes the cache. -/
inductive CacheOp
  | insert (σ : CacheOrder) (record : Record) (src : Option UInt32)
  | sweep

/-- A call and the reading of the clock it makes. -/
structure CacheEvent where
  time : ℕ
  op : CacheOp

/-- The cache after one call. -/
def Cache.step (c : Cache) (ev : CacheEvent) : Cache :=
  match ev.op with
  | .insert σ record src => (c.insertFrom σ ev.time record src).1
  | .sweep => (c.evictExpired ev.time).1

/-- The cache after a sequence of calls. -/
def Cache.run (c : Cache) (h : List CacheEvent) : Cache := h.foldl Cache.step c

/-- The record of an insertion. -/
def CacheEvent.record? (ev : CacheEvent) : Option Record :=
  match ev.op with
  | .insert _ record _ => some record
  | .sweep => none

/-- The distinct keys that a history inserts, each by its canonical form. -/
def insertedKeys (h : List CacheEvent) : Finset RecordKey :=
  ((h.filterMap CacheEvent.record?).map fun r => (RecordKey.of r).fold).toFinset

/-- A later event that ends the life of a record: an insertion of the same key, or a cache-flush
insertion of a sibling. -/
def Supersedes (ev : CacheEvent) (record : Record) : Prop :=
  match ev.op with
  | .insert _ r _ => RecordKey.of r == RecordKey.of record ∨ r.flushes (RecordKey.of record)
  | .sweep => False

/-- The history has an insertion of `record` at `t₀` with a positive TTL, and nothing later
supersedes it. -/
def Standing (h : List CacheEvent) (record : Record) (t₀ : ℕ) : Prop :=
  ∃ pre σ src post, h = pre ++ ⟨t₀, .insert σ record src⟩ :: post ∧ 0 < record.ttl ∧
    ∀ ev ∈ post, ¬ Supersedes ev record

/-- A time in whole seconds, rounded up. -/
def ceilSecs (d : ℕ) : ℕ := (d + (fromSecs 1 - 1)) / fromSecs 1

@[simp] theorem run_nil (c : Cache) : c.run [] = c := rfl

theorem run_append_singleton (c : Cache) (h : List CacheEvent) (ev : CacheEvent) :
    c.run (h ++ [ev]) = (c.run h).step ev := by
  simp [Cache.run, List.foldl_append]

@[simp] theorem step_maxEntries (c : Cache) (ev : CacheEvent) :
    (c.step ev).maxEntries = c.maxEntries := by
  unfold Cache.step
  split
  · exact insertFrom_maxEntries _ _ _ _ _
  · rfl

@[simp] theorem step_maxTtl (c : Cache) (ev : CacheEvent) : (c.step ev).maxTtl = c.maxTtl := by
  unfold Cache.step
  split
  · exact insertFrom_maxTtl _ _ _ _ _
  · rfl

@[simp] theorem run_maxEntries (c : Cache) (h : List CacheEvent) :
    (c.run h).maxEntries = c.maxEntries := by
  induction h using List.reverseRecOn with
  | nil => rfl
  | append_singleton h ev ih => rw [run_append_singleton, step_maxEntries, ih]

@[simp] theorem run_maxTtl (c : Cache) (h : List CacheEvent) : (c.run h).maxTtl = c.maxTtl := by
  induction h using List.reverseRecOn with
  | nil => rfl
  | append_singleton h ev ih => rw [run_append_singleton, step_maxTtl, ih]

/-! ### The keys of a run -/

theorem insertedKeys_append_singleton (h : List CacheEvent) (ev : CacheEvent) :
    insertedKeys (h ++ [ev]) =
      match ev.record? with
      | some r => insert (RecordKey.of r).fold (insertedKeys h)
      | none => insertedKeys h := by
  unfold insertedKeys
  cases hr : ev.record? with
  | none => simp [List.filterMap_append, hr]
  | some r =>
    ext k
    simp [List.filterMap_append, hr]

theorem insertedKeys_subset (h : List CacheEvent) (ev : CacheEvent) :
    insertedKeys h ⊆ insertedKeys (h ++ [ev]) := by
  rw [insertedKeys_append_singleton]
  split
  · exact Finset.subset_insert _ _
  · exact subset_rfl

/-- A binding after one step was there before, or is the record inserted. -/
theorem step_find?_cases {c : Cache} {ev : CacheEvent} {k : RecordKey} {e : Entry}
    (he : (c.step ev).byKey.find? k = some e) :
    c.byKey.find? k = some e ∨ ∃ r, ev.record? = some r ∧ k == RecordKey.of r := by
  unfold Cache.step at he
  unfold CacheEvent.record?
  split at he
  · rename_i σ r src hop
    by_cases hk : k == RecordKey.of r
    · exact Or.inr ⟨r, rfl, hk⟩
    · left
      by_cases hz : capTtl c.maxTtl r.ttl = 0
      · rw [insertFrom_find?_goodbye hz, if_neg hk] at he
        exact he
      · exact (insertFrom_find?_other hz hk he).1
  · rw [evictExpired_find?, Option.filter_eq_some_iff] at he
    exact Or.inl he.1

/-- A key that is not cached and not inserted stays so. -/
theorem run_find?_eq_none {c : Cache} {h : List CacheEvent} {k : RecordKey}
    (hc : c.byKey.find? k = none) (hnew : ∀ ev ∈ h, ∀ r ∈ ev.record?, ¬ k == RecordKey.of r) :
    (c.run h).byKey.find? k = none := by
  induction h using List.reverseRecOn with
  | nil => exact hc
  | append_singleton h ev ih =>
    rw [run_append_singleton, Option.eq_none_iff_forall_ne_some]
    intro e he
    rcases step_find?_cases he with hold | ⟨r, hr, hk⟩
    · rw [ih fun ev' hev' => hnew ev' (List.mem_append_left _ hev')] at hold
      cases hold
    · exact hnew ev (List.mem_append_right _ List.mem_cons_self) r hr hk

/-- Every binding of a run has a key that the run inserted. -/
theorem mem_insertedKeys_of_find? {n : ℕ} {cap : Option UInt64} (h : List CacheEvent)
    {k : RecordKey} {e : Entry}
    (he : ((Cache.withCapacityAndMaxTtl n cap).run h).byKey.find? k = some e) :
    k.fold ∈ insertedKeys h := by
  induction h using List.reverseRecOn generalizing e with
  | nil => simp [Cache.withCapacityAndMaxTtl] at he
  | append_singleton h ev ih =>
    rw [run_append_singleton] at he
    rcases step_find?_cases he with hold | ⟨r, hr, hk⟩
    · exact insertedKeys_subset h ev (ih hold)
    · rw [insertedKeys_append_singleton, hr, RecordKey.beq_iff.1 hk]
      exact Finset.mem_insert_self _ _

/-- As long as the keys fit, no insertion has to evict. -/
theorem room_of_card {n : ℕ} {cap : Option UInt64} (h : List CacheEvent) (ev : CacheEvent)
    (hkeys : (insertedKeys (h ++ [ev])).card ≤ max n 1) {r : Record} (hr : ev.record? = some r) :
    ((Cache.withCapacityAndMaxTtl n cap).run h).Room r := by
  set c := (Cache.withCapacityAndMaxTtl n cap).run h with hc
  by_cases hfind : c.byKey.find? (RecordKey.of r) = none
  · refine Or.inr (Or.inr ?_)
    have hmax : c.maxEntries = max n 1 := by rw [hc, run_maxEntries]; rfl
    have hlt : c.byKey.length < (insertedKeys (h ++ [ev])).card := by
      refine KeyedMap.length_lt_card (fun _ _ => RecordKey.beq_iff) c.byKey (fun k e he => ?_)
        (k := RecordKey.of r) ?_ hfind
      · exact insertedKeys_subset h ev (mem_insertedKeys_of_find? h he)
      · rw [insertedKeys_append_singleton, hr]
        exact Finset.mem_insert_self _ _
    have hpurge := length_purge_le c.byKey r
    omega
  · exact Or.inr (Or.inl hfind)

/-! ### Each key is a register -/

/-- What an event does to the register of the key `k`. -/
def effectOn (k : RecordKey) (ev : CacheEvent) : Effect (Record × ℕ) :=
  match ev.op with
  | .insert _ r _ =>
    if k == RecordKey.of r then
      if r.ttl = 0 then .clear else .set (r, ev.time)
    else if r.flushes k then .clear
    else .keep
  | .sweep => .keep

/-- The register of `k` holds the standing insertion of that key. -/
theorem contents_effectOn_iff {k : RecordKey} {h : List CacheEvent} {r : Record} {t₀ : ℕ} :
    Effect.contents (effectOn k) h = some (r, t₀) ↔ k == RecordKey.of r ∧ Standing h r t₀ := by
  rw [Effect.contents_eq_some_iff]
  have hkeep : ∀ ev : CacheEvent, k == RecordKey.of r →
      (effectOn k ev = .keep ↔ ¬ Supersedes ev r) := by
    intro ev hk
    unfold effectOn Supersedes
    split
    · rename_i σ' r' src' hop
      rw [r'.flushes_congr hk]
      by_cases hk' : k == RecordKey.of r'
      · rw [if_pos hk']
        have hrr : RecordKey.of r' == RecordKey.of r := BEq.trans (BEq.symm hk') hk
        by_cases hz : r'.ttl = 0 <;> simp [hz, hrr]
      · rw [if_neg hk']
        have hrr : ¬ RecordKey.of r' == RecordKey.of r := fun hrr =>
          hk' (BEq.trans hk (BEq.symm hrr))
        simp only [hrr, Bool.false_eq_true, false_or]
        split_ifs with hc <;> simp [hc]
    · simp
  constructor
  · rintro ⟨pre, ev, post, rfl, hset, hpost⟩
    obtain ⟨t, op⟩ := ev
    unfold effectOn at hset
    split at hset
    · rename_i σ r' src hop
      dsimp only at hop
      subst hop
      split_ifs at hset with hk hz hc
      cases hset
      refine ⟨hk, pre, σ, src, post, rfl, UInt32.pos_iff_ne_zero.2 hz, fun ev' hev' => ?_⟩
      exact (hkeep ev' hk).1 (hpost ev' hev')
    · cases hset
  · rintro ⟨hk, pre, σ, src, post, rfl, hpos, hpost⟩
    refine ⟨pre, _, post, rfl, ?_, fun ev' hev' => (hkeep ev' hk).2 (hpost ev' hev')⟩
    unfold effectOn
    dsimp only
    rw [if_pos hk, if_neg (UInt32.pos_iff_ne_zero.1 hpos)]

/-- The last word of a history on a key is unique. -/
theorem Standing.unique {h : List CacheEvent} {r r' : Record} {t t' : ℕ} (hs : Standing h r t)
    (hs' : Standing h r' t') (hk : RecordKey.of r == RecordKey.of r') : r = r' ∧ t = t' := by
  have hc := contents_effectOn_iff.2 ⟨BEq.rfl, hs⟩
  rw [contents_effectOn_iff.2 ⟨hk, hs'⟩] at hc
  obtain ⟨rfl, rfl⟩ := Prod.mk.inj (Option.some.inj hc)
  exact ⟨rfl, rfl⟩

/-- The record and the deadline an insertion is stored with. -/
def storedAs (cap : Option UInt64) (w : Record × ℕ) : Record × ℕ :=
  ({ w.1 with ttl := capTtl cap w.1.ttl }, w.2 + fromSecs (capTtl cap w.1.ttl).toNat)

/-- The part of an entry that the register describes. -/
def Entry.face (e : Entry) : Record × ℕ := (e.record, e.deadline)

theorem entryOf_face (c : Cache) (now : ℕ) (record : Record) (src : Option UInt32) :
    (c.entryOf now record src).face = storedAs c.maxTtl (record, now) := rfl

/-- What a call does to the entry of the key `k`. -/
def entryEffect (cap : Option UInt64) (k : RecordKey) (old : Option Entry) (ev : CacheEvent) :
    Option Entry :=
  match ev.op with
  | .insert _ r src =>
    if k == RecordKey.of r then
      if r.ttl = 0 then none
      else some ⟨{ r with ttl := capTtl cap r.ttl }, ev.time + fromSecs (capTtl cap r.ttl).toNat,
        src.or (old.bind Entry.sourceIfindex)⟩
    else if r.flushes k then none
    else old
  | .sweep => old.filter fun e => decide (ev.time < e.deadline)

/-- One call that has room, seen from one key. -/
theorem step_find?_effect {c : Cache} (hcap : CapOk c.maxTtl) {ev : CacheEvent}
    (hroom : ∀ r, ev.record? = some r → c.Room r) (k : RecordKey) :
    (c.step ev).byKey.find? k = entryEffect c.maxTtl k (c.byKey.find? k) ev := by
  obtain ⟨t, op⟩ := ev
  cases op with
  | insert σ r src =>
    have hzero : capTtl c.maxTtl r.ttl = 0 ↔ r.ttl = 0 := capTtl_eq_zero hcap
    simp only [Cache.step, entryEffect]
    by_cases hk : k == RecordKey.of r
    · rw [if_pos hk]
      by_cases hz : r.ttl = 0
      · rw [if_pos hz, insertFrom_find?_goodbye (hzero.2 hz), if_pos hk]
      · rw [if_neg hz, insertFrom_find?_self (fun h => hz (hzero.1 h)) hk,
          KeyedMap.find?_congr _ hk]
        rfl
    · rw [if_neg hk, insertFrom_find?_ne hcap (hroom r rfl) hk]
  | sweep => exact evictExpired_find? c t k

/-- **An entry is the result of the effects of the history on its key**, as long as the records
fit. -/
theorem find?_run_effect {n : ℕ} {cap : Option UInt64} (hcap : CapOk cap) {h : List CacheEvent}
    (hkeys : (insertedKeys h).card ≤ max n 1) (k : RecordKey) :
    ((Cache.withCapacityAndMaxTtl n cap).run h).byKey.find? k =
      h.foldl (entryEffect cap k) none := by
  induction h using List.reverseRecOn with
  | nil => rfl
  | append_singleton h ev ih =>
    have hle := Finset.card_le_card (insertedKeys_subset h ev)
    have hmax : ((Cache.withCapacityAndMaxTtl n cap).run h).maxTtl = cap := run_maxTtl _ h
    rw [run_append_singleton, List.foldl_append,
      step_find?_effect (by rw [hmax]; exact hcap) (fun r hr => room_of_card h ev hkeys hr) k, hmax,
      ih (hle.trans hkeys)]
    rfl

/-- One effect, seen from the register of `k`. -/
theorem entryEffect_face (cap : Option UInt64) (k : RecordKey) {ev : CacheEvent}
    {old : Option Entry} {v : Option (Record × ℕ)} {T : ℕ} (hT : ev.time ≤ T)
    (hv : (old.map Entry.face).filter (fun w => decide (T < w.2)) =
      (v.map (storedAs cap)).filter (fun w => decide (T < w.2))) :
    ((entryEffect cap k old ev).map Entry.face).filter (fun w => decide (T < w.2)) =
      (((effectOn k ev).apply v).map (storedAs cap)).filter (fun w => decide (T < w.2)) := by
  obtain ⟨t, op⟩ := ev
  cases op with
  | insert σ r src =>
    simp only [entryEffect, effectOn]
    split_ifs
    · rfl
    · rfl
    · rfl
    · exact hv
  | sweep =>
    -- what the sweep removes has a deadline before `T` anyway
    simp only [entryEffect, effectOn, Effect.apply]
    rw [← hv]
    cases old with
    | none => rfl
    | some e =>
      by_cases hlive : t < e.deadline
      · simp [Option.filter, hlive]
      · have hdead : ¬ T < e.deadline := by
          dsimp only at hT
          omega
        simp [Option.filter, hlive, hdead, Entry.face]

/-- **The cache is a register per key**: at any later instant the live bindings of a run are the
registers whose deadline has not passed. -/
theorem live_run {n : ℕ} {cap : Option UInt64} (hcap : CapOk cap) {h : List CacheEvent}
    (hkeys : (insertedKeys h).card ≤ max n 1) {T : ℕ} (hT : ∀ ev ∈ h, ev.time ≤ T)
    (k : RecordKey) :
    ((((Cache.withCapacityAndMaxTtl n cap).run h).byKey.find? k).map Entry.face).filter
        (fun w => decide (T < w.2)) =
      ((Effect.contents (effectOn k) h).map (storedAs cap)).filter (fun w => decide (T < w.2)) := by
  rw [find?_run_effect hcap hkeys]
  refine List.foldl_rel (r := fun (old : Option Entry) (v : Option (Record × ℕ)) =>
    (old.map Entry.face).filter (fun w => decide (T < w.2)) =
      (v.map (storedAs cap)).filter (fun w => decide (T < w.2))) rfl ?_
  exact fun ev hev old v hv => entryEffect_face cap k (hT ev hev) hv

/-! ### The answers of a run -/

/-- The remaining time of a standing insertion fits in a TTL. -/
theorem ceilSecs_le {cap : Option UInt64} {r : Record} {t₀ T : ℕ} (ht : t₀ ≤ T) :
    ceilSecs (t₀ + fromSecs (cappedSecs cap r.ttl) - T) ≤ 2 ^ 32 - 1 := by
  have httl : cappedSecs cap r.ttl ≤ 2 ^ 32 - 1 := by
    have := r.ttl.toNat_lt
    unfold cappedSecs
    split <;> omega
  unfold ceilSecs fromSecs
  omega

/-- The served record of a stored insertion. -/
theorem recordWithRemainingTtl_stored {cap : Option UInt64} (hcap : CapOk cap) {e : Entry}
    {r s : Record} {t₀ T : ℕ} (he : e.face = storedAs cap (r, t₀)) (ht : t₀ ≤ T) :
    recordWithRemainingTtl e T = some s ↔
      T < t₀ + fromSecs (cappedSecs cap r.ttl) ∧ s = { r with ttl := s.ttl } ∧
        s.ttl.toNat = ceilSecs (t₀ + fromSecs (cappedSecs cap r.ttl) - T) := by
  have hrec : e.record = { r with ttl := capTtl cap r.ttl } := congrArg Prod.fst he
  have hdl : e.deadline = t₀ + fromSecs (cappedSecs cap r.ttl) := by
    rw [← capTtl_toNat hcap]
    exact congrArg Prod.snd he
  have hle : ceilSecs (t₀ + fromSecs (cappedSecs cap r.ttl) - T) ≤ 2 ^ 32 - 1 := ceilSecs_le ht
  rw [recordWithRemainingTtl_eq_some, hdl, hrec]
  refine and_congr_right fun _ => ?_
  generalize hd : ceilSecs (t₀ + fromSecs (cappedSecs cap r.ttl) - T) = d at hle
  have hd' : (t₀ + fromSecs (cappedSecs cap r.ttl) - T + (fromSecs 1 - 1)) / fromSecs 1 = d := hd
  rw [hd', Nat.min_eq_left hle]
  have hof : (UInt32.ofNat d).toNat = d := UInt32.toNat_ofNat_of_lt' (by
    show d < 2 ^ 32
    omega)
  constructor
  · rintro rfl
    exact ⟨rfl, hof⟩
  · rintro ⟨hs, hn⟩
    rw [hs]
    congr 1
    rw [← UInt32.toNat_inj, hn, hof]

/-- The bindings of a run that are live at `T` are its standing insertions. -/
theorem find?_run_iff_standing {n : ℕ} {cap : Option UInt64} (hcap : CapOk cap)
    {h : List CacheEvent} (hkeys : (insertedKeys h).card ≤ max n 1) {T : ℕ}
    (hT : ∀ ev ∈ h, ev.time ≤ T) {s : Record} (P : Record → Prop)
    (hP : ∀ r t, P { r with ttl := t } ↔ P r) :
    (∃ k e, ((Cache.withCapacityAndMaxTtl n cap).run h).byKey.find? k = some e ∧ P e.record ∧
        recordWithRemainingTtl e T = some s) ↔
      ∃ r t₀, Standing h r t₀ ∧ P r ∧ T < t₀ + fromSecs (cappedSecs cap r.ttl) ∧
        s = { r with ttl := s.ttl } ∧
        s.ttl.toNat = ceilSecs (t₀ + fromSecs (cappedSecs cap r.ttl) - T) := by
  have htime : ∀ r t₀, Standing h r t₀ → t₀ ≤ T := by
    rintro r t₀ ⟨pre, σ, src, post, rfl, -, -⟩
    exact hT ⟨t₀, .insert σ r src⟩ (by simp)
  constructor
  · rintro ⟨k, e, hfind, hp, hs⟩
    have hlive := live_run hcap hkeys hT k
    have hdl : T < e.face.2 := (recordWithRemainingTtl_eq_some.1 hs).1
    rw [hfind, Option.map_some, Option.filter_some, if_pos (decide_eq_true hdl), eq_comm,
      Option.filter_eq_some_iff, Option.map_eq_some_iff] at hlive
    obtain ⟨⟨⟨r, t₀⟩, hc, hface⟩, -⟩ := hlive
    obtain ⟨-, hst⟩ := contents_effectOn_iff.1 hc
    have hrec : e.record = { r with ttl := capTtl cap r.ttl } := congrArg Prod.fst hface.symm
    rw [hrec, hP] at hp
    rw [recordWithRemainingTtl_stored hcap hface.symm (htime r t₀ hst)] at hs
    exact ⟨r, t₀, hst, hp, hs⟩
  · rintro ⟨r, t₀, hst, hp, hs⟩
    have hc : Effect.contents (effectOn (RecordKey.of r)) h = some (r, t₀) :=
      contents_effectOn_iff.2 ⟨BEq.rfl, hst⟩
    have hlive := live_run (n := n) hcap hkeys hT (RecordKey.of r)
    have hdl : T < (storedAs cap (r, t₀)).2 := by
      show T < t₀ + fromSecs (capTtl cap r.ttl).toNat
      rw [capTtl_toNat hcap]
      exact hs.1
    rw [hc, Option.map_some, Option.filter_some, if_pos (decide_eq_true hdl),
      Option.filter_eq_some_iff, Option.map_eq_some_iff] at hlive
    obtain ⟨⟨e, hfind, hface⟩, -⟩ := hlive
    have hrec : e.record = { r with ttl := capTtl cap r.ttl } := congrArg Prod.fst hface
    refine ⟨_, e, hfind, by rw [hrec, hP]; exact hp, ?_⟩
    rw [recordWithRemainingTtl_stored hcap hface (htime r t₀ hst)]
    exact hs

/-- The description of an answer: a standing insertion that has not run out, with the remaining
time in whole seconds as its TTL. -/
def ServedFrom (cap : Option UInt64) (h : List CacheEvent) (T : ℕ) (r s : Record) : Prop :=
  ∃ t₀, Standing h r t₀ ∧ T < t₀ + fromSecs (cappedSecs cap r.ttl) ∧ s = { r with ttl := s.ttl } ∧
    s.ttl.toNat = ceilSecs (t₀ + fromSecs (cappedSecs cap r.ttl) - T)

/-- **The cache answers from its history.**  For a run whose keys fit, at any instant `T` not
before its events, `lookup` returns one record for each standing insertion of a matching key that
has not run out, and `snapshot` does so for all keys. -/
theorem lookup_eq_history {n : ℕ} {cap : Option UInt64} (hcap : CapOk cap) {h : List CacheEvent}
    (hkeys : (insertedKeys h).card ≤ max n 1) {T : ℕ} (hT : ∀ ev ∈ h, ev.time ≤ T)
    (σ : CacheOrder) (name : Name) (rtype : RecordType) :
    let c := (Cache.withCapacityAndMaxTtl n cap).run h
    ((c.lookup σ T name rtype).Pairwise (fun r s => (RecordKey.of r == RecordKey.of s) = false) ∧
      ∀ s, s ∈ c.lookup σ T name rtype ↔
        ∃ r, ServedFrom cap h T r s ∧ recordMatches r name rtype) ∧
    ((c.snapshot σ T).Pairwise (fun r s => (RecordKey.of r == RecordKey.of s) = false) ∧
      ∀ s, s ∈ c.snapshot σ T ↔ ∃ r, ServedFrom cap h T r s) := by
  intro c
  refine ⟨⟨lookupInner_distinct c σ T name rtype _, fun s => ?_⟩,
    snapshot_distinct c σ T, fun s => ?_⟩
  · have hiff := find?_run_iff_standing (n := n) (s := s) hcap hkeys hT
      (fun r => recordMatches r name rtype = true) fun r t => Iff.rfl
    unfold Cache.lookup
    simp only [mem_lookupInner, true_and]
    rw [hiff]
    constructor
    · rintro ⟨r, t₀, hst, hm, hs⟩
      exact ⟨r, ⟨t₀, hst, hs⟩, hm⟩
    · rintro ⟨r, ⟨t₀, hst, hs⟩, hm⟩
      exact ⟨r, t₀, hst, hm, hs⟩
  · have hiff := find?_run_iff_standing (n := n) (s := s) hcap hkeys hT (fun _ => True)
      fun r t => Iff.rfl
    simp only [true_and] at hiff
    rw [mem_snapshot, hiff]
    rfl

/-- The address of a printer, as it announces it. -/
def printerAddress : Record :=
  ⟨⟨[[112], [108, 111, 99, 97, 108]], true⟩, .in, 120, .a 0xC0A81432, true⟩

/-- The printer is heard at 0 s and the cache is swept at 5 s. -/
def printerHistory : List CacheEvent :=
  [⟨0, .insert (IterOrder.id _ _) printerAddress (some 3)⟩, ⟨fromSecs 5, .sweep⟩]

/-- At 10 s the printer is served with 110 s to live. -/
theorem lookup_eq_history_printer :
    { printerAddress with ttl := 110 } ∈
      ((Cache.withCapacityAndMaxTtl 4096 (some 300)).run printerHistory).lookup (IterOrder.id _ _)
        (fromSecs 10) printerAddress.name .any :=
  ((lookup_eq_history (by intro cap hc; cases hc; decide) (by decide)
    (fun ev hev => by
      rcases List.mem_cons.1 hev with rfl | hev
      · decide
      · rw [List.mem_singleton.1 hev]
        decide) _ _ _).1.2 _).2
    ⟨printerAddress, ⟨0, ⟨[], _, _, [_], rfl, by decide, by simp [Supersedes]⟩, by decide, rfl,
      by decide⟩, by decide⟩

end Nmdns
