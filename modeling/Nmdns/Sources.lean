import Nmdns.History

/-!
# Where cached records were heard

An entry remembers one source interface, and each refresh with a known source overwrites it.

* `find?_run_standing`, `find?_run_source`: an entry stems from the standing insertion of its key,
  and its source from some insertion of that key;
* `InForce h i k T`: an insertion of `k` from interface `i` has not run out at `T`, and no goodbye
  or cache-flush has cancelled it;
* `SourcesAgree`: a record is never ingested from one interface while an insertion of it from
  another one is in force;
* `relayed_not_inForce_iff`: exactly then, no record is relayed to an interface on which it is in
  force.
-/

namespace Nmdns

/-- The binding of a key after one call: stored by it, or there before and neither inserted nor
flushed by it. -/
theorem step_find?_eq_some {c : Cache} (hcap : CapOk c.maxTtl) {ev : CacheEvent} {k : RecordKey}
    {e : Entry} (he : (c.step ev).byKey.find? k = some e) :
    (∃ σ r src, ev.op = .insert σ r src ∧ k == RecordKey.of r ∧ 0 < r.ttl ∧
      e = c.entryOf ev.time r
        (src.or ((c.byKey.find? (RecordKey.of r)).bind Entry.sourceIfindex))) ∨
    (c.byKey.find? k = some e ∧ ∀ σ r src, ev.op = .insert σ r src →
      ¬ k == RecordKey.of r ∧ r.flushes k = false) := by
  obtain ⟨t, op⟩ := ev
  cases op with
  | insert σ r src =>
    rcases insertFrom_find?_cases hcap he with ⟨hk, hz, heq⟩ | ⟨hk, hold, hflush⟩
    · exact Or.inl ⟨σ, r, src, rfl, hk, UInt32.pos_iff_ne_zero.2 hz, heq⟩
    · refine Or.inr ⟨hold, ?_⟩
      intro σ' r' src' hop
      cases hop
      exact ⟨hk, hflush⟩
  | sweep =>
    have he' : (c.evictExpired t).1.byKey.find? k = some e := he
    rw [evictExpired_find?, Option.filter_eq_some_iff] at he'
    refine Or.inr ⟨he'.1, ?_⟩
    intro σ' r' src' hop
    cases hop

section Origin

variable {n : ℕ} {cap : Option UInt64} {h : List CacheEvent} {k : RecordKey} {e : Entry}

theorem Standing.append_singleton {r : Record} {t : ℕ} {ev : CacheEvent} (hs : Standing h r t)
    (hev : ¬ Supersedes ev r) : Standing (h ++ [ev]) r t := by
  obtain ⟨pre, σ, src, post, rfl, hpos, hpost⟩ := hs
  refine ⟨pre, σ, src, post ++ [ev], by simp, hpos, ?_⟩
  exact List.forall_mem_append.2 ⟨hpost, List.forall_mem_singleton.2 hev⟩

/-- **An entry stems from the standing insertion of its key**, whatever was evicted. -/
theorem find?_run_standing (hcap : CapOk cap)
    (he : ((Cache.withCapacityAndMaxTtl n cap).run h).byKey.find? k = some e) :
    ∃ r t, k == RecordKey.of r ∧ Standing h r t ∧ e.face = storedAs cap (r, t) := by
  induction h using List.reverseRecOn generalizing e with
  | nil => cases he
  | append_singleton h ev ih =>
    have hmax : ((Cache.withCapacityAndMaxTtl n cap).run h).maxTtl = cap := run_maxTtl _ h
    rw [run_append_singleton] at he
    rcases step_find?_eq_some (by rw [hmax]; exact hcap) he with
      ⟨σ, r, src, hop, hk, hpos, rfl⟩ | ⟨hold, hother⟩
    · refine ⟨r, ev.time, hk, ⟨h, σ, src, [], ?_, hpos, by simp⟩, ?_⟩
      · rw [← hop]
      · rw [entryOf_face, hmax]
    · obtain ⟨r, t, hk, hst, hface⟩ := ih hold
      refine ⟨r, t, hk, hst.append_singleton ?_, hface⟩
      -- an event that superseded `r` would have touched the binding of `k`
      unfold Supersedes
      split
      · rename_i σ' r' src' hop
        obtain ⟨hne, hflush⟩ := hother σ' r' src' hop
        rw [← r'.flushes_congr hk, hflush]
        rintro (hr | hf)
        · exact hne (BEq.trans hk (BEq.symm hr))
        · cases hf
      · exact id

/-- The source of an entry is the source of an insertion of its key. -/
theorem find?_run_source (hcap : CapOk cap)
    (he : ((Cache.withCapacityAndMaxTtl n cap).run h).byKey.find? k = some e) {j : UInt32}
    (hj : e.sourceIfindex = some j) :
    ∃ t σ r, (⟨t, .insert σ r (some j)⟩ : CacheEvent) ∈ h ∧ k == RecordKey.of r := by
  induction h using List.reverseRecOn generalizing k e with
  | nil => cases he
  | append_singleton h ev ih =>
    have hmax : ((Cache.withCapacityAndMaxTtl n cap).run h).maxTtl = cap := run_maxTtl _ h
    have hearlier : ∀ {k' : RecordKey} {e' : Entry}, k == k' →
        ((Cache.withCapacityAndMaxTtl n cap).run h).byKey.find? k' = some e' →
        e'.sourceIfindex = some j →
        ∃ t σ r, (⟨t, .insert σ r (some j)⟩ : CacheEvent) ∈ h ++ [ev] ∧ k == RecordKey.of r := by
      intro k' e' hkk' he' hj'
      obtain ⟨t, σ, r, hmem, hk'⟩ := ih he' hj'
      exact ⟨t, σ, r, List.mem_append_left _ hmem, BEq.trans hkk' hk'⟩
    rw [run_append_singleton] at he
    rcases step_find?_eq_some (by rw [hmax]; exact hcap) he with
      ⟨σ, r, src, hop, hk, -, rfl⟩ | ⟨hold, -⟩
    · have hsrc : src.or ((((Cache.withCapacityAndMaxTtl n cap).run h).byKey.find?
          (RecordKey.of r)).bind Entry.sourceIfindex) = some j := hj
      rw [Option.or_eq_some_iff] at hsrc
      rcases hsrc with rfl | ⟨-, hbind⟩
      · refine ⟨ev.time, σ, r, List.mem_append_right _ (List.mem_singleton.2 ?_), hk⟩
        rw [← hop]
      · -- a refresh without a source keeps the old one
        obtain ⟨e', he', hj'⟩ := Option.bind_eq_some_iff.1 hbind
        exact hearlier hk he' hj'
    · exact hearlier BEq.rfl hold hj

end Origin

/-! ### Insertions in force -/

/-- The event cancels the insertions of `k`: a goodbye of it, or a cache-flush of a sibling. -/
def Cancels (ev : CacheEvent) (k : RecordKey) : Prop :=
  match ev.op with
  | .insert _ r _ => (k == RecordKey.of r ∧ r.ttl = 0) ∨ r.flushes k
  | .sweep => False

/-- An insertion of `k` from interface `i` whose TTL has not run out at `T`, and which no later
event cancels. -/
def InForce (cap : Option UInt64) (h : List CacheEvent) (i : UInt32) (k : RecordKey) (T : ℕ) :
    Prop :=
  ∃ pre t σ r post, h = pre ++ ⟨t, .insert σ r (some i)⟩ :: post ∧ k == RecordKey.of r ∧
    T < t + fromSecs (cappedSecs cap r.ttl) ∧ ∀ ev ∈ post, ¬ Cancels ev k

/-- Whenever a record is ingested from an interface, no insertion of it from another interface is in
force. -/
def SourcesAgree (cap : Option UInt64) (h : List CacheEvent) : Prop :=
  ∀ pre t σ r j post, h = pre ++ ⟨t, .insert σ r (some j)⟩ :: post → 0 < r.ttl →
    ∀ i, i ≠ j → ¬ InForce cap pre i (RecordKey.of r) t

section InForce

variable {cap : Option UInt64} {h : List CacheEvent} {i : UInt32} {k : RecordKey} {T : ℕ}

theorem InForce.congr {k' : RecordKey} (hk : k == k') (hf : InForce cap h i k T) :
    InForce cap h i k' T := by
  obtain ⟨pre, t, σ, r, post, rfl, hr, hT, hpost⟩ := hf
  refine ⟨pre, t, σ, r, post, rfl, BEq.trans (BEq.symm hk) hr, hT, ?_⟩
  intro ev hev hc
  refine hpost ev hev ?_
  unfold Cancels at hc ⊢
  split at hc
  · rename_i σ' r' src' hop
    rw [r'.flushes_congr hk]
    exact hc.imp_left fun hg => ⟨BEq.trans hk hg.1, hg.2⟩
  · exact hc

theorem InForce.earlier {t : ℕ} (ht : t ≤ T) (hf : InForce cap h i k T) : InForce cap h i k t := by
  obtain ⟨pre, t', σ, r, post, rfl, hr, hT, hpost⟩ := hf
  exact ⟨pre, t', σ, r, post, rfl, hr, by omega, hpost⟩

theorem InForce.append_singleton {ev : CacheEvent} (hf : InForce cap h i k T)
    (hev : ¬ Cancels ev k) : InForce cap (h ++ [ev]) i k T := by
  obtain ⟨pre, t, σ, r, post, rfl, hr, hT, hpost⟩ := hf
  refine ⟨pre, t, σ, r, post ++ [ev], by simp, hr, hT, ?_⟩
  exact List.forall_mem_append.2 ⟨hpost, List.forall_mem_singleton.2 hev⟩

/-- An insertion in force after one more event was in force before, or is that event. -/
theorem inForce_append_singleton {ev : CacheEvent} (hf : InForce cap (h ++ [ev]) i k T) :
    InForce cap h i k T ∨ ∃ σ r, ev.op = .insert σ r (some i) ∧ k == RecordKey.of r := by
  obtain ⟨pre, t, σ, r, post, heq, hr, hT, hpost⟩ := hf
  rcases Effect.split_append_singleton heq with ⟨-, -, rfl⟩ | ⟨post', rfl, rfl⟩
  · exact Or.inr ⟨σ, r, rfl, hr⟩
  · refine Or.inl ⟨pre, t, σ, r, post', rfl, hr, hT, ?_⟩
    intro ev' hev'
    exact hpost ev' (List.mem_append_left _ hev')

theorem SourcesAgree.of_append {h' : List CacheEvent} (hs : SourcesAgree cap (h ++ h')) :
    SourcesAgree cap h := by
  intro pre t σ r j post heq
  refine hs pre t σ r j (post ++ h') ?_
  rw [heq]
  simp

/-- **The invariant of agreeing sources**: an entry with a source is in force on no other
interface. -/
theorem not_inForce_of_source {n : ℕ} (hcap : CapOk cap) (hs : SourcesAgree cap h)
    (hT : ∀ ev ∈ h, ev.time ≤ T) {e : Entry}
    (he : ((Cache.withCapacityAndMaxTtl n cap).run h).byKey.find? k = some e) {j : UInt32}
    (hj : e.sourceIfindex = some j) (hij : i ≠ j) : ¬ InForce cap h i k T := by
  induction h using List.reverseRecOn generalizing k e with
  | nil => cases he
  | append_singleton h ev ih =>
    have hmax : ((Cache.withCapacityAndMaxTtl n cap).run h).maxTtl = cap := run_maxTtl _ h
    have hT' : ∀ ev' ∈ h, ev'.time ≤ T := fun ev' hev' => hT ev' (List.mem_append_left _ hev')
    have hevT : ev.time ≤ T := hT ev (by simp)
    intro hf
    rw [run_append_singleton] at he
    rcases step_find?_eq_some (by rw [hmax]; exact hcap) he with
      ⟨σ, r, src, hop, hk, hpos, rfl⟩ | ⟨hold, hother⟩
    · have hsrc : src.or ((((Cache.withCapacityAndMaxTtl n cap).run h).byKey.find?
          (RecordKey.of r)).bind Entry.sourceIfindex) = some j := hj
      rw [Option.or_eq_some_iff] at hsrc
      rcases hsrc with rfl | ⟨rfl, hbind⟩
      · -- the condition at this very insertion
        have hev : ev = ⟨ev.time, .insert σ r (some j)⟩ := by rw [← hop]
        rcases inForce_append_singleton hf with hf | ⟨σ', r', hop', -⟩
        · exact hs h ev.time σ r j [] (by rw [← hev]) hpos i hij
            ((hf.earlier hevT).congr hk)
        · rw [hop] at hop'
          cases hop'
          exact hij rfl
      · -- a refresh without a source inherits it, and adds no insertion from `i`
        obtain ⟨e', he', hj'⟩ := Option.bind_eq_some_iff.1 hbind
        rcases inForce_append_singleton hf with hf | ⟨σ', r', hop', -⟩
        · exact ih hs.of_append hT' he' hj' (hf.congr hk)
        · rw [hop] at hop'
          cases hop'
    · rcases inForce_append_singleton hf with hf | ⟨σ', r', hop', hk'⟩
      · exact ih hs.of_append hT' hold hj hf
      · exact (hother σ' r' (some i) hop').1 hk'

end InForce

/-- Right after its insertion from interface `j`, a record is relayed to every other interface. -/
theorem exists_relayed_of_insert {c : Cache} (hcap : CapOk c.maxTtl) {r : Record}
    (hpos : 0 < r.ttl) (t : ℕ) (σ τ : CacheOrder) {i j : UInt32} (hji : j ≠ i) :
    ∃ s ∈ (c.step ⟨t, .insert σ r (some j)⟩).lookupFromOtherIfaces τ t r.name r.recordType i,
      RecordKey.of s = RecordKey.of r := by
  have hstored : (c.step ⟨t, .insert σ r (some j)⟩).byKey.find? (RecordKey.of r) =
      some (c.entryOf t r (some j)) :=
    insertFrom_find?_self (capTtl_ne_zero hcap hpos) BEq.rfl
  obtain ⟨s, hs⟩ : ∃ s, recordWithRemainingTtl (c.entryOf t r (some j)) t = some s :=
    ⟨_, recordWithRemainingTtl_eq_some.2 ⟨lt_deadline_entryOf (capTtl_ne_zero hcap hpos) t _, rfl⟩⟩
  have hmatch : recordMatches r r.name r.recordType = true := by simp [recordMatches]
  refine ⟨{ s with mdnsCacheFlush := false }, ?_, ?_⟩
  · rw [mem_lookupFromOtherIfaces]
    exact ⟨_, _, s, hstored, hmatch, ⟨j, rfl, hji⟩, hs, rfl⟩
  · rw [RecordKey.of_mdnsCacheFlush, recordWithRemainingTtl_key hs]
    rfl

/-- **Relayed records and the interfaces they were heard on.**  Along a run, no record is ever
relayed to an interface on which an insertion of it is in force, exactly when the sources agree. -/
theorem relayed_not_inForce_iff (n : ℕ) {cap : Option UInt64} (hcap : CapOk cap)
    {h : List CacheEvent} (htime : h.Pairwise fun a b => a.time ≤ b.time) :
    (∀ pre, pre <+: h → ∀ T, (∀ ev ∈ pre, ev.time ≤ T) → ∀ σ name rtype i,
      ∀ s ∈ ((Cache.withCapacityAndMaxTtl n cap).run pre).lookupFromOtherIfaces σ T name rtype i,
        ¬ InForce cap pre i (RecordKey.of s) T) ↔ SourcesAgree cap h := by
  constructor
  · intro hall pre t σ r j post heq hpos i hij hf
    let ev : CacheEvent := ⟨t, .insert σ r (some j)⟩
    have hmax : ((Cache.withCapacityAndMaxTtl n cap).run pre).maxTtl = cap := run_maxTtl _ pre
    have hbefore : ∀ ev' ∈ pre ++ [ev], ev'.time ≤ t := by
      rw [heq, List.pairwise_append] at htime
      intro ev' hev'
      rcases List.mem_append.1 hev' with hev' | hev'
      · exact htime.2.2 ev' hev' ev List.mem_cons_self
      · rw [List.mem_singleton.1 hev']
    obtain ⟨s, hs, hkey⟩ := exists_relayed_of_insert (by rw [hmax]; exact hcap) hpos t σ
      (IterOrder.id _ _) (Ne.symm hij)
    rw [← run_append_singleton] at hs
    refine hall (pre ++ [ev]) ⟨post, by rw [heq]; simp [ev]⟩ t hbefore _ _ _ i s hs ?_
    rw [hkey]
    refine hf.append_singleton ?_
    -- the insertion itself cancels nothing of its own key
    rintro (⟨-, hzero⟩ | hflush)
    · rw [hzero] at hpos
      exact absurd hpos (by decide)
    · rw [r.flushes_of_beq BEq.rfl] at hflush
      cases hflush
  · rintro hs pre ⟨post, rfl⟩ T hT σ name rtype i s hmem hf
    obtain ⟨k, e, s', hfind, -, ⟨j, hj, hji⟩, hs', rfl⟩ := mem_lookupFromOtherIfaces.1 hmem
    have hkey : RecordKey.of { s' with mdnsCacheFlush := false } == k := by
      rw [RecordKey.of_mdnsCacheFlush, recordWithRemainingTtl_key hs']
      exact ((Cache.withCapacityAndMaxTtl n cap).run pre).keyed k e hfind
    exact not_inForce_of_source hcap hs.of_append hT hfind hj (Ne.symm hji) (hf.congr hkey)

/-- The printer is heard on interface 2, and a second later on interface 3. -/
def heardTwice : List CacheEvent :=
  [⟨0, .insert (IterOrder.id _ _) printerAddress (some 2)⟩,
    ⟨fromSecs 1, .insert (IterOrder.id _ _) printerAddress (some 3)⟩]

/-- The printer is then relayed to interface 2, where it was heard a second ago. -/
theorem relayed_inForce :
    ∃ s ∈ ((Cache.withCapacityAndMaxTtl 4096 none).run heardTwice).lookupFromOtherIfaces
        (IterOrder.id _ _) (fromSecs 1) printerAddress.name .any 2,
      InForce none heardTwice 2 (RecordKey.of s) (fromSecs 1) := by
  refine ⟨{ printerAddress with mdnsCacheFlush := false }, ?_, [], 0, _, printerAddress, _, rfl, ?_,
    ?_, ?_⟩
  · have heq : ((Cache.withCapacityAndMaxTtl 4096 none).run heardTwice).lookupFromOtherIfaces
        (IterOrder.id _ _) (fromSecs 1) printerAddress.name .any 2 =
        [{ printerAddress with mdnsCacheFlush := false }] := by
      decide +kernel
    rw [heq]
    exact List.mem_cons_self
  · exact BEq.rfl
  · decide
  · intro ev hev
    rw [List.mem_singleton.1 hev]
    rintro (⟨-, h⟩ | h) <;> exact absurd h (by decide)

/-- The printer is heard on interface 2, and on interface 3 after its TTL of two minutes. -/
def heardInTurn : List CacheEvent :=
  [⟨0, .insert (IterOrder.id _ _) printerAddress (some 2)⟩,
    ⟨fromSecs 121, .insert (IterOrder.id _ _) printerAddress (some 3)⟩]

theorem sourcesAgree_heardInTurn : SourcesAgree none heardInTurn := by
  intro pre t σ r j post heq _ i _ hf
  obtain ⟨pre', t', σ', r', post', rfl, -, hlt, -⟩ := hf
  -- the earlier insertion is the first event, and the other one the second
  have hlen := congrArg List.length heq
  simp only [heardInTurn, List.length_cons, List.length_nil, List.length_append] at hlen
  obtain rfl : pre' = [] := List.length_eq_zero_iff.1 (by omega)
  obtain rfl : post' = [] := List.length_eq_zero_iff.1 (by omega)
  cases heq
  exact absurd hlt (by decide)

theorem relayed_not_inForce_printer :
    ((Cache.withCapacityAndMaxTtl 4096 none).run heardInTurn).lookupFromOtherIfaces
        (IterOrder.id _ _) (fromSecs 122) printerAddress.name .any 2 =
        [{ printerAddress with ttl := 119, mdnsCacheFlush := false }] ∧
      ¬ InForce none heardInTurn 2 (RecordKey.of printerAddress) (fromSecs 122) := by
  have heq : ((Cache.withCapacityAndMaxTtl 4096 none).run heardInTurn).lookupFromOtherIfaces
      (IterOrder.id _ _) (fromSecs 122) printerAddress.name .any 2 =
      [{ printerAddress with ttl := 119, mdnsCacheFlush := false }] := by
    decide +kernel
  refine ⟨heq, ?_⟩
  exact (relayed_not_inForce_iff 4096 capOk_none (by decide)).2 sourcesAgree_heardInTurn
    heardInTurn (List.prefix_refl _) (fromSecs 122) (by decide) (IterOrder.id _ _)
    printerAddress.name .any 2 { printerAddress with ttl := 119, mdnsCacheFlush := false }
    (by rw [heq]; exact List.mem_cons_self)

end Nmdns
