import Nmdns.Questions

/-!
# Responses without delay

Two kinds of responses are sent at once: the defense of a record that another host probes for, and
the answer to a single question by records that only this host can hold.

* `Message.ProbesFor`: the authority section claims a unique record of the interface;
* `probe_defended`: a probe for a unique record is answered with that record, at once;
* `zero_delay_owned`: in any other case a response without delay answers one question and carries
  unique records of the interface only, nothing shared and nothing relayed.
-/

namespace Nmdns

/-- The message claims the name and type of a unique record of `i`. -/
def Message.ProbesFor (msg : Message) (p : Published) (i : Iface) : Prop :=
  ∃ a ∈ msg.authorities, ∃ u ∈ p.uniqueForIface i, u.name == a.name ∧ u.recordType = a.recordType

section Probe

variable {st : State} {σ : CacheOrder} {now : ℕ} {msg : Message} {i : Iface} {family : IpFamily}
  {p : Published} {pd : Pending}

theorem isProbeForUs_iff : isProbeForUs msg (p.uniqueForIface i) = true ↔ msg.ProbesFor p i := by
  unfold isProbeForUs Message.ProbesFor
  split_ifs with hempty
  · rw [List.isEmpty_iff.1 hempty]
    simp
  · simp only [List.any_eq_true, Bool.and_eq_true, beq_iff_eq]

/-- The class of a response without delay. -/
theorem responseDelay_eq_zero_iff (cls : DelayClass) (rand : ℕ) :
    responseDelay cls rand = 0 ↔ cls = .probeDefense ∨ cls = .uniqueAnswer := by
  cases cls <;> simp [responseDelay, fromMillis]

/-- Apart from probes, only a single question that is answered by unique records alone has no
delay. -/
theorem classifyDelay_eq_uniqueAnswer {answers : List Record}
    (h : classifyDelay msg answers false = .uniqueAnswer) :
    msg.queries.length = 1 ∧ msg.truncation = false ∧
      ∀ r ∈ answers, r.mdnsCacheFlush = true := by
  unfold classifyDelay answerUniqueness at h
  simp only [Bool.false_eq_true, if_false] at h
  split_ifs at h with htc hone
  simp only [Bool.and_eq_true, beq_iff_eq, List.all_eq_true] at hone
  exact ⟨hone.1.1, Bool.not_eq_true _ ▸ htc, hone.1.2⟩

theorem classifyDelay_false_ne_probeDefense (answers : List Record) :
    classifyDelay msg answers false ≠ .probeDefense := by
  unfold classifyDelay
  simp only [Bool.false_eq_true, if_false]
  split_ifs <;> exact DelayClass.noConfusion

/-- A query with an answer left after suppression is prepared for a response. -/
theorem exists_prepareResponse (hquery : msg.messageType = .query) {r : Record}
    (hr : r ∈ applyKnownAnswers (candidateAnswers st σ now msg i p) msg) :
    ∃ pd, prepareResponse st σ now msg i family p = some pd := by
  cases hprep : prepareResponse st σ now msg i family p with
  | some pd => exact ⟨pd, rfl⟩
  | none =>
    rcases prepareResponse_eq_none hprep with htype | hnil
    · exact absurd hquery htype
    · rw [hnil] at hr
      cases hr

/-- An answer that the rate limiter allows goes out if the wire delivers. -/
theorem Pending.exists_respond {t : MulticastTracker} {wake : ℕ} {wire : Wire}
    (hd : pd.answers.Pairwise fun r s => (RecordKey.of r == RecordKey.of s) = false)
    {r : Record} (hr : r ∈ pd.answers)
    (hallow : t.allows wake pd.arrival.ifindex r pd.minInterval = true)
    (hwire : wire.delivers pd.arrival pd.family = true) :
    ∃ resp, (pd.respond t wake wire).2 = some resp ∧ r ∈ resp.answers := by
  set kept := (t.retainMarked wake pd.arrival.ifindex pd.minInterval pd.answers).2 with hkept
  have hmem : r ∈ kept := by
    rw [hkept, MulticastTracker.retainMarked_eq_filter t hd]
    exact List.mem_filter.2 ⟨hr, hallow⟩
  have hresp := congrArg Prod.snd (respond_of_kept (List.ne_nil_of_mem hmem) wire)
  exact ⟨_, hresp.trans (if_pos hwire), hmem⟩

end Probe

/-! ### Defense -/

/-- An own record that is asked for and not listed as known is left after suppression, up to its
key. -/
theorem exists_kept_of_asked {st : State} {σ : CacheOrder} {now : ℕ} {msg : Message} {i : Iface}
    {p : Published} (hw : p.WellFormed) {u : Record} (hown : p.Own i u) {q : Question}
    (hq : q ∈ msg.queries) (hasks : q.Asks u)
    (hknown : ∀ known ∈ msg.answers,
      ¬ (known.name == u.name ∧ known.recordType = u.recordType ∧ known.data == u.data)) :
    ∃ s ∈ applyKnownAnswers (candidateAnswers st σ now msg i p) msg,
      RecordKey.of s == RecordKey.of u ∧ s.ttl = u.ttl ∧ s.mdnsCacheFlush = u.mdnsCacheFlush := by
  obtain ⟨s, hs, hsu⟩ := exists_answer_of_asks (σ := σ) hw (Or.inl hown) hq hasks
  obtain ⟨-, httl, hflush⟩ := own_of_key hw hs hown (BEq.symm hsu)
  obtain ⟨hname, htype, -, hdata⟩ := RecordKey.of_beq_iff.1 hsu
  refine ⟨s, mem_applyKnownAnswers.2 ⟨hs, fun known hmem => ?_⟩, hsu, httl, hflush⟩
  rw [← Bool.not_eq_true, suppresses_eq_true]
  rintro ⟨hn, ht, hd, -⟩
  exact hknown known hmem ⟨BEq.trans hn hname, ht.trans htype, BEq.trans hd hdata⟩

/-- **Probe defense is complete and immediate.**  Let `u` be a unique record of the arrival
interface.  A query that claims its name and type and asks for it, without listing it as a known
answer, is answered with `u` and without delay, provided that `u` was not sent within the last
250 ms and the wire delivers. -/
theorem probe_defended {p : Published} {ifaces : List Iface} (hb : p.BuiltFor ifaces) (st : State)
    (σ : CacheOrder) (now wake : ℕ) {msg : Message} {i : Iface} {family : IpFamily} {wire : Wire}
    (hquery : msg.messageType = .query) {u : Record} (hu : u ∈ p.uniqueForIface i)
    (hauth : ∃ a ∈ msg.authorities, u.name == a.name ∧ u.recordType = a.recordType)
    (hask : ∃ q ∈ msg.queries, q.name == u.name ∧
      (q.queryType = .any ∨ q.queryType = u.recordType))
    (hknown : ∀ known ∈ msg.answers,
      ¬ (known.name == u.name ∧ known.recordType = u.recordType ∧ known.data == u.data))
    (hidle : ∀ s, st.mcTracker.stamp? i.ifindex (RecordKey.of u) = some s →
      fromMillis 250 ≤ wake - s)
    (hwire : wire.delivers i family = true) :
    (∃ pd, prepareResponse st σ now msg i family p = some pd ∧
      ∀ rand, responseDelay pd.cls rand = 0) ∧
    ∃ resp, (handleQuery st σ now wake msg i family p wire).2 = some resp ∧
      ∃ s ∈ resp.answers, s == u ∧ s.ttl = u.ttl ∧ s.mdnsCacheFlush = u.mdnsCacheFlush := by
  have hw := hb.wellFormed
  have hown : p.Own i u := (own_iff hw).2 (Published.mem_recordsFor.2 (Or.inl hu))
  obtain ⟨q, hq, hasks⟩ := hask
  obtain ⟨s, hkept, hsu, httl, hflush⟩ :
      ∃ s ∈ applyKnownAnswers (candidateAnswers st σ now msg i p) msg,
        RecordKey.of s == RecordKey.of u ∧ s.ttl = u.ttl ∧ s.mdnsCacheFlush = u.mdnsCacheFlush :=
    exists_kept_of_asked hw hown hq hasks hknown
  obtain ⟨pd, hprep⟩ : ∃ pd, prepareResponse st σ now msg i family p = some pd :=
    exists_prepareResponse hquery hkept
  obtain ⟨-, hans, -, harr, hfam, hprobe, hcls⟩ := prepareResponse_eq_some hprep
  have hdef : pd.probeDefense = true := by
    obtain ⟨a, ha, hn, ht⟩ := hauth
    rw [hprobe]
    exact isProbeForUs_iff.2 ⟨a, ha, u, hu, hn, ht⟩
  refine ⟨⟨pd, hprep, fun rand => ?_⟩, ?_⟩
  · rw [hcls, hdef]
    rfl
  · -- the rate limiter allows it, for its stamp is that of `u`
    have hallow : st.mcTracker.allows wake pd.arrival.ifindex s pd.minInterval = true := by
      rw [MulticastTracker.allows_iff, harr, Pending.minInterval, hdef, if_pos rfl,
        st.mcTracker.stamp?_congr i.ifindex hsu]
      exact hidle
    obtain ⟨resp, hresp, hmem⟩ := pd.exists_respond (answers_distinct hprep) (hans ▸ hkept) hallow
      (by rw [harr, hfam]; exact hwire)
    refine ⟨resp, ?_, s, hmem, by rw [Record.beq_eq]; exact hsu, httl, hflush⟩
    unfold handleQuery
    rw [hprep]
    exact hresp

/-- Another host claims the name of the router for an address of its own. -/
def routerProbe : Message :=
  ⟨7, .query, false, [⟨routerName, .any, .in⟩], [],
    [Record.fromRdata routerName ttlHost (.a 0xC0A80163)], []⟩

/-- The router defends its address. -/
theorem probe_defended_router :
    ∃ resp, (handleQuery routerState (IterOrder.id _ _) 0 0 routerProbe routerIface .v4 webPublished
        wireOk).2 = some resp ∧
      ∃ s ∈ resp.answers, s == uniqueRecord routerName ttlHost (.a 0xC0A80101) := by
  have hu : uniqueRecord routerName ttlHost (.a 0xC0A80101) ∈
      webPublished.uniqueForIface routerIface := List.mem_cons_self
  have hknown : ∀ known ∈ routerProbe.answers, ¬ (known.name == routerName ∧
      known.recordType = .a ∧ known.data == .a 0xC0A80101) := by
    intro known h
    cases h
  have hauth : ∃ a ∈ routerProbe.authorities, routerName == a.name ∧ RecordType.a = a.recordType :=
    ⟨Record.fromRdata routerName ttlHost (.a 0xC0A80163), List.mem_cons_self, BEq.rfl, rfl⟩
  have hwire : wireOk.delivers routerIface .v4 = true := by decide
  obtain ⟨-, resp, hresp, s, hs, hsu, -⟩ := probe_defended webPublished_builtFor routerState
    (IterOrder.id _ _) 0 0 rfl hu hauth ⟨_, List.mem_cons_self, BEq.rfl, Or.inl rfl⟩ hknown
    (fun s h => by cases h) hwire
  exact ⟨resp, hresp, s, hs, hsu⟩

/-! ### Answers at once -/

/-- **A response without delay that is no defense** answers a single question of an untruncated
message, with unique records of the interface only: no pointer, and nothing relayed from the
cache. -/
theorem zero_delay_owned {p : Published} {ifaces : List Iface} (hb : p.BuiltFor ifaces) {st : State}
    {σ : CacheOrder} {now rand : ℕ} {msg : Message} {i : Iface} {family : IpFamily} {pd : Pending}
    (hprep : prepareResponse st σ now msg i family p = some pd)
    (hzero : responseDelay pd.cls rand = 0) (hprobe : ¬ msg.ProbesFor p i) :
    msg.queries.length = 1 ∧ msg.truncation = false ∧
      ∀ r ∈ applyKnownAnswers (candidateAnswers st σ now msg i p) msg,
        r ∈ p.uniqueForIface i ∧ r.recordType ≠ .ptr ∧
          ¬ st.cache.Relayable now i.ifindex r := by
  have hw := hb.wellFormed
  obtain ⟨-, hans, -, -, -, hdef, hcls⟩ := prepareResponse_eq_some hprep
  have hfalse : pd.probeDefense = false := by
    rw [hdef, ← Bool.not_eq_true, isProbeForUs_iff]
    exact hprobe
  rw [hfalse] at hcls
  have hunique : classifyDelay msg pd.answers false = .uniqueAnswer := by
    rcases (responseDelay_eq_zero_iff pd.cls rand).1 hzero with h | h
    · exact absurd (hcls.symm.trans h) (classifyDelay_false_ne_probeDefense _)
    · exact hcls.symm.trans h
  obtain ⟨hone, htc, hflush⟩ := classifyDelay_eq_uniqueAnswer hunique
  refine ⟨hone, htc, ?_⟩
  intro r hr
  have hbit : r.mdnsCacheFlush = true := hflush r (by rw [hans]; exact hr)
  -- what is relayed has lost the bit, and the shared records never had it
  have hrelay : ¬ st.cache.Relayable now i.ifindex r := by
    intro hrel
    rw [hrel.mdnsCacheFlush_eq] at hbit
    cases hbit
  obtain ⟨hsrc, -⟩ := mem_candidateAnswers hw ((applyKnownAnswers_sublist _ msg).subset hr)
  rcases hsrc with hpub | ⟨-, hrel⟩
  · rcases Published.mem_recordsFor.1 hpub with hu | hshared
    · exact ⟨hu, (Published.unique_of_mem_uniqueForIface hw hu).2, hrelay⟩
    · rw [(Published.shared_of_mem_sharedRecords hw hshared).1] at hbit
      cases hbit
  · exact absurd hrel hrelay

/-- The question for the router's address is answered at once, with its own record. -/
theorem zero_delay_owned_router :
    routerQuery.queries.length = 1 ∧
      ∀ r ∈ applyKnownAnswers (candidateAnswers routerState (IterOrder.id _ _) 0 routerQuery
        routerIface webPublished) routerQuery, r ∈ webPublished.uniqueForIface routerIface := by
  have hprep : prepareResponse routerState (IterOrder.id _ _) 0 routerQuery routerIface .v4
      webPublished = some ⟨0, routerIface, .v4, [uniqueRecord routerName ttlHost (.a 0xC0A80101)],
        [], false, .uniqueAnswer⟩ := rfl
  have hprobe : ¬ routerQuery.ProbesFor webPublished routerIface := by
    rintro ⟨a, ha, -⟩
    cases ha
  have hzero : responseDelay .uniqueAnswer 0 = 0 := rfl
  obtain ⟨hone, -, howned⟩ := zero_delay_owned webPublished_builtFor hprep hzero hprobe
  exact ⟨hone, fun r hr => (howned r hr).1⟩

end Nmdns
