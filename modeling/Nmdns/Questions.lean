import Nmdns.Outgoing

/-!
# Which records answer a question

The answers to a query, compared with what the questions ask for.

* `Question.Asks`, `Question.AsksClass`: a question asks for a record by name and type, by class;
* `Published.Own`: a published record, with the host addresses restricted to one interface;
* `candidateAnswers_exact`: the answers are, key by key, the own records and the relayed records
  that some question asks for, and the own record is preferred;
* `candidateAnswers_asked`: the class of a question plays no role;
* `Knows`, `applyKnownAnswers_exact_iff`: when suppression removes exactly the known answers.
-/

namespace Nmdns

/-- The question asks for the name and the type of the record. -/
def Question.Asks (q : Question) (r : Record) : Prop :=
  q.name == r.name ∧ (q.queryType = .any ∨ q.queryType = r.recordType)

/-- The question asks for the class of the record. -/
def Question.AsksClass (q : Question) (r : Record) : Prop :=
  q.queryClass = .any ∨ q.queryClass = r.dnsClass

/-- `r` is published, and if it is a host address then it is one of `i`. -/
def Published.Own (p : Published) (i : Iface) (r : Record) : Prop :=
  r ∈ p.all ∧ ∀ addr, r.hostAddr? = some addr → i.hasAddr addr = true

/-! ### The own records -/

section Own

variable {p : Published} {i : Iface} {r : Record}

/-- The own records of an interface are those it announces. -/
theorem own_iff (hw : p.WellFormed) : p.Own i r ↔ r ∈ p.recordsFor i := by
  constructor
  · rintro ⟨hall, haddr⟩
    unfold Published.all at hall
    rw [List.mem_append, List.mem_append] at hall
    rcases hall with (hA | hAaaa) | hsvc
    · obtain ⟨addr, rfl⟩ := hw.hostA r hA
      refine List.mem_append_left _ ((Published.mem_hostRecordsForIface hw).2 (Or.inl ⟨hA, ?_⟩))
      exact ⟨addr, eq_of_beq (haddr (.v4 addr) rfl), rfl⟩
    · obtain ⟨addr, rfl⟩ := hw.hostAaaa r hAaaa
      refine List.mem_append_left _ ((Published.mem_hostRecordsForIface hw).2 (Or.inr ⟨hAaaa, ?_⟩))
      exact ⟨addr, eq_of_beq (haddr (.v6 addr) rfl), rfl⟩
    · exact List.mem_append_right _ hsvc
  · intro hr
    exact ⟨Published.mem_all_of_mem_recordsFor hw hr, fun _ => hasAddr_of_mem_recordsFor hw hr⟩

/-- Everything published has class IN. -/
theorem dnsClass_of_mem_all (hw : p.WellFormed) (h : r ∈ p.all) : r.dnsClass = .in := by
  rcases Published.mem_all_cases hw h with ⟨addr, rfl⟩ | ⟨addr, rfl⟩ | ⟨s, hs, hr⟩
  · rfl
  · rfl
  · obtain ⟨sc, metaName, svcType, instanceName, target, rfl⟩ := hw.services s hs
    simp only [List.mem_cons, List.not_mem_nil, or_false] at hr
    rcases hr with rfl | rfl | rfl | rfl <;> rfl

end Own

/-! ### The answers -/

section Answers

variable {st : State} {σ : CacheOrder} {now : ℕ} {msg : Message} {i : Iface} {p : Published}
  {r : Record}

/-- `r` may be sent on `i`: it is an own record, or one that the daemon relays. -/
def State.MayAnswer (st : State) (now : ℕ) (p : Published) (i : Iface) (r : Record) : Prop :=
  p.Own i r ∨ (st.config.answerFromCache = true ∧ st.cache.Relayable now i.ifindex r)

theorem mem_offeredFor_iff (hw : p.WellFormed) {q : Question} :
    r ∈ offeredFor st σ now i p q ↔ st.MayAnswer now p i r ∧ q.Asks r := by
  rw [mem_offeredFor hw, ← own_iff hw, Published.recordMatches_iff]
  rfl

/-- An answer may be sent, and some question asks for it. -/
theorem asks_of_mem_candidateAnswers (hw : p.WellFormed)
    (hr : r ∈ candidateAnswers st σ now msg i p) :
    st.MayAnswer now p i r ∧ ∃ q ∈ msg.queries, q.Asks r := by
  obtain ⟨hsrc, q, hq, hm⟩ := mem_candidateAnswers hw hr
  rw [← own_iff hw] at hsrc
  exact ⟨hsrc, q, hq, Published.recordMatches_iff.1 hm⟩

/-- Every record that may be sent and is asked for is among the answers, up to its key. -/
theorem exists_answer_of_asks (hw : p.WellFormed) (hmay : st.MayAnswer now p i r) {q : Question}
    (hq : q ∈ msg.queries) (hasks : q.Asks r) :
    ∃ s ∈ candidateAnswers st σ now msg i p, RecordKey.of s == RecordKey.of r :=
  exists_mem_candidateAnswers hq ((mem_offeredFor_iff hw).2 ⟨hmay, hasks⟩)

/-- An answer with the key of an own record is an own record, with its TTL and cache-flush bit. -/
theorem own_of_key (hw : p.WellFormed) (hr : r ∈ candidateAnswers st σ now msg i p) {own : Record}
    (hown : p.Own i own) (hk : RecordKey.of own == RecordKey.of r) :
    p.Own i r ∧ r.ttl = own.ttl ∧ r.mdnsCacheFlush = own.mdnsCacheFlush := by
  have hr' := candidateAnswers_published_first hw hr ((own_iff hw).1 hown) hk
  obtain ⟨-, htype, -⟩ := RecordKey.of_beq_iff.1 hk
  obtain ⟨httl, hflush⟩ := ttl_of_mem_recordsFor hw hr'
  obtain ⟨httl', hflush'⟩ := ttl_of_mem_all hw hown.1
  exact ⟨(own_iff hw).2 hr', by rw [httl, httl', htype], by rw [hflush, hflush', htype]⟩

/-- **The answers to a query.**  Their keys are distinct; they are exactly the keys of the own
records and, when the daemon answers from its cache, of the relayed records that some question asks
for; and where an own record has the key of an answer, the answer is an own record with the same TTL
and cache-flush bit, whatever the order of the questions. -/
theorem candidateAnswers_exact {ifaces : List Iface} (hb : p.BuiltFor ifaces) (st : State)
    (σ : CacheOrder) (now : ℕ) (msg : Message) (i : Iface) :
    ((candidateAnswers st σ now msg i p).Pairwise fun r s =>
      (RecordKey.of r == RecordKey.of s) = false) ∧
    (∀ k, (∃ r ∈ candidateAnswers st σ now msg i p, RecordKey.of r == k) ↔
      ∃ r, RecordKey.of r == k ∧
        (p.Own i r ∨ (st.config.answerFromCache = true ∧ st.cache.Relayable now i.ifindex r)) ∧
        ∃ q ∈ msg.queries, q.Asks r) ∧
    ∀ r ∈ candidateAnswers st σ now msg i p, ∀ own, p.Own i own →
      RecordKey.of own == RecordKey.of r →
        p.Own i r ∧ r.ttl = own.ttl ∧ r.mdnsCacheFlush = own.mdnsCacheFlush := by
  have hw := hb.wellFormed
  refine ⟨candidateAnswers_distinct msg, ?_, fun r hr own hown hk => own_of_key hw hr hown hk⟩
  intro k
  constructor
  · rintro ⟨r, hr, hk⟩
    exact ⟨r, hk, asks_of_mem_candidateAnswers hw hr⟩
  · rintro ⟨r, hk, hmay, q, hq, hasks⟩
    obtain ⟨s, hs, hsr⟩ := exists_answer_of_asks hw hmay hq hasks
    exact ⟨s, hs, BEq.trans hsr hk⟩

/-- A router that also answers from its cache, in which it has heard of itself on interface 3. -/
def echoedState : State :=
  { routerState with
    config := ⟨false, true, 4096, none, [], []⟩
    cache := ((Cache.withCapacityAndMaxTtl 4096 none).insertFrom (IterOrder.id _ _) 0
      { uniqueRecord routerName ttlHost (.a 0xC0A80101) with ttl := 4500 } (some 3)).1 }

/-- The router's address is answered, and with its own TTL. -/
theorem candidateAnswers_exact_router :
    ∃ r ∈ candidateAnswers echoedState (IterOrder.id _ _) 0 routerQuery routerIface webPublished,
      RecordKey.of r == RecordKey.of (uniqueRecord routerName ttlHost (.a 0xC0A80101)) ∧
        r.ttl = ttlHost := by
  obtain ⟨-, hkeys, hprefers⟩ := candidateAnswers_exact webPublished_builtFor echoedState
    (IterOrder.id _ _) 0 routerQuery routerIface
  have hown : webPublished.Own routerIface (uniqueRecord routerName ttlHost (.a 0xC0A80101)) := by
    refine ⟨List.mem_append_left _ (List.mem_append_left _ List.mem_cons_self), ?_⟩
    intro addr h
    cases h
    decide
  obtain ⟨r, hr, hk⟩ := (hkeys (RecordKey.of (uniqueRecord routerName ttlHost (.a 0xC0A80101)))).2
    ⟨_, BEq.rfl, Or.inl hown, _, List.mem_cons_self, BEq.rfl, Or.inr rfl⟩
  exact ⟨r, hr, hk, (hprefers r hr _ hown (BEq.symm hk)).2.1⟩

end Answers

/-! ### The class of a question -/

section Classes

variable {st : State} {σ : CacheOrder} {now : ℕ} {i : Iface} {p : Published}

/-- The same question, asked for another class. -/
def Question.withClass (c : DNSClass) (q : Question) : Question := { q with queryClass := c }

theorem candidateAnswers_withClass (classOf : Question → DNSClass) (msg : Message) :
    candidateAnswers st σ now
        { msg with queries := msg.queries.map fun q => q.withClass (classOf q) } i p =
      candidateAnswers st σ now msg i p := by
  unfold candidateAnswers
  rw [List.foldl_map]
  rfl

/-- **The class plays no role.**  An answer has the name and the type that some question asks for.
The answers are the same whatever classes the questions ask for; an own record has class IN, so it
also has the class asked for when that is IN or ANY. -/
theorem candidateAnswers_asked {ifaces : List Iface} (hb : p.BuiltFor ifaces) (st : State)
    (σ : CacheOrder) (now : ℕ) (msg : Message) (i : Iface) :
    (∀ r ∈ candidateAnswers st σ now msg i p, ∃ q ∈ msg.queries, q.Asks r ∧
      (p.Own i r → q.queryClass = .in ∨ q.queryClass = .any → q.AsksClass r)) ∧
    ∀ classOf : Question → DNSClass,
      candidateAnswers st σ now
          { msg with queries := msg.queries.map fun q => q.withClass (classOf q) } i p =
        candidateAnswers st σ now msg i p := by
  have hw := hb.wellFormed
  refine ⟨?_, fun classOf => candidateAnswers_withClass classOf msg⟩
  intro r hr
  obtain ⟨-, q, hq, hasks⟩ := asks_of_mem_candidateAnswers hw hr
  refine ⟨q, hq, hasks, ?_⟩
  rintro hown (hin | hany)
  · right
    rw [hin, dnsClass_of_mem_all hw hown.1]
  · exact Or.inl hany

/-- The query for the router's address, in class CH. -/
def chaosQuery : Message := { routerQuery with queries := [⟨routerName, .a, .ch⟩] }

theorem candidateAnswers_chaos :
    candidateAnswers routerState (IterOrder.id _ _) 0 chaosQuery routerIface webPublished =
      [uniqueRecord routerName ttlHost (.a 0xC0A80101)] := by
  decide

theorem candidateAnswers_asked_chaos :
    ∃ r ∈ candidateAnswers routerState (IterOrder.id _ _) 0 chaosQuery routerIface webPublished,
      ∃ q ∈ chaosQuery.queries, q.Asks r := by
  have hr : uniqueRecord routerName ttlHost (.a 0xC0A80101) ∈
      candidateAnswers routerState (IterOrder.id _ _) 0 chaosQuery routerIface webPublished := by
    rw [candidateAnswers_chaos]
    exact List.mem_cons_self
  obtain ⟨q, hq, hasks, -⟩ := (candidateAnswers_asked webPublished_builtFor routerState
    (IterOrder.id _ _) 0 chaosQuery routerIface).1 _ hr
  exact ⟨_, hr, q, hq, hasks⟩

/-- The question of class CH is answered with the router's address, which has class IN. -/
theorem chaos_answered :
    ¬ ∀ r ∈ candidateAnswers routerState (IterOrder.id _ _) 0 chaosQuery routerIface webPublished,
      ∃ q ∈ chaosQuery.queries, q.Asks r ∧ q.AsksClass r := by
  intro h
  rw [candidateAnswers_chaos] at h
  obtain ⟨q, hq, -, hclass⟩ := h _ List.mem_cons_self
  rw [List.mem_singleton.1 hq] at hclass
  rcases hclass with hclass | hclass <;> cases hclass

end Classes

/-! ### Known answers -/

/-- The querier knows the answer: it lists the same record with at least half of its TTL. -/
def Knows (known ans : Record) : Prop :=
  RecordKey.of known == RecordKey.of ans ∧ ans.ttl.toNat ≤ 2 * known.ttl.toNat

instance (known ans : Record) : Decidable (Knows known ans) := inferInstanceAs (Decidable (_ ∧ _))

/-- A known answer that agrees in name, type, data and TTL, but not in class. -/
def KnowsInOtherClass (known ans : Record) : Prop :=
  known.name == ans.name ∧ known.recordType = ans.recordType ∧ known.data == ans.data ∧
    known.dnsClass ≠ ans.dnsClass ∧ ans.ttl.toNat ≤ 2 * known.ttl.toNat

/-- Doubling saturates above every TTL. -/
theorem le_saturatingDouble (ttl known : UInt32) :
    ttl.toNat ≤ saturatingDouble known ↔ ttl.toNat ≤ 2 * known.toNat := by
  have hlt := ttl.toNat_lt
  unfold saturatingDouble
  omega

/-- The test of `apply_known_answers`. -/
def suppresses (known ans : Record) : Bool :=
  known.name == ans.name && known.recordType == ans.recordType && known.data == ans.data &&
    decide (ans.ttl.toNat ≤ saturatingDouble known.ttl)

theorem suppresses_eq_true {known ans : Record} :
    suppresses known ans = true ↔ known.name == ans.name ∧ known.recordType = ans.recordType ∧
      known.data == ans.data ∧ ans.ttl.toNat ≤ 2 * known.ttl.toNat := by
  simp only [suppresses, Bool.and_eq_true, beq_iff_eq, decide_eq_true_eq, le_saturatingDouble,
    and_assoc]

/-- The test compares all of the identity of a record but its class. -/
theorem suppresses_iff (known ans : Record) :
    suppresses known ans = true ↔ Knows known ans ∨ KnowsInOtherClass known ans := by
  rw [suppresses_eq_true, Knows, KnowsInOtherClass, RecordKey.of_beq_iff]
  by_cases hclass : known.dnsClass = ans.dnsClass
  · simp only [hclass, true_and, ne_eq, not_true_eq_false, false_and, and_false, or_false]
    tauto
  · simp only [hclass, false_and, and_false, false_or, ne_eq, not_false_eq_true, true_and]

theorem applyKnownAnswers_eq_filter (answers : List Record) (msg : Message) :
    applyKnownAnswers answers msg =
      answers.filter fun ans => !msg.answers.any fun known => suppresses known ans := by
  unfold applyKnownAnswers
  split_ifs with hempty
  · rw [List.isEmpty_iff.1 hempty]
    simp
  · rfl

/-- Suppression keeps an answer unless a known one agrees with it in all but possibly the class. -/
theorem mem_applyKnownAnswers {answers : List Record} {msg : Message} {ans : Record} :
    ans ∈ applyKnownAnswers answers msg ↔
      ans ∈ answers ∧ ∀ known ∈ msg.answers, suppresses known ans = false := by
  rw [applyKnownAnswers_eq_filter, List.mem_filter, Bool.not_eq_true', List.any_eq_false]
  simp only [Bool.not_eq_true]

/-- **Known-answer suppression is exact** exactly when every known answer that agrees with an answer
in all but the class comes with one that agrees in the class too. -/
theorem applyKnownAnswers_exact_iff (answers : List Record) (msg : Message) :
    applyKnownAnswers answers msg =
        answers.filter (fun ans => !msg.answers.any fun known => decide (Knows known ans)) ↔
      ∀ ans ∈ answers, ∀ known ∈ msg.answers, KnowsInOtherClass known ans →
        ∃ known' ∈ msg.answers, Knows known' ans := by
  constructor
  · intro heq ans hans known hknown hother
    by_contra hnone
    -- no known answer has the key of `ans`, so it should be kept
    have hkept : ans ∈ applyKnownAnswers answers msg := by
      rw [heq, List.mem_filter, Bool.not_eq_true', List.any_eq_false]
      refine ⟨hans, fun known' hknown' hk => hnone ⟨known', hknown', of_decide_eq_true hk⟩⟩
    have hsup := (suppresses_iff known ans).2 (Or.inr hother)
    rw [(mem_applyKnownAnswers.1 hkept).2 known hknown] at hsup
    cases hsup
  · intro h
    rw [applyKnownAnswers_eq_filter]
    refine List.filter_congr fun ans hans => congrArg (!·) ?_
    rw [Bool.eq_iff_iff, List.any_eq_true, List.any_eq_true]
    constructor
    · rintro ⟨known, hknown, hsup⟩
      rcases (suppresses_iff known ans).1 hsup with hk | hother
      · exact ⟨known, hknown, decide_eq_true hk⟩
      · obtain ⟨known', hknown', hk⟩ := h ans hans known hknown hother
        exact ⟨known', hknown', decide_eq_true hk⟩
    · rintro ⟨known, hknown, hk⟩
      exact ⟨known, hknown, (suppresses_iff known ans).2 (Or.inl (of_decide_eq_true hk))⟩

/-- The router's address, listed as a known answer in class CH. -/
def chaosKnown : Message :=
  { routerQuery with
    answers := [{ uniqueRecord routerName ttlHost (.a 0xC0A80101) with dnsClass := .ch }] }

/-- The record of class CH suppresses the address of class IN. -/
theorem chaos_suppresses :
    applyKnownAnswers [uniqueRecord routerName ttlHost (.a 0xC0A80101)] chaosKnown ≠
      [uniqueRecord routerName ttlHost (.a 0xC0A80101)].filter fun ans =>
        !chaosKnown.answers.any fun known => decide (Knows known ans) := by
  decide

end Nmdns
