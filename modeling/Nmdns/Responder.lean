import Nmdns.Lib.Unique
import Nmdns.Services
import Nmdns.Timing

/-!
# The responder

`src/responder.rs`: the choice of the answers to a query and the transmission of a response.

A query is handled in two parts with the response delay between them:

* `prepareResponse` reads the cache and chooses the records (`candidateAnswers`,
  `applyKnownAnswers`, `cachedAdditionals`);
* `Pending.respond` runs after the delay: the rate limiter drops records, the rest is encoded and
  sent.

`handleQuery` is one after the other.  Whether the encoder and the socket succeed is an input
(`Wire`).
-/

namespace Nmdns

/-- The shared state of the daemon. -/
structure State where
  config : Resolved
  ifaces : List Iface
  cache : Cache
  mcTracker : MulticastTracker

/-- The outcomes outside the daemon's control: of encoding a message, and of a send on the socket of
each family. -/
structure Wire where
  encodeOk : Bool
  socketOk : IpFamily → Bool

/-- Encoder and sockets work. -/
def wireOk : Wire := ⟨true, fun _ => true⟩

/-- A message that went out: its answer and additional sections. -/
structure Response where
  id : UInt16
  answers : List Record
  additionals : List Record
  deriving DecidableEq, Repr

/-- The records of a response. -/
def Response.records (resp : Response) : List Record := resp.answers ++ resp.additionals

/-- `build_response`. -/
def buildResponse (queryId : UInt16) (answers additionals : List Record) (encodeOk : Bool) :
    Option Response :=
  if answers.isEmpty then none
  else if encodeOk then some ⟨queryId, answers, additionals⟩ else none

/-- `is_probe_for_us`. -/
def isProbeForUs (msg : Message) (unique : List Record) : Bool :=
  if msg.authorities.isEmpty then false
  else msg.authorities.any fun a =>
    unique.any fun u => u.name == a.name && u.recordType == a.recordType

/-- `u32::saturating_mul(2)`. -/
def saturatingDouble (t : UInt32) : ℕ := min (t.toNat * 2) (2 ^ 32 - 1)

/-- `apply_known_answers`. -/
def applyKnownAnswers (answers : List Record) (queryMsg : Message) : List Record :=
  if queryMsg.answers.isEmpty then answers
  else answers.filter fun ans => !queryMsg.answers.any fun known =>
    known.name == ans.name && known.recordType == ans.recordType && known.data == ans.data &&
      decide (ans.ttl.toNat ≤ saturatingDouble known.ttl)

/-- `push_unique` over a list. -/
def pushUnique (acc : List Record × List RecordKey) (rs : List Record) :
    List Record × List RecordKey :=
  Unique.pushAll RecordKey.of acc rs

/-- A host address record is kept only if it belongs to the interface. -/
def belongsTo (p : Published) (arrival : Iface) (r : Record) : Bool :=
  !((r.recordType == .a || r.recordType == .aaaa) &&
    !(p.hostRecordsForIface arrival).any fun hr => hr == r)

section Choice

variable (st : State) (σ : CacheOrder) (now : ℕ)

/-- The records learned on interfaces other than the arrival one. -/
def cachedRecords (name : Name) (rtype : RecordType) (arrival : Iface) : List Record :=
  st.cache.lookupFromOtherIfaces σ now name rtype arrival.ifindex

/-- The body of the loop of `candidate_answers`, for one question. -/
def answerQuestion (arrival : Iface) (p : Published) (acc : List Record × List RecordKey)
    (q : Question) : List Record × List RecordKey :=
  let acc := pushUnique acc ((p.answer q.name q.queryType).filter (belongsTo p arrival))
  if st.config.answerFromCache then
    pushUnique acc (cachedRecords st σ now q.name q.queryType arrival)
  else acc

/-- `candidate_answers`. -/
def candidateAnswers (msg : Message) (arrival : Iface) (p : Published) : List Record :=
  (msg.queries.foldl (answerQuestion st σ now arrival p) ([], [])).1

/-- The additionals for one answer: the SRV and TXT records of a pointer's target. -/
def addPointerTarget (arrival : Iface) (acc : List Record × List RecordKey) (answer : Record) :
    List Record × List RecordKey :=
  match answer.data with
  | .ptr target =>
    pushUnique (pushUnique acc (cachedRecords st σ now target .srv arrival))
      (cachedRecords st σ now target .txt arrival)
  | _ => acc

/-- The additionals for one SRV record: the addresses of its target. -/
def addServiceTarget (arrival : Iface) (acc : List Record × List RecordKey) (record : Record) :
    List Record × List RecordKey :=
  match record.data with
  | .srv _ _ _ target =>
    pushUnique (pushUnique acc (cachedRecords st σ now target .a arrival))
      (cachedRecords st σ now target .aaaa arrival)
  | _ => acc

/-- `cached_additionals`. -/
def cachedAdditionals (answers : List Record) (arrival : Iface) : List Record :=
  if !st.config.answerFromCache then []
  else
    let acc := answers.foldl (addPointerTarget st σ now arrival) ([], answers.map RecordKey.of)
    let srvRecords := (answers ++ acc.1).filter fun r => r.recordType == .srv
    (srvRecords.foldl (addServiceTarget st σ now arrival) acc).1

end Choice

/-- `answer_uniqueness`. -/
def answerUniqueness (answers : List Record) : Bool × Bool :=
  (answers.all fun r => r.mdnsCacheFlush, answers.any fun r => r.mdnsCacheFlush)

/-- `classify_delay`. -/
def classifyDelay (msg : Message) (answers : List Record) (probeDefense : Bool) : DelayClass :=
  let (allUnique, anyUnique) := answerUniqueness answers
  if probeDefense then .probeDefense
  else if msg.truncation then .truncated
  else if msg.queries.length == 1 && allUnique && anyUnique then .uniqueAnswer
  else .shared

/-- A response that waits for its delay: what `handle_query` holds across the sleep. -/
structure Pending where
  id : UInt16
  arrival : Iface
  family : IpFamily
  answers : List Record
  additionals : List Record
  probeDefense : Bool
  cls : DelayClass
  deriving Repr

/-- The interval that the rate limiter enforces on a response. -/
def Pending.minInterval (pd : Pending) : ℕ :=
  if pd.probeDefense then probeDefenseInterval else minMulticastInterval

/-- `handle_query` up to the sleep. -/
def prepareResponse (st : State) (σ : CacheOrder) (now : ℕ) (msg : Message) (arrival : Iface)
    (family : IpFamily) (p : Published) : Option Pending :=
  if msg.messageType ≠ .query then none
  else if msg.queries.isEmpty then none
  else
    let answers := applyKnownAnswers (candidateAnswers st σ now msg arrival p) msg
    if answers.isEmpty then none
    else
      let additionals := cachedAdditionals st σ now answers arrival
      let probeDefense := isProbeForUs msg (p.uniqueForIface arrival)
      some ⟨msg.id, arrival, family, answers, additionals, probeDefense,
        classifyDelay msg answers probeDefense⟩

/-- `handle_query` after the sleep: the tracker afterwards, and the response if one went out. -/
def Pending.respond (pd : Pending) (t : MulticastTracker) (now : ℕ) (wire : Wire) :
    MulticastTracker × Option Response :=
  let (t₁, answers) := t.retainMarked now pd.arrival.ifindex pd.minInterval pd.answers
  -- a response without answers is not sent, so its additionals are not marked
  if answers.isEmpty then (t₁, none)
  else
    let (t₂, additionals) := t₁.retainMarked now pd.arrival.ifindex pd.minInterval pd.additionals
    match buildResponse pd.id answers additionals wire.encodeOk with
    | none => (t₂, none)
    | some resp => (t₂, if pd.arrival.sendMdnsOn pd.family wire.socketOk then some resp else none)

/-- `handle_query`: the cache is read at `now`, the rate limiter at `wake`, when the delay is
over. -/
def handleQuery (st : State) (σ : CacheOrder) (now wake : ℕ) (msg : Message) (arrival : Iface)
    (family : IpFamily) (p : Published) (wire : Wire) : State × Option Response :=
  match prepareResponse st σ now msg arrival family p with
  | none => (st, none)
  | some pd =>
    let (t, resp) := pd.respond st.mcTracker wake wire
    ({ st with mcTracker := t }, resp)

/-- `build_announce`. -/
def buildAnnounce (p : Published) (iface : Iface) (encodeOk : Bool) : Option (List Record) :=
  if (p.recordsFor iface).isEmpty then none
  else if encodeOk then some (p.recordsFor iface) else none

theorem buildAnnounce_eq_some {p : Published} {iface : Iface} {encodeOk : Bool}
    {rs : List Record} : buildAnnounce p iface encodeOk = some rs ↔
      p.recordsFor iface ≠ [] ∧ encodeOk = true ∧ p.recordsFor iface = rs := by
  unfold buildAnnounce
  cases encodeOk <;> simp

/-! ### What is chosen -/

/-- `r` is a live record learned on an interface other than `i`, in the form in which it is sent
there: with the remaining TTL and without the cache-flush bit. -/
def Cache.Relayable (c : Cache) (now : ℕ) (i : UInt32) (r : Record) : Prop :=
  ∃ k e s, c.byKey.find? k = some e ∧ (∃ j, e.sourceIfindex = some j ∧ j ≠ i) ∧
    recordWithRemainingTtl e now = some s ∧ r = { s with mdnsCacheFlush := false }

/-- What is relayed has lost its cache-flush bit. -/
theorem Cache.Relayable.mdnsCacheFlush_eq {c : Cache} {now : ℕ} {i : UInt32} {r : Record}
    (h : c.Relayable now i r) : r.mdnsCacheFlush = false := by
  obtain ⟨k, e, s, -, -, -, rfl⟩ := h
  rfl

section Chosen

variable {st : State} {σ : CacheOrder} {now : ℕ} {arrival : Iface} {p : Published} {r : Record}

theorem mem_cachedRecords {name : Name} {rtype : RecordType} :
    r ∈ cachedRecords st σ now name rtype arrival ↔
      st.cache.Relayable now arrival.ifindex r ∧ recordMatches r name rtype := by
  have hmatch : ∀ {e : Entry} {s : Record}, recordWithRemainingTtl e now = some s →
      recordMatches { s with mdnsCacheFlush := false } name rtype =
        recordMatches e.record name rtype := by
    intro e s hs
    rw [(recordWithRemainingTtl_eq_some.1 hs).2, recordMatches_mdnsCacheFlush, recordMatches_ttl]
  unfold cachedRecords
  rw [mem_lookupFromOtherIfaces]
  constructor
  · rintro ⟨k, e, s, hfind, hm, hsrc, hs, rfl⟩
    exact ⟨⟨k, e, s, hfind, hsrc, hs, rfl⟩, by rw [hmatch hs]; exact hm⟩
  · rintro ⟨⟨k, e, s, hfind, hsrc, hs, rfl⟩, hm⟩
    exact ⟨k, e, s, hfind, by rw [← hmatch hs]; exact hm, hsrc, hs, rfl⟩

/-- On published records the address filter keeps exactly those of the interface. -/
theorem belongsTo_iff (hw : p.WellFormed) (hall : r ∈ p.all) :
    belongsTo p arrival r = true ↔ r ∈ p.recordsFor arrival := by
  have hbelongs : belongsTo p arrival r = true ↔ (r.recordType = .a ∨ r.recordType = .aaaa →
      ∃ s ∈ p.hostRecordsForIface arrival, s == r) := by
    simp only [belongsTo, Bool.not_eq_true', Bool.and_eq_false_iff, Bool.or_eq_false_iff,
      beq_eq_false_iff_ne, Bool.not_eq_false', List.any_eq_true, ← not_or, ← imp_iff_not_or]
  rw [hbelongs]
  unfold Published.all at hall
  rw [List.mem_append, List.mem_append] at hall
  rcases hall with hhost | hsvc
  · have htype : r.recordType = .a ∨ r.recordType = .aaaa := by
      rcases hhost with hr | hr
      · obtain ⟨a, rfl⟩ := hw.hostA r hr
        exact Or.inl rfl
      · obtain ⟨a, rfl⟩ := hw.hostAaaa r hr
        exact Or.inr rfl
    constructor
    · intro h
      obtain ⟨s, hs, hsr⟩ := h htype
      exact List.mem_append_left _ (Published.mem_hostRecordsForIface_of_beq hw hhost hs hsr)
    · intro h _
      rcases List.mem_append.1 h with h | h
      · exact ⟨r, h, by rw [Record.beq_eq]; exact BEq.rfl⟩
      · rcases Published.mem_serviceRecords_type hw h with ht | ht | ht <;>
          simp [ht] at htype
  · refine iff_of_true (fun ht => ?_) (List.mem_append_right _ hsvc)
    rcases Published.mem_serviceRecords_type hw hsvc with h | h | h <;> simp [h] at ht

/-- The published answers to a question are the interface's own records that match it. -/
theorem mem_filter_belongsTo (hw : p.WellFormed) {qname : Name} {qtype : RecordType} :
    r ∈ (p.answer qname qtype).filter (belongsTo p arrival) ↔
      r ∈ p.recordsFor arrival ∧ recordMatches r qname qtype := by
  rw [List.mem_filter, Published.mem_answer hw]
  constructor
  · rintro ⟨⟨hall, hm⟩, hb⟩
    exact ⟨(belongsTo_iff hw hall).1 hb, hm⟩
  · rintro ⟨hr, hm⟩
    have hall := Published.mem_all_of_mem_recordsFor hw hr
    exact ⟨⟨hall, hm⟩, (belongsTo_iff hw hall).2 hr⟩

/-- What the loop offers to the answer section for one question. -/
def offeredFor (st : State) (σ : CacheOrder) (now : ℕ) (arrival : Iface) (p : Published)
    (q : Question) : List Record :=
  (p.answer q.name q.queryType).filter (belongsTo p arrival) ++
    if st.config.answerFromCache then cachedRecords st σ now q.name q.queryType arrival else []

theorem candidateAnswers_eq (msg : Message) :
    candidateAnswers st σ now msg arrival p =
      (pushUnique ([], []) (msg.queries.flatMap (offeredFor st σ now arrival p))).1 := by
  have hbody : answerQuestion st σ now arrival p = fun acc q =>
      Unique.pushAll RecordKey.of acc (offeredFor st σ now arrival p q) := by
    funext acc q
    unfold answerQuestion offeredFor pushUnique
    rw [Unique.pushAll_append]
    cases st.config.answerFromCache <;> rfl
  unfold candidateAnswers pushUnique
  rw [hbody, Unique.foldl_pushAll]

theorem mem_offeredFor (hw : p.WellFormed) {q : Question} :
    r ∈ offeredFor st σ now arrival p q ↔
      (r ∈ p.recordsFor arrival ∨
        (st.config.answerFromCache = true ∧ st.cache.Relayable now arrival.ifindex r)) ∧
      recordMatches r q.name q.queryType := by
  unfold offeredFor
  rw [List.mem_append, mem_filter_belongsTo hw, or_and_right]
  refine or_congr_right ?_
  cases st.config.answerFromCache
  · simp
  · simp [mem_cachedRecords]

/-- **Where an answer comes from**: it is a record of the arrival interface, or one learned on
another interface, and it matches a question. -/
theorem mem_candidateAnswers (hw : p.WellFormed) {msg : Message}
    (h : r ∈ candidateAnswers st σ now msg arrival p) :
    (r ∈ p.recordsFor arrival ∨
      (st.config.answerFromCache = true ∧ st.cache.Relayable now arrival.ifindex r)) ∧
    ∃ q ∈ msg.queries, recordMatches r q.name q.queryType := by
  rw [candidateAnswers_eq] at h
  rcases Unique.mem_pushAll h with h | ⟨h, -⟩
  · cases h
  · obtain ⟨q, hq, h⟩ := List.mem_flatMap.1 h
    rw [mem_offeredFor hw] at h
    exact ⟨h.1, q, hq, h.2⟩

/-- Every record offered for a question is represented among the answers. -/
theorem exists_mem_candidateAnswers {msg : Message} {q : Question} (hq : q ∈ msg.queries)
    (h : r ∈ offeredFor st σ now arrival p q) :
    ∃ s ∈ candidateAnswers st σ now msg arrival p, RecordKey.of s == RecordKey.of r := by
  rw [candidateAnswers_eq]
  rcases Unique.exists_mem_pushAll (Unique.coherent_seed RecordKey.of [])
    (List.mem_flatMap.2 ⟨q, hq, h⟩) with hseed | hs
  · cases hseed
  · exact hs

theorem candidateAnswers_distinct (msg : Message) :
    (candidateAnswers st σ now msg arrival p).Pairwise fun r s =>
      (RecordKey.of r == RecordKey.of s) = false := by
  rw [candidateAnswers_eq]
  exact ((Unique.coherent_seed RecordKey.of []).pushAll _).distinct

/-- Suppression only drops answers. -/
theorem applyKnownAnswers_sublist (answers : List Record) (msg : Message) :
    (applyKnownAnswers answers msg).Sublist answers := by
  unfold applyKnownAnswers
  split_ifs
  · exact List.Sublist.refl _
  · exact List.filter_sublist

/-- What the first loop of `cached_additionals` offers for an answer. -/
def pointerOffers (st : State) (σ : CacheOrder) (now : ℕ) (arrival : Iface) (answer : Record) :
    List Record :=
  match answer.data with
  | .ptr target => cachedRecords st σ now target .srv arrival ++
      cachedRecords st σ now target .txt arrival
  | _ => []

/-- What the second loop of `cached_additionals` offers for an SRV record. -/
def serviceOffers (st : State) (σ : CacheOrder) (now : ℕ) (arrival : Iface) (record : Record) :
    List Record :=
  match record.data with
  | .srv _ _ _ target => cachedRecords st σ now target .a arrival ++
      cachedRecords st σ now target .aaaa arrival
  | _ => []

theorem addPointerTarget_eq : addPointerTarget st σ now arrival = fun acc answer =>
    Unique.pushAll RecordKey.of acc (pointerOffers st σ now arrival answer) := by
  funext acc answer
  unfold addPointerTarget pointerOffers pushUnique
  cases answer.data <;> first | rfl | rw [Unique.pushAll_append]

theorem addServiceTarget_eq : addServiceTarget st σ now arrival = fun acc record =>
    Unique.pushAll RecordKey.of acc (serviceOffers st σ now arrival record) := by
  funext acc record
  unfold addServiceTarget serviceOffers pushUnique
  cases record.data <;> first | rfl | rw [Unique.pushAll_append]

/-- `a` is a pointer to the name of `r`. -/
def Record.PointsTo (a r : Record) : Prop := ∃ target, a.data = .ptr target ∧ r.name == target

/-- `s` is a service on the host whose name is that of `r`. -/
def Record.Serves (s r : Record) : Prop :=
  ∃ priority weight port target, s.data = .srv priority weight port target ∧ r.name == target

/-- Two lookups for one name offer the records of either type. -/
theorem mem_cachedRecords_append {target : Name} {t t' : RecordType} (ht : t ≠ .any)
    (ht' : t' ≠ .any) :
    r ∈ cachedRecords st σ now target t arrival ++ cachedRecords st σ now target t' arrival ↔
      st.cache.Relayable now arrival.ifindex r ∧ (r.recordType = t ∨ r.recordType = t') ∧
        r.name == target := by
  rw [List.mem_append, mem_cachedRecords, mem_cachedRecords, ← and_or_left]
  refine and_congr_right fun _ => ?_
  simp only [recordMatches, Bool.and_eq_true, Bool.or_eq_true, beq_iff_eq, ht, ht', false_or]
  tauto

theorem mem_pointerOffers {a : Record} :
    r ∈ pointerOffers st σ now arrival a ↔ st.cache.Relayable now arrival.ifindex r ∧
      (r.recordType = .srv ∨ r.recordType = .txt) ∧ a.PointsTo r := by
  unfold pointerOffers Record.PointsTo
  cases a.data with
  | ptr target =>
    rw [mem_cachedRecords_append RecordType.noConfusion RecordType.noConfusion]
    simp
  | _ => simp

theorem mem_serviceOffers {s : Record} :
    r ∈ serviceOffers st σ now arrival s ↔ st.cache.Relayable now arrival.ifindex r ∧
      (r.recordType = .a ∨ r.recordType = .aaaa) ∧ s.Serves r := by
  unfold serviceOffers Record.Serves
  cases s.data with
  | srv priority weight port target =>
    rw [mem_cachedRecords_append RecordType.noConfusion RecordType.noConfusion]
    simp
  | _ => simp

theorem relayable_of_pointerOffers {answers : List Record} :
    ∀ s ∈ answers.flatMap (pointerOffers st σ now arrival),
      st.cache.Relayable now arrival.ifindex s := by
  intro s hs
  obtain ⟨a, -, hs⟩ := List.mem_flatMap.1 hs
  exact (mem_pointerOffers.1 hs).1

theorem relayable_of_serviceOffers {records : List Record} :
    ∀ s ∈ records.flatMap (serviceOffers st σ now arrival),
      st.cache.Relayable now arrival.ifindex s := by
  intro s hs
  obtain ⟨a, -, hs⟩ := List.mem_flatMap.1 hs
  exact (mem_serviceOffers.1 hs).1

/-- The additionals are collected from a list of cached records, with the answers' keys as seeds. -/
theorem cachedAdditionals_eq (st : State) (σ : CacheOrder) (now : ℕ) (arrival : Iface)
    (answers : List Record) :
    ∃ offers, (∀ s ∈ offers, st.config.answerFromCache = true ∧
        st.cache.Relayable now arrival.ifindex s) ∧
      cachedAdditionals st σ now answers arrival =
        (pushUnique ([], answers.map RecordKey.of) offers).1 := by
  unfold cachedAdditionals pushUnique
  cases hcfg : st.config.answerFromCache with
  | false => exact ⟨[], by simp, rfl⟩
  | true =>
    rw [Bool.not_true, if_neg Bool.false_ne_true, addPointerTarget_eq, addServiceTarget_eq]
    dsimp only
    rw [Unique.foldl_pushAll, Unique.foldl_pushAll, ← Unique.pushAll_append]
    refine ⟨_, fun s hs => ⟨rfl, ?_⟩, rfl⟩
    rcases List.mem_append.1 hs with hs | hs
    · exact relayable_of_pointerOffers s hs
    · exact relayable_of_serviceOffers s hs

/-- **Where an additional comes from**: only from records learned on another interface. -/
theorem mem_cachedAdditionals {answers : List Record}
    (h : r ∈ cachedAdditionals st σ now answers arrival) :
    st.config.answerFromCache = true ∧ st.cache.Relayable now arrival.ifindex r := by
  obtain ⟨offers, hoffers, heq⟩ := cachedAdditionals_eq st σ now arrival answers
  rw [heq] at h
  rcases Unique.mem_pushAll h with h | ⟨h, -⟩
  · cases h
  · exact hoffers r h

/-- The additionals have distinct keys, and none of them is the key of an answer. -/
theorem cachedAdditionals_distinct (st : State) (σ : CacheOrder) (now : ℕ) (arrival : Iface)
    (answers : List Record) :
    (cachedAdditionals st σ now answers arrival).Pairwise
        (fun r s => (RecordKey.of r == RecordKey.of s) = false) ∧
      ∀ a ∈ answers, ∀ s ∈ cachedAdditionals st σ now answers arrival,
        (RecordKey.of a == RecordKey.of s) = false := by
  obtain ⟨offers, -, heq⟩ := cachedAdditionals_eq st σ now arrival answers
  have hcoh := (Unique.coherent_seed RecordKey.of (answers.map RecordKey.of)).pushAll offers
  rw [heq]
  refine ⟨hcoh.distinct, fun a ha s hs => ?_⟩
  have hfresh := hcoh.fresh s hs
  rw [List.any_map, List.any_eq_false] at hfresh
  simpa using hfresh a ha

end Chosen

/-! ### What is sent, and what is marked -/

/-- The response reaches the wire: it is encoded, and the arrival interface has a socket of the
family whose send succeeds. -/
def Wire.delivers (wire : Wire) (arrival : Iface) (family : IpFamily) : Bool :=
  wire.encodeOk && arrival.sendMdnsOn family wire.socketOk

theorem Pending.minInterval_pos (pd : Pending) : 0 < pd.minInterval := by
  unfold minInterval
  split_ifs
  · show 0 < fromMillis 250
    unfold fromMillis
    omega
  · show 0 < fromSecs 1
    unfold fromSecs
    omega

/-- The response if the rate limiter keeps an answer: the additionals are checked after the
answers were marked. -/
theorem Pending.respond_of_kept {pd : Pending} {t : MulticastTracker} {now : ℕ}
    (h : (t.retainMarked now pd.arrival.ifindex pd.minInterval pd.answers).2 ≠ []) (wire : Wire) :
    pd.respond t now wire =
      let kept := t.retainMarked now pd.arrival.ifindex pd.minInterval pd.answers
      let extra := kept.1.retainMarked now pd.arrival.ifindex pd.minInterval pd.additionals
      (extra.1, if wire.delivers pd.arrival pd.family then some ⟨pd.id, kept.2, extra.2⟩
        else none) := by
  have hempty := List.isEmpty_eq_false_iff.2 h
  simp only [respond, buildResponse, Wire.delivers, hempty]
  by_cases hok : wire.encodeOk = true <;> simp [hok]

/-- **The two ways a prepared response ends.**  Either the rate limiter drops every answer, and then
nothing is sent or marked; or some records are kept, all of them allowed before, exactly they are
marked, and they go out if the wire delivers. -/
theorem Pending.respond_cases (pd : Pending) (t : MulticastTracker) (now : ℕ) (wire : Wire) :
    (pd.respond t now wire = (t, none) ∧
      ∀ r ∈ pd.answers, t.allows now pd.arrival.ifindex r pd.minInterval = false) ∨
    ∃ answers additionals, answers ≠ [] ∧ answers.Sublist pd.answers ∧
      additionals.Sublist pd.additionals ∧
      (∀ r ∈ answers ++ additionals, t.allows now pd.arrival.ifindex r pd.minInterval = true) ∧
      (∀ i k, (pd.respond t now wire).1.stamp? i k =
        if i = pd.arrival.ifindex ∧ ∃ r ∈ answers ++ additionals, k == RecordKey.of r
        then some now else t.stamp? i k) ∧
      (pd.respond t now wire).2 =
        if wire.delivers pd.arrival pd.family then some ⟨pd.id, answers, additionals⟩
        else none := by
  set i := pd.arrival.ifindex with hi
  set t₁ := (t.retainMarked now i pd.minInterval pd.answers).1 with ht₁
  set kept := (t.retainMarked now i pd.minInterval pd.answers).2 with hkept
  by_cases hnil : kept = []
  · refine Or.inl ⟨?_, (t.retainMarked_eq_nil_iff _).1 hnil⟩
    have htracker : t₁ = t := MulticastTracker.retainMarked_tracker_of_nil hnil
    simp [respond, ← hi, ← ht₁, ← hkept, hnil, htracker]
  · right
    set t₂ := (t₁.retainMarked now i pd.minInterval pd.additionals).1 with ht₂
    set extra := (t₁.retainMarked now i pd.minInterval pd.additionals).2 with hextra
    have hrespond : pd.respond t now wire =
        (t₂, if wire.delivers pd.arrival pd.family then some ⟨pd.id, kept, extra⟩ else none) :=
      Pending.respond_of_kept hnil wire
    refine ⟨kept, extra, hnil, t.retainMarked_sublist _, t₁.retainMarked_sublist _, ?_, ?_,
      by rw [hrespond]⟩
    · intro r hr
      rcases List.mem_append.1 hr with hr | hr
      · exact MulticastTracker.allows_of_mem_retainMarked hr
      · exact MulticastTracker.allows_of_allows_retainMarked pd.minInterval_pos
          (MulticastTracker.allows_of_mem_retainMarked hr)
    · intro j k
      rw [hrespond]
      show t₂.stamp? j k = _
      rw [ht₂, MulticastTracker.stamp?_retainMarked, ht₁, MulticastTracker.stamp?_retainMarked,
        ← hextra, ← hkept]
      simp only [List.mem_append, or_and_right, exists_or]
      by_cases hj : j = i
      · by_cases h₁ : ∃ r ∈ extra, k == RecordKey.of r <;>
          by_cases h₂ : ∃ r ∈ kept, k == RecordKey.of r <;> simp [hj, h₁, h₂]
      · simp [hj]

/-- If the rate limiter lets an answer through and the wire delivers, then every record that it
allows is on the wire. -/
theorem Pending.exists_mem_respond {pd : Pending} {t : MulticastTracker} {now : ℕ} {wire : Wire}
    (hdel : wire.delivers pd.arrival pd.family = true)
    (hsome : ∃ a ∈ pd.answers, t.allows now pd.arrival.ifindex a pd.minInterval = true)
    {r : Record} (hr : r ∈ pd.answers ++ pd.additionals)
    (hok : t.allows now pd.arrival.ifindex r pd.minInterval = true) :
    ∃ resp, (pd.respond t now wire).2 = some resp ∧
      ∃ s ∈ resp.records, RecordKey.of r == RecordKey.of s := by
  set i := pd.arrival.ifindex with hi
  set t₁ := (t.retainMarked now i pd.minInterval pd.answers).1 with ht₁
  set kept := (t.retainMarked now i pd.minInterval pd.answers).2 with hkept
  set extra := (t₁.retainMarked now i pd.minInterval pd.additionals).2 with hextra
  have hnil : kept ≠ [] := by
    obtain ⟨a, ha, hallow⟩ := hsome
    obtain ⟨s, hs, -⟩ := MulticastTracker.exists_mem_retainMarked ha hallow
    exact List.ne_nil_of_mem hs
  have hrespond : (pd.respond t now wire).2 = some ⟨pd.id, kept, extra⟩ := by
    rw [Pending.respond_of_kept hnil]
    exact if_pos hdel
  refine ⟨_, hrespond, ?_⟩
  by_cases hmark : ∃ s ∈ kept, RecordKey.of r == RecordKey.of s
  · obtain ⟨s, hs, hrs⟩ := hmark
    exact ⟨s, List.mem_append_left _ hs, hrs⟩
  · -- no answer has its key, so it is an additional and still allowed after the answers
    have hr' : r ∈ pd.additionals := by
      rcases List.mem_append.1 hr with hr | hr
      · exact absurd (MulticastTracker.exists_mem_retainMarked hr hok) hmark
      · exact hr
    have hok₁ : t₁.allows now i r pd.minInterval = true := by
      rw [MulticastTracker.allows_iff] at hok ⊢
      intro s hs
      rw [ht₁, MulticastTracker.stamp?_retainMarked, if_neg fun hm => hmark hm.2] at hs
      exact hok s hs
    obtain ⟨s, hs, hrs⟩ := MulticastTracker.exists_mem_retainMarked hr' hok₁
    exact ⟨s, List.mem_append_right _ hs, hrs⟩

section Handle

variable {st : State} {σ : CacheOrder} {now : ℕ} {msg : Message} {arrival : Iface}
  {family : IpFamily} {p : Published}

theorem prepareResponse_eq_some {pd : Pending}
    (h : prepareResponse st σ now msg arrival family p = some pd) :
    msg.messageType = .query ∧
      pd.answers = applyKnownAnswers (candidateAnswers st σ now msg arrival p) msg ∧
      pd.additionals = cachedAdditionals st σ now pd.answers arrival ∧
      pd.arrival = arrival ∧ pd.family = family ∧
      pd.probeDefense = isProbeForUs msg (p.uniqueForIface arrival) ∧
      pd.cls = classifyDelay msg pd.answers pd.probeDefense := by
  unfold prepareResponse at h
  dsimp only at h
  split_ifs at h with htype hq hne
  cases h
  exact ⟨not_not.1 htype, rfl, rfl, rfl, rfl, rfl, rfl⟩

/-- The answers of a prepared response have distinct keys. -/
theorem answers_distinct {pd : Pending}
    (h : prepareResponse st σ now msg arrival family p = some pd) :
    pd.answers.Pairwise fun r s => (RecordKey.of r == RecordKey.of s) = false := by
  rw [(prepareResponse_eq_some h).2.1]
  exact (candidateAnswers_distinct msg).sublist (applyKnownAnswers_sublist _ msg)

theorem prepareResponse_eq_none (h : prepareResponse st σ now msg arrival family p = none) :
    msg.messageType ≠ .query ∨
      applyKnownAnswers (candidateAnswers st σ now msg arrival p) msg = [] := by
  unfold prepareResponse at h
  dsimp only at h
  split_ifs at h with htype hq hne
  · exact Or.inl htype
  · right
    have hnone : candidateAnswers st σ now msg arrival p = [] := by
      rw [candidateAnswers, List.isEmpty_iff.1 hq]
      rfl
    rw [hnone]
    exact List.sublist_nil.1 (applyKnownAnswers_sublist [] msg)
  · exact Or.inr (List.isEmpty_iff.1 hne)

end Handle

/-- Only what went out is marked: every stamp that changed is that of a record of the response that
was sent, and if none was sent the tracker is as before. -/
def MarksOnlySent (before after : MulticastTracker) (arrival : Iface) (sent : Option Response) :
    Prop :=
  (∀ i k, after.stamp? i k ≠ before.stamp? i k →
    i = arrival.ifindex ∧ ∃ resp, sent = some resp ∧ ∃ r ∈ resp.records, k == RecordKey.of r) ∧
  (sent = none → after = before)

theorem marksOnlySent_self (t : MulticastTracker) (arrival : Iface) :
    MarksOnlySent t t arrival none :=
  ⟨fun _ _ h => absurd rfl h, fun _ => rfl⟩

/-- A wake-up marks only what it sends exactly when the wire delivers or nothing was to be
marked. -/
theorem Pending.respond_marksOnlySent_iff (pd : Pending) (t : MulticastTracker) (now : ℕ)
    (wire : Wire) :
    MarksOnlySent t (pd.respond t now wire).1 pd.arrival (pd.respond t now wire).2 ↔
      wire.delivers pd.arrival pd.family = true ∨
        ∀ r ∈ pd.answers, t.allows now pd.arrival.ifindex r pd.minInterval = false := by
  rcases pd.respond_cases t now wire with
    ⟨hout, hnone⟩ | ⟨answers, extra, hne, hsub, -, hallow, hstamp, hout⟩
  · rw [hout]
    exact iff_of_true (marksOnlySent_self t pd.arrival) (Or.inr hnone)
  · obtain ⟨r, hr⟩ := List.exists_mem_of_ne_nil _ hne
    have hr' : r ∈ answers ++ extra := List.mem_append_left _ hr
    constructor
    · rintro ⟨hchanged, -⟩
      by_contra hcon
      have hdel : ¬ wire.delivers pd.arrival pd.family = true := fun h => hcon (Or.inl h)
      -- the first answer kept has a new stamp, and it was not sent
      have hnew : (pd.respond t now wire).1.stamp? pd.arrival.ifindex (RecordKey.of r) ≠
          t.stamp? pd.arrival.ifindex (RecordKey.of r) := by
        rw [hstamp, if_pos ⟨rfl, r, hr', BEq.rfl⟩]
        intro hold
        have hzero := MulticastTracker.allows_iff.1 (hallow r hr') now hold.symm
        have := pd.minInterval_pos
        omega
      obtain ⟨-, resp, hresp, -⟩ := hchanged _ _ hnew
      rw [hout, if_neg hdel] at hresp
      cases hresp
    · rintro (hdel | hnone)
      · rw [hout, if_pos hdel]
        refine ⟨fun i k hnew => ?_, fun h => by cases h⟩
        rw [hstamp] at hnew
        split_ifs at hnew with hk
        · exact ⟨hk.1, _, rfl, hk.2⟩
        · exact absurd rfl hnew
      · have := hnone r (hsub.subset hr)
        rw [hallow r hr'] at this
        cases this

/-- **When only what went out is marked.**  Exactly when the wire delivers, or nothing was to be
marked: the message is no query, or the rate limiter allows none of the answers that are left after
suppression. -/
theorem handleQuery_marksOnlySent_iff (st : State) (σ : CacheOrder) (now wake : ℕ) (msg : Message)
    (arrival : Iface) (family : IpFamily) (p : Published) (wire : Wire) :
    MarksOnlySent st.mcTracker (handleQuery st σ now wake msg arrival family p wire).1.mcTracker
        arrival (handleQuery st σ now wake msg arrival family p wire).2 ↔
      wire.delivers arrival family = true ∨ msg.messageType ≠ .query ∨
        ∀ r ∈ applyKnownAnswers (candidateAnswers st σ now msg arrival p) msg,
          st.mcTracker.allows wake arrival.ifindex r
            (if isProbeForUs msg (p.uniqueForIface arrival) then probeDefenseInterval
              else minMulticastInterval) = false := by
  unfold handleQuery
  cases hprep : prepareResponse st σ now msg arrival family p with
  | none =>
    refine iff_of_true (marksOnlySent_self st.mcTracker arrival) (Or.inr ?_)
    rcases prepareResponse_eq_none hprep with htype | hnil
    · exact Or.inl htype
    · exact Or.inr (by rw [hnil]; simp)
  | some pd =>
    obtain ⟨htype, hans, -, harr, hfam, hprobe, -⟩ := prepareResponse_eq_some hprep
    have hmin : (if isProbeForUs msg (p.uniqueForIface arrival) then probeDefenseInterval
        else minMulticastInterval) = pd.minInterval := by
      rw [Pending.minInterval, hprobe]
    have hquery : ¬ msg.messageType ≠ .query := fun h => h htype
    rw [hmin, ← hans, ← harr, ← hfam, or_iff_right hquery]
    exact pd.respond_marksOnlySent_iff st.mcTracker wake wire

/-- A router with one IPv4 interface and no service. -/
def routerIface : Iface := ⟨"eth0", 2, some ⟨0xC0A80101, 0xFFFFFF00, 0xC0A80100⟩, none⟩

/-- The name `router.local.` -/
def routerName : Name := ⟨[[114, 111, 117, 116, 101, 114], [108, 111, 99, 97, 108]], true⟩

def routerPublished : Published :=
  ⟨routerName, [uniqueRecord routerName ttlHost (.a 0xC0A80101)], [], []⟩

def routerState : State where
  config := ⟨false, false, 4096, none, [], []⟩
  ifaces := [routerIface]
  cache := Cache.withCapacityAndMaxTtl 4096 none
  mcTracker := MulticastTracker.new

/-- The query for the router's address. -/
def routerQuery : Message := ⟨0, .query, false, [⟨routerName, .a, .in⟩], [], [], []⟩

/-- When the send fails, the address is marked although it did not go out. -/
theorem handleQuery_marks_unsent :
    ¬ MarksOnlySent routerState.mcTracker
      (handleQuery routerState (IterOrder.id _ _) 0 0 routerQuery routerIface .v4 routerPublished
        ⟨true, fun _ => false⟩).1.mcTracker routerIface
      (handleQuery routerState (IterOrder.id _ _) 0 0 routerQuery routerIface .v4 routerPublished
        ⟨true, fun _ => false⟩).2 := by
  intro h
  have hnew := h.1 2 (RecordKey.of (uniqueRecord routerName ttlHost (.a 0xC0A80101))) (by decide)
  obtain ⟨-, resp, hresp, -⟩ := hnew
  cases hresp

end Nmdns
