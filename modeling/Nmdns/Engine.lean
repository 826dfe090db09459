import Nmdns.Delay
import Nmdns.Sources

/-!
# The engine: from a datagram to a response

`src/engine.rs`: the handling of one datagram, with its admission checks, and runs of it.

* `handleDatagram`: admission, attribution, parsing, and the responder, cache or repeater;
* `Engine.run`: any sequence of datagrams and sweeps, each handled at once;
* `engine_run_frame`: the cache of a run is that of the admitted insertions (`admittedInserts`);
* `response_provenance`: where every record of every response of a run comes from.

The parser of the DNS library is a parameter.
-/

namespace Nmdns

/-- `MDNS_PORT`. -/
def mdnsPort : UInt16 := 5353

/-- `is_mdns_source`. -/
def isMdnsSource (pkt : Datagram) : Bool := pkt.sourcePort == mdnsPort

/-- The checks of `handle_datagram` on the source of a datagram. -/
def admitted (config : Resolved) (ifaces : List Iface) (pkt : Datagram) : Bool :=
  isMdnsSource pkt && !(ifaces.any fun i => i.hasAddr pkt.sourceIp) &&
    config.allowSource pkt.sourceIp

/-- The index of the interface at a position. -/
def sourceIfindex (ifaces : List Iface) (recvIdx : Option ℕ) : Option UInt32 :=
  recvIdx.bind fun idx => ifaces[idx]?.map Iface.ifindex

/-- `handle_response_msg`. -/
def handleResponseMsg (st : State) (σ : CacheOrder) (now : ℕ) (msg : Message)
    (recvIdx : Option ℕ) : State :=
  { st with cache := st.cache.ingest σ now (sourceIfindex st.ifaces recvIdx) msg.records }

/-- What the handling of a datagram leaves behind: the state, the response and the interface it went
out on, and the interfaces to which the datagram is repeated. -/
structure Outcome where
  state : State
  response : Option (Iface × Response)
  forwarded : List ℕ

/-- `handle_query_msg`. -/
def handleQueryMsg (st : State) (σ : CacheOrder) (now wake : ℕ) (msg : Message)
    (recvIdx : Option ℕ) (family : IpFamily) (p : Published) (wire : Wire) :
    State × Option (Iface × Response) :=
  match recvIdx.bind fun idx => st.ifaces[idx]? with
  | none => (st, none)
  | some arrival =>
    let (st', resp) := handleQuery st σ now wake msg arrival family p wire
    (st', resp.map fun resp => (arrival, resp))

/-- `handle_datagram`.  The clock reads `now`, and `wake` after the delay of a response. -/
def handleDatagram (parse : List UInt8 → Option Message) (st : State) (σ : CacheOrder)
    (now wake : ℕ) (pkt : Datagram) (p : Published) (wire : Wire) : Outcome :=
  if !admitted st.config st.ifaces pkt then ⟨st, none, []⟩
  else
    let recvIdx := identifyRecvIface pkt st.ifaces
    if recvIdx.isNone && !st.config.repeats then ⟨st, none, []⟩
    else
      let forwarded :=
        if st.config.repeats then forwardTargets recvIdx pkt.sourceIp st.ifaces else []
      match parse pkt.data with
      | none => ⟨st, none, forwarded⟩
      | some msg =>
        if msg.messageType = .query then
          let (st', resp) := handleQueryMsg st σ now wake msg recvIdx pkt.family p wire
          ⟨st', resp, forwarded⟩
        else ⟨handleResponseMsg st σ now msg recvIdx, none, forwarded⟩

/-- One tick of `cache_evictor`. -/
def State.sweep (st : State) (now : ℕ) : State :=
  { st with
    cache := (st.cache.evictExpired now).1
    mcTracker := st.mcTracker.pruneOlderThan now minMulticastInterval }

/-- What the engine does: it handles a datagram, or sweeps. -/
inductive EngineOp
  | datagram (σ : CacheOrder) (wake : ℕ) (pkt : Datagram) (wire : Wire)
  | sweep

/-- An operation of the engine and the reading of the clock it makes. -/
structure EngineEvent where
  time : ℕ
  op : EngineOp

/-- The state after one event. -/
def Engine.step (parse : List UInt8 → Option Message) (p : Published) (st : State)
    (ev : EngineEvent) : State :=
  match ev.op with
  | .datagram σ wake pkt wire => (handleDatagram parse st σ ev.time wake pkt p wire).state
  | .sweep => st.sweep ev.time

/-- The state after a sequence of events. -/
def Engine.run (parse : List UInt8 → Option Message) (p : Published) (st : State)
    (evs : List EngineEvent) : State :=
  evs.foldl (Engine.step parse p) st

/-- The daemon at its start: an empty cache and nothing multicast yet. -/
def Engine.start (config : Resolved) (ifaces : List Iface) : State :=
  (Daemon.start config ifaces).state

/-! ### The cache of a run -/

/-- The insertions that an event makes: those of an admitted response whose interface is known or
which is repeated, or a sweep. -/
def EngineEvent.inserts (parse : List UInt8 → Option Message) (config : Resolved)
    (ifaces : List Iface) (ev : EngineEvent) : List CacheEvent :=
  match ev.op with
  | .datagram σ _ pkt _ =>
    let recvIdx := identifyRecvIface pkt ifaces
    if !admitted config ifaces pkt then []
    else if recvIdx.isNone && !config.repeats then []
    else
      match parse pkt.data with
      | none => []
      | some msg =>
        if msg.messageType = .query then []
        else msg.records.map fun r => ⟨ev.time, .insert σ r (sourceIfindex ifaces recvIdx)⟩
  | .sweep => [⟨ev.time, .sweep⟩]

/-- All insertions and sweeps of a run. -/
def admittedInserts (parse : List UInt8 → Option Message) (config : Resolved) (ifaces : List Iface)
    (evs : List EngineEvent) : List CacheEvent :=
  evs.flatMap (EngineEvent.inserts parse config ifaces)

/-- What the handling of a datagram can come to: it is dropped, or it is repeated as configured and
is no message, a query or a response. -/
theorem handleDatagram_cases (parse : List UInt8 → Option Message) (st : State) (σ : CacheOrder)
    (now wake : ℕ) (pkt : Datagram) (p : Published) (wire : Wire) :
    ((admitted st.config st.ifaces pkt = false ∨
        ((identifyRecvIface pkt st.ifaces).isNone && !st.config.repeats) = true) ∧
      handleDatagram parse st σ now wake pkt p wire = ⟨st, none, []⟩) ∨
    admitted st.config st.ifaces pkt = true ∧
      ((identifyRecvIface pkt st.ifaces).isNone && !st.config.repeats) = false ∧
      ∃ forwarded, forwarded = (if st.config.repeats then
          forwardTargets (identifyRecvIface pkt st.ifaces) pkt.sourceIp st.ifaces else []) ∧
        (parse pkt.data = none ∧
            handleDatagram parse st σ now wake pkt p wire = ⟨st, none, forwarded⟩ ∨
          ∃ msg, parse pkt.data = some msg ∧
            (msg.messageType = .query ∧ handleDatagram parse st σ now wake pkt p wire =
              ⟨(handleQueryMsg st σ now wake msg (identifyRecvIface pkt st.ifaces) pkt.family p
                  wire).1,
                (handleQueryMsg st σ now wake msg (identifyRecvIface pkt st.ifaces) pkt.family p
                  wire).2, forwarded⟩ ∨
              msg.messageType ≠ .query ∧ handleDatagram parse st σ now wake pkt p wire =
                ⟨handleResponseMsg st σ now msg (identifyRecvIface pkt st.ifaces), none,
                  forwarded⟩)) := by
  unfold handleDatagram
  dsimp only
  by_cases hadm : admitted st.config st.ifaces pkt = true
  · rw [hadm, if_neg (by decide)]
    by_cases hrecv : ((identifyRecvIface pkt st.ifaces).isNone && !st.config.repeats) = true
    · rw [if_pos hrecv]
      exact Or.inl ⟨Or.inr hrecv, rfl⟩
    · rw [if_neg hrecv]
      refine Or.inr ⟨rfl, Bool.eq_false_iff.2 hrecv, _, rfl, ?_⟩
      cases parse pkt.data with
      | none => exact Or.inl ⟨rfl, rfl⟩
      | some msg =>
        refine Or.inr ⟨msg, rfl, ?_⟩
        by_cases htype : msg.messageType = .query
        · exact Or.inl ⟨htype, if_pos htype⟩
        · exact Or.inr ⟨htype, if_neg htype⟩
  · rw [Bool.eq_false_iff.2 hadm, if_pos (by decide)]
    exact Or.inl ⟨Or.inl rfl, rfl⟩

theorem handleQuery_frame (st : State) (σ : CacheOrder) (now wake : ℕ) (msg : Message)
    (arrival : Iface) (family : IpFamily) (p : Published) (wire : Wire) :
    (handleQuery st σ now wake msg arrival family p wire).1.cache = st.cache ∧
      (handleQuery st σ now wake msg arrival family p wire).1.config = st.config ∧
      (handleQuery st σ now wake msg arrival family p wire).1.ifaces = st.ifaces := by
  unfold handleQuery
  cases prepareResponse st σ now msg arrival family p <;> exact ⟨rfl, rfl, rfl⟩

theorem handleQueryMsg_frame (st : State) (σ : CacheOrder) (now wake : ℕ) (msg : Message)
    (recvIdx : Option ℕ) (family : IpFamily) (p : Published) (wire : Wire) :
    (handleQueryMsg st σ now wake msg recvIdx family p wire).1.cache = st.cache ∧
      (handleQueryMsg st σ now wake msg recvIdx family p wire).1.config = st.config ∧
      (handleQueryMsg st σ now wake msg recvIdx family p wire).1.ifaces = st.ifaces := by
  unfold handleQueryMsg
  cases recvIdx.bind fun idx => st.ifaces[idx]? with
  | none => exact ⟨rfl, rfl, rfl⟩
  | some arrival => exact handleQuery_frame st σ now wake msg arrival family p wire

/-- One event changes the cache by its insertions, and neither the configuration nor the
interfaces. -/
theorem engine_step_frame (parse : List UInt8 → Option Message) (p : Published) (st : State)
    (ev : EngineEvent) :
    (Engine.step parse p st ev).cache =
        st.cache.run (ev.inserts parse st.config st.ifaces) ∧
      (Engine.step parse p st ev).config = st.config ∧
      (Engine.step parse p st ev).ifaces = st.ifaces := by
  obtain ⟨t, op⟩ := ev
  cases op with
  | sweep => exact ⟨rfl, rfl, rfl⟩
  | datagram σ wake pkt wire =>
    simp only [Engine.step, EngineEvent.inserts]
    rcases handleDatagram_cases parse st σ t wake pkt p wire with
      ⟨hdrop, heq⟩ | ⟨hadm, hrecv, forwarded, -, hcases⟩
    · rw [heq]
      rcases hdrop with hadm | hrecv
      · simp [hadm]
      · simp [hrecv]
    · rw [hadm, hrecv, if_neg (by decide), if_neg (by decide)]
      rcases hcases with ⟨hparse, heq⟩ | ⟨msg, hparse, ⟨htype, heq⟩ | ⟨htype, heq⟩⟩
      · rw [heq, hparse]
        exact ⟨rfl, rfl, rfl⟩
      · rw [heq, hparse]
        dsimp only
        rw [if_pos htype]
        exact handleQueryMsg_frame st σ t wake msg _ pkt.family p wire
      · rw [heq, hparse]
        dsimp only
        rw [if_neg htype]
        exact ⟨ingest_eq_run _ _ _ _ _, rfl, rfl⟩

theorem engine_run_frame (parse : List UInt8 → Option Message) (p : Published) (st : State)
    (evs : List EngineEvent) :
    (Engine.run parse p st evs).cache =
        st.cache.run (admittedInserts parse st.config st.ifaces evs) ∧
      (Engine.run parse p st evs).config = st.config ∧
      (Engine.run parse p st evs).ifaces = st.ifaces := by
  induction evs generalizing st with
  | nil => exact ⟨rfl, rfl, rfl⟩
  | cons ev evs ih =>
    obtain ⟨hcache, hconfig, hifaces⟩ := engine_step_frame parse p st ev
    have hrun : Engine.run parse p st (ev :: evs) =
        Engine.run parse p (Engine.step parse p st ev) evs := rfl
    obtain ⟨ih₁, ih₂, ih₃⟩ := ih (Engine.step parse p st ev)
    rw [hrun]
    refine ⟨?_, by rw [ih₂, hconfig], by rw [ih₃, hifaces]⟩
    rw [ih₁, hcache, hconfig, hifaces, ← cache_run_append]
    rfl

/-! ### Provenance -/

/-- The record was carried at `t` by a datagram of the run from port 5353, from an address that is
none of the daemon's own and that the filters allow, which parses as a response; `src` is the
interface it is attributed to. -/
def CarriedBy (parse : List UInt8 → Option Message) (config : Resolved) (ifaces : List Iface)
    (evs : List EngineEvent) (t : ℕ) (r : Record) (src : Option UInt32) : Prop :=
  ∃ σ wake pkt wire msg, (⟨t, .datagram σ wake pkt wire⟩ : EngineEvent) ∈ evs ∧
    pkt.sourcePort = mdnsPort ∧ (∀ i ∈ ifaces, i.hasAddr pkt.sourceIp = false) ∧
    config.allowSource pkt.sourceIp = true ∧ parse pkt.data = some msg ∧
    msg.messageType = .response ∧ r ∈ msg.records ∧
    src = sourceIfindex ifaces (identifyRecvIface pkt ifaces)

/-- Every insertion of a run was carried by an admitted response. -/
theorem carriedBy_of_mem {parse : List UInt8 → Option Message} {config : Resolved}
    {ifaces : List Iface} {evs : List EngineEvent} {t : ℕ} {σ : CacheOrder} {r : Record}
    {src : Option UInt32}
    (h : (⟨t, .insert σ r src⟩ : CacheEvent) ∈ admittedInserts parse config ifaces evs) :
    CarriedBy parse config ifaces evs t r src := by
  obtain ⟨⟨t', op⟩, hev, h⟩ := List.mem_flatMap.1 h
  cases op with
  | sweep =>
    cases List.mem_singleton.1 h
  | datagram σ' wake pkt wire =>
    unfold EngineEvent.inserts at h
    dsimp only at h
    split_ifs at h with hadm hrecv
    · cases h
    · cases h
    · cases hparse : parse pkt.data with
      | none =>
        rw [hparse] at h
        cases h
      | some msg =>
        rw [hparse] at h
        dsimp only at h
        split_ifs at h with htype
        · cases h
        · obtain ⟨r', hr', heq⟩ := List.mem_map.1 h
          cases heq
          have htype' : msg.messageType = .response := by
            cases hm : msg.messageType
            · exact absurd hm htype
            · rfl
          simp only [Bool.not_eq_true', Bool.not_eq_false, admitted, Bool.and_eq_true,
            Bool.not_eq_true', List.any_eq_false, isMdnsSource, beq_iff_eq] at hadm
          obtain ⟨⟨hport, hown⟩, hallow⟩ := hadm
          exact ⟨σ, wake, pkt, wire, msg, hev, hport, fun i hi => by simpa using hown i hi, hallow,
            hparse, htype', hr', rfl⟩

/-- `r` is relayed at `now` to interface `i` from the admitted insertions of the run: the last one
of its key has not run out, some insertion of the key is attributed to another monitored interface,
the cache-flush bit is clear, and the TTL is positive and at most the capped TTL of the last
insertion. -/
def RelayedFrom (parse : List UInt8 → Option Message) (config : Resolved) (ifaces : List Iface)
    (evs : List EngineEvent) (now : ℕ) (i : UInt32) (r : Record) : Prop :=
  (∃ pre t σ r₀ src post,
    admittedInserts parse config ifaces evs = pre ++ ⟨t, .insert σ r₀ src⟩ :: post ∧
    CarriedBy parse config ifaces evs t r₀ src ∧ RecordKey.of r == RecordKey.of r₀ ∧
    (∀ ev ∈ post, ∀ r', ev.record? = some r' → ¬ RecordKey.of r == RecordKey.of r') ∧
    now < t + fromSecs (cappedSecs config.cacheMaxTtlSecs r₀.ttl) ∧
    1 ≤ r.ttl.toNat ∧ r.ttl.toNat ≤ cappedSecs config.cacheMaxTtlSecs r₀.ttl) ∧
  (∃ t r' j, CarriedBy parse config ifaces evs t r' (some j) ∧
    RecordKey.of r == RecordKey.of r' ∧ j ≠ i ∧ ∃ iface ∈ ifaces, iface.ifindex = j) ∧
  r.mdnsCacheFlush = false

theorem ceilSecs_bounds {t now c : ℕ} (hle : t ≤ now) (hlt : now < t + fromSecs c) :
    1 ≤ ceilSecs (t + fromSecs c - now) ∧ ceilSecs (t + fromSecs c - now) ≤ c := by
  unfold ceilSecs fromSecs at *
  omega

/-- The interface that a carried record is attributed to is monitored. -/
theorem CarriedBy.monitored {parse : List UInt8 → Option Message} {config : Resolved}
    {ifaces : List Iface} {evs : List EngineEvent} {t : ℕ} {r : Record} {j : UInt32}
    (h : CarriedBy parse config ifaces evs t r (some j)) : ∃ iface ∈ ifaces, iface.ifindex = j := by
  obtain ⟨σ, wake, pkt, wire, msg, -, -, -, -, -, -, -, hsrc⟩ := h
  obtain ⟨idx, -, hj⟩ := Option.bind_eq_some_iff.1 hsrc.symm
  obtain ⟨iface, hiface, rfl⟩ := Option.map_eq_some_iff.1 hj
  exact ⟨iface, List.mem_of_getElem? hiface, rfl⟩

/-- What the cache of a run lets the responder relay. -/
theorem relayedFrom_of_relayable {parse : List UInt8 → Option Message} {config : Resolved}
    {ifaces : List Iface} (hcap : CapOk config.cacheMaxTtlSecs) {evs : List EngineEvent} {now : ℕ}
    (hnow : ∀ ev ∈ evs, ev.time ≤ now) {i : UInt32} {r : Record}
    (h : ((Cache.withCapacityAndMaxTtl config.maxCacheEntries config.cacheMaxTtlSecs).run
      (admittedInserts parse config ifaces evs)).Relayable now i r) :
    RelayedFrom parse config ifaces evs now i r := by
  obtain ⟨k, e, s, hfind, ⟨j, hj, hji⟩, hs, rfl⟩ := h
  have hkey : RecordKey.of { s with mdnsCacheFlush := false } == k := by
    rw [RecordKey.of_mdnsCacheFlush, recordWithRemainingTtl_key hs]
    exact Cache.keyed _ k e hfind
  obtain ⟨r₀, t, hk, ⟨pre, σ, src, post, hsplit, -, hpost⟩, hface⟩ := find?_run_standing hcap hfind
  obtain ⟨t', σ', r', hmem', hk'⟩ := find?_run_source hcap hfind hj
  have hmem : (⟨t, .insert σ r₀ src⟩ : CacheEvent) ∈ admittedInserts parse config ifaces evs := by
    rw [hsplit]
    exact List.mem_append_right _ List.mem_cons_self
  have hcarried := carriedBy_of_mem hmem
  have hcarried' := carriedBy_of_mem hmem'
  have hle : t ≤ now := by
    obtain ⟨σ, wake, pkt, wire, msg, hev, -⟩ := hcarried
    exact hnow _ hev
  obtain ⟨hlt, -, httl⟩ := (recordWithRemainingTtl_stored hcap hface hle).1 hs
  obtain ⟨hone, hmax⟩ := ceilSecs_bounds hle hlt
  refine ⟨⟨pre, t, σ, r₀, src, post, hsplit, hcarried, BEq.trans hkey hk, ?_, hlt, ?_, ?_⟩,
    ⟨t', r', j, hcarried', BEq.trans hkey hk', hji, hcarried'.monitored⟩, rfl⟩
  · -- a later insertion of the key would supersede this one
    intro ev hev r'' hr'' hkk
    refine hpost ev hev ?_
    unfold CacheEvent.record? at hr''
    unfold Supersedes
    split at hr''
    · cases hr''
      exact Or.inl (BEq.trans (BEq.symm hkk) (BEq.trans hkey hk))
    · cases hr''
  · show 1 ≤ s.ttl.toNat
    rw [httl]
    exact hone
  · show s.ttl.toNat ≤ _
    rw [httl]
    exact hmax

/-- A response is made of records that were prepared for it, without repetition. -/
theorem handleQuery_response {st : State} {σ : CacheOrder} {now wake : ℕ} {msg : Message}
    {arrival : Iface} {family : IpFamily} {p : Published} {wire : Wire} {resp : Response}
    (h : (handleQuery st σ now wake msg arrival family p wire).2 = some resp) :
    (resp.records.Pairwise fun r s => (RecordKey.of r == RecordKey.of s) = false) ∧
      ∃ pd, prepareResponse st σ now msg arrival family p = some pd ∧
        resp.records ⊆ pd.answers ++ pd.additionals := by
  unfold handleQuery at h
  cases hprep : prepareResponse st σ now msg arrival family p with
  | none =>
    rw [hprep] at h
    cases h
  | some pd =>
    rw [hprep] at h
    dsimp only at h
    rcases pd.respond_cases st.mcTracker wake wire with
      ⟨hout, -⟩ | ⟨answers, extra, -, hsub, hsub', -, -, hout⟩
    · rw [hout] at h
      cases h
    · rw [hout] at h
      split_ifs at h
      cases h
      have hsublist : (answers ++ extra).Sublist (pd.answers ++ pd.additionals) := hsub.append hsub'
      refine ⟨List.Pairwise.sublist hsublist ?_, pd, rfl, hsublist.subset⟩
      obtain ⟨-, -, hadd, -⟩ := prepareResponse_eq_some hprep
      obtain ⟨hdist, hdisj⟩ := cachedAdditionals_distinct st σ now arrival pd.answers
      rw [List.pairwise_append, hadd]
      exact ⟨answers_distinct hprep, hdist, hdisj⟩

/-- A datagram is answered only as a query that was attributed to an interface. -/
theorem handleDatagram_response {parse : List UInt8 → Option Message} {st : State} {σ : CacheOrder}
    {now wake : ℕ} {pkt : Datagram} {p : Published} {wire : Wire} {arrival : Iface}
    {resp : Response}
    (h : (handleDatagram parse st σ now wake pkt p wire).response = some (arrival, resp)) :
    (∃ idx, identifyRecvIface pkt st.ifaces = some idx ∧ st.ifaces[idx]? = some arrival) ∧
      ∃ msg, (handleQuery st σ now wake msg arrival pkt.family p wire).2 = some resp := by
  rcases handleDatagram_cases parse st σ now wake pkt p wire with
    ⟨-, heq⟩ | ⟨-, -, forwarded, -, ⟨-, heq⟩ | ⟨msg, -, ⟨-, heq⟩ | ⟨-, heq⟩⟩⟩
  · rw [heq] at h
    cases h
  · rw [heq] at h
    cases h
  · rw [heq] at h
    unfold handleQueryMsg at h
    cases hidx : (identifyRecvIface pkt st.ifaces).bind fun idx => st.ifaces[idx]? with
    | none =>
      rw [hidx] at h
      cases h
    | some iface =>
      rw [hidx] at h
      obtain ⟨resp', hresp', heq⟩ := Option.map_eq_some_iff.1 h
      cases heq
      exact ⟨Option.bind_eq_some_iff.1 hidx, msg, hresp'⟩
  · rw [heq] at h
    cases h

/-- **Provenance of every response.**  In every run from the empty cache, each record of a response
sent on an interface is published on it, or is relayed from the admitted insertions of the run; and
no key occurs twice in the response. -/
theorem response_provenance {parse : List UInt8 → Option Message} {config : Resolved}
    {ifaces : List Iface} {p : Published} (hp : p.BuiltFor ifaces)
    (hcap : CapOk config.cacheMaxTtlSecs) {evs : List EngineEvent} {now : ℕ}
    (hnow : ∀ ev ∈ evs, ev.time ≤ now) {σ : CacheOrder} {wake : ℕ} {pkt : Datagram} {wire : Wire}
    {arrival : Iface} {resp : Response}
    (h : (handleDatagram parse (Engine.run parse p (Engine.start config ifaces) evs) σ now wake pkt
      p wire).response = some (arrival, resp)) :
    arrival ∈ ifaces ∧
      (∀ r ∈ resp.records, r ∈ p.recordsFor arrival ∨
        RelayedFrom parse config ifaces evs now arrival.ifindex r) ∧
      resp.records.Pairwise fun r s => (RecordKey.of r == RecordKey.of s) = false := by
  obtain ⟨hcache, -, hifaces⟩ := engine_run_frame parse p (Engine.start config ifaces) evs
  obtain ⟨⟨idx, -, hget⟩, msg, hresp⟩ := handleDatagram_response h
  have harr := List.mem_of_getElem? hget
  obtain ⟨hdistinct, pd, hprep, hsub⟩ := handleQuery_response hresp
  rw [hifaces] at harr
  refine ⟨harr, fun r hr => ?_, hdistinct⟩
  rcases mem_prepared hp.wellFormed hprep (hsub hr) with hpub | ⟨-, hrel⟩
  · exact Or.inl hpub
  · rw [hcache] at hrel
    exact Or.inr (relayedFrom_of_relayable hcap hnow hrel)

/-- The announcement of the printer on the wire. -/
def printerAnnouncement : List UInt8 :=
  [0, 0, 0x84, 0, 0, 0, 0, 1, 0, 0, 0, 0, 1, 112, 5, 108, 111, 99, 97, 108, 0, 0, 1, 0x80, 1,
    0, 0, 0, 120, 0, 4, 0xC0, 0xA8, 0x14, 0x32]

/-- The question for the address of the printer on the wire. -/
def printerQuestion : List UInt8 :=
  [0, 0, 0, 0, 0, 1, 0, 0, 0, 0, 0, 0, 1, 112, 5, 108, 111, 99, 97, 108, 0, 0, 1, 0, 1]

/-- The parser on these two messages. -/
def printerParse (data : List UInt8) : Option Message :=
  if data = printerAnnouncement then some ⟨0, .response, false, [], [printerAddress], [], []⟩
  else if data = printerQuestion then
    some ⟨0, .query, false, [⟨printerAddress.name, .a, .in⟩], [], [], []⟩
  else none

/-- The printer announces itself on the second interface of the router. -/
def printerEvents : List EngineEvent :=
  [⟨0, .datagram (IterOrder.id _ _) 0
    ⟨printerAnnouncement, .v4 0x0A000009, 5353, .v4, some 3⟩ wireOk⟩]

theorem response_provenance_printer :
    RelayedFrom printerParse crossedState.config crossedState.ifaces printerEvents (fromMillis 10) 2
      relayedPrinter := by
  have hresp : (handleDatagram printerParse (Engine.run printerParse crossedPublished
      (Engine.start crossedState.config crossedState.ifaces) printerEvents) (IterOrder.id _ _)
      (fromMillis 10) (fromMillis 60) ⟨printerQuestion, .v4 0xC0A80109, 5353, .v4, some 2⟩
      crossedPublished wireOk).response = some (routerIface, ⟨0, [relayedPrinter], []⟩) := by
    decide +kernel
  obtain ⟨-, hrecords, -⟩ := response_provenance crossedPublished_builtFor capOk_none
    (by decide) hresp
  rcases hrecords relayedPrinter List.mem_cons_self with hpub | hrel
  · have hall := Published.mem_all_of_mem_recordsFor crossedPublished_builtFor.wellFormed hpub
    rcases List.mem_pair.1 hall with h | h <;> exact absurd h (by decide)
  · exact hrel

end Nmdns
