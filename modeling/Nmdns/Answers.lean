import Nmdns.Responder

/-!
# Whose records are answered, and which of them can be asked for

* `candidateAnswers_published_first`: a published record is never answered in the form in which a
  peer sent it;
* `chosen_owned_or_relayed`: under a name that the daemon owns, an answer or additional is published
  by the daemon or was learned on another interface;
* `Answerable`, `announced_answerable_iff`: when every announced record can be asked for.
-/

namespace Nmdns

/-! ### Names that the daemon owns -/

section Owned

variable {st : State} {σ : CacheOrder} {now : ℕ} {arrival : Iface} {p : Published} {r : Record}

/-- Equal records match the same questions. -/
theorem recordMatches_congr {r s : Record} (h : RecordKey.of r == RecordKey.of s) (name : Name)
    (rtype : RecordType) : recordMatches r name rtype = recordMatches s name rtype := by
  obtain ⟨hname, htype, -⟩ := RecordKey.of_beq_iff.1 h
  unfold recordMatches
  rw [BEq.congr_left hname, htype]

/-- **The published record comes first**: an answer whose key is published on the interface is the
published record, not what a peer sent. -/
theorem candidateAnswers_published_first (hw : p.WellFormed) {msg : Message}
    (hr : r ∈ candidateAnswers st σ now msg arrival p) {v : Record} (hv : v ∈ p.recordsFor arrival)
    (hvr : RecordKey.of v == RecordKey.of r) : r ∈ p.recordsFor arrival := by
  -- the invariant of the loop over the questions
  have hloop : ∀ (qs : List Question) (acc : List Record × List RecordKey),
      (∀ s ∈ acc.1, RecordKey.of v == RecordKey.of s → s ∈ p.recordsFor arrival) →
      ∀ s ∈ (qs.foldl (answerQuestion st σ now arrival p) acc).1,
        RecordKey.of v == RecordKey.of s → s ∈ p.recordsFor arrival := by
    intro qs
    induction qs with
    | nil => exact fun acc h => h
    | cons q qs ih =>
      intro acc hacc
      refine ih _ ?_
      set own := (p.answer q.name q.queryType).filter (belongsTo p arrival) with hown
      have hpub : ∀ s ∈ (pushUnique acc own).1, RecordKey.of v == RecordKey.of s →
          s ∈ p.recordsFor arrival := by
        intro s hs hvs
        rcases Unique.mem_pushAll hs with hs | ⟨hs, -⟩
        · exact hacc s hs hvs
        · exact ((mem_filter_belongsTo hw).1 hs).1
      intro s hs hvs
      unfold answerQuestion at hs
      dsimp only at hs
      split_ifs at hs
      · rcases Unique.mem_pushAll hs with hs | ⟨hs, hfresh⟩
        · exact hpub s hs hvs
        · -- `v` matches the question too, so its key was seen before the cached records
          have hm := (mem_cachedRecords.1 hs).2
          rw [← recordMatches_congr hvs] at hm
          have hseen : ((pushUnique acc own).2.any fun k => k == RecordKey.of v) = true :=
            Unique.seen_pushAll (Or.inr ((mem_filter_belongsTo hw).2 ⟨hv, hm⟩))
          obtain ⟨k, hk, hkv⟩ := List.any_eq_true.1 hseen
          exact absurd (BEq.trans hkv hvs) (List.any_eq_false.1 hfresh k hk)
      · exact hpub s hs hvs
  exact hloop msg.queries ([], []) (by simp) r hr hvr

/-- Two records have the same name, type and class. -/
def SameRRset (r u : Record) : Prop :=
  r.name == u.name ∧ r.recordType = u.recordType ∧ r.dnsClass = u.dnsClass

/-- **Under an owned name.**  Let `u` be a unique record published on the arrival interface.  A
record with its name, type and class that is chosen as an answer or an additional is a unique record
published on that interface, or a live record learned on another interface, which is relayed only
when the cache may answer and without the cache-flush bit; among the answers, such a record differs
from all published ones. -/
theorem chosen_owned_or_relayed (hp : p.BuiltFor st.ifaces) {msg : Message} {u : Record}
    (hu : u ∈ p.uniqueForIface arrival) (hru : SameRRset r u)
    (hr : r ∈ candidateAnswers st σ now msg arrival p ∨
      ∃ answers, r ∈ cachedAdditionals st σ now answers arrival) :
    r ∈ p.uniqueForIface arrival ∨
      (st.config.answerFromCache = true ∧ st.cache.Relayable now arrival.ifindex r ∧
        r.mdnsCacheFlush = false ∧
        (r ∈ candidateAnswers st σ now msg arrival p →
          ∀ v ∈ p.recordsFor arrival, ¬ v == r)) := by
  have hw := hp.wellFormed
  have hown : r ∈ p.recordsFor arrival → r ∈ p.uniqueForIface arrival := by
    intro h
    rcases Published.mem_recordsFor.1 h with h | h
    · exact h
    · -- a shared record is a pointer, and no unique record is
      have hptr := (Published.shared_of_mem_sharedRecords hw h).2
      exact absurd (hru.2.1 ▸ hptr) (Published.unique_of_mem_uniqueForIface hw hu).2
  by_cases hpub : r ∈ p.recordsFor arrival
  · exact Or.inl (hown hpub)
  · right
    have hrelay : st.config.answerFromCache = true ∧
        st.cache.Relayable now arrival.ifindex r := by
      rcases hr with hr | ⟨answers, hr⟩
      · exact (mem_candidateAnswers hw hr).1.resolve_left hpub
      · exact mem_cachedAdditionals hr
    refine ⟨hrelay.1, hrelay.2, hrelay.2.mdnsCacheFlush_eq, fun hr' v hv hvr => hpub ?_⟩
    rw [Record.beq_eq] at hvr
    exact candidateAnswers_published_first hw hr' hv hvr

end Owned

/-- The name library on texts without escapes: labels between dots. -/
def plainApi : NameApi Unit where
  fromStr s := .ok ⟨((s.toList.splitOn '.').filter fun l => !l.isEmpty).map fun l =>
    asBytes (String.ofList l), endsInUnescapedDot s.toList⟩
  fromLabels ls := .ok ⟨ls, true⟩
  appendName m n := .ok ⟨m.labels ++ n.labels, n.isFqdn⟩

theorem plainApi_lawful : plainApi.Lawful where
  fromStr_isFqdn := by
    intro s n h _
    cases h
    rfl
  appendName_isFqdn := by
    intro m n l h
    cases h
    rfl

/-- A second interface of the router. -/
def lanIface : Iface := ⟨"eth1", 3, some ⟨0x0A000001, 0xFFFFFF00, 0x0A000000⟩, none⟩

/-- What the router publishes on its two interfaces. -/
def crossedPublished : Published :=
  ⟨routerName, [uniqueRecord routerName ttlHost (.a 0xC0A80101),
    uniqueRecord routerName ttlHost (.a 0x0A000001)], [], []⟩

theorem crossedPublished_builtFor : crossedPublished.BuiltFor [routerIface, lanIface] :=
  ⟨Unit, plainApi, routerName, [], rfl⟩

/-- Somebody else's address under the name of the router. -/
def foreignAddress : Record := uniqueRecord routerName ttlHost (.a 0x0A000009)

/-- The router after it has heard the foreign address on its second interface. -/
def crossedState : State where
  config := ⟨false, true, 4096, none, [], []⟩
  ifaces := [routerIface, lanIface]
  cache := (Cache.withCapacityAndMaxTtl 4096 none).ingest (IterOrder.id _ _) 0 (some 3)
    [foreignAddress]
  mcTracker := MulticastTracker.new

/-- The foreign address as it is relayed. -/
def relayedAddress : Record := { foreignAddress with mdnsCacheFlush := false }

theorem candidateAnswers_crossedState :
    candidateAnswers crossedState (IterOrder.id _ _) 0 routerQuery routerIface crossedPublished =
      [uniqueRecord routerName ttlHost (.a 0xC0A80101), relayedAddress] := by
  decide

/-- The query for the router's address is answered with the foreign address as well. -/
theorem candidateAnswers_mixes_foreign :
    crossedPublished.BuiltFor crossedState.ifaces ∧
      relayedAddress ∈ candidateAnswers crossedState (IterOrder.id _ _) 0 routerQuery routerIface
        crossedPublished ∧
      (∃ u ∈ crossedPublished.uniqueForIface routerIface, SameRRset relayedAddress u) ∧
      ∀ v ∈ crossedPublished.uniqueForIface routerIface, ¬ v == relayedAddress := by
  refine ⟨crossedPublished_builtFor, ?_,
    ⟨uniqueRecord routerName ttlHost (.a 0xC0A80101), List.mem_cons_self, ?_⟩, ?_⟩
  · rw [candidateAnswers_crossedState]
    exact List.mem_cons_of_mem _ List.mem_cons_self
  · exact ⟨by decide, rfl, rfl⟩
  · decide

theorem chosen_owned_or_relayed_foreign :
    relayedAddress ∈ crossedPublished.uniqueForIface routerIface ∨
      (crossedState.config.answerFromCache = true ∧
        crossedState.cache.Relayable 0 routerIface.ifindex relayedAddress ∧
        relayedAddress.mdnsCacheFlush = false ∧
        (relayedAddress ∈ candidateAnswers crossedState (IterOrder.id _ _) 0 routerQuery
            routerIface crossedPublished →
          ∀ v ∈ crossedPublished.recordsFor routerIface, ¬ v == relayedAddress)) := by
  have hmem : relayedAddress ∈ candidateAnswers crossedState (IterOrder.id _ _) 0 routerQuery
      routerIface crossedPublished := by
    rw [candidateAnswers_crossedState]
    exact List.mem_cons_of_mem _ List.mem_cons_self
  have hrr : SameRRset relayedAddress (uniqueRecord routerName ttlHost (.a 0xC0A80101)) :=
    ⟨by decide, rfl, rfl⟩
  exact chosen_owned_or_relayed crossedPublished_builtFor List.mem_cons_self hrr (Or.inl hmem)

/-! ### Announced records and questions for them -/

/-- A name as it is decoded from the wire: always fully qualified. -/
def Name.decoded (n : Name) : Name := { n with isFqdn := true }

/-- `r` can be asked for on `i`: a query for its decoded name and its type, or for any type, has it
among the candidate answers, with its TTL and cache-flush bit. -/
def Answerable (p : Published) (i : Iface) (r : Record) : Prop :=
  ∀ (st : State) (σ : CacheOrder) (now : ℕ) (msg : Message) (qtype : RecordType)
    (qclass : DNSClass), msg.queries = [⟨r.name.decoded, qtype, qclass⟩] →
    qtype = r.recordType ∨ qtype = .any →
    ∃ s ∈ candidateAnswers st σ now msg i p, s == r ∧ s.ttl = r.ttl ∧
      s.mdnsCacheFlush = r.mdnsCacheFlush

/-- The TTL of a published record by its type. -/
def publishedTtl : RecordType → UInt32
  | .a | .aaaa | .srv => ttlHost
  | _ => ttlService

section Answerable

variable {p : Published} {i : Iface} {r : Record}

/-- The type of a published record determines its TTL and its cache-flush bit. -/
theorem ttl_of_mem_all (hw : p.WellFormed) (h : r ∈ p.all) :
    r.ttl = publishedTtl r.recordType ∧ r.mdnsCacheFlush = (r.recordType != .ptr) := by
  rcases Published.mem_all_cases hw h with ⟨addr, rfl⟩ | ⟨addr, rfl⟩ | ⟨s, hs, hr⟩
  · exact ⟨rfl, rfl⟩
  · exact ⟨rfl, rfl⟩
  · obtain ⟨sc, metaName, svcType, instanceName, target, rfl⟩ := hw.services s hs
    simp only [List.mem_cons, List.not_mem_nil, or_false] at hr
    rcases hr with rfl | rfl | rfl | rfl <;> exact ⟨rfl, rfl⟩

theorem ttl_of_mem_recordsFor (hw : p.WellFormed) (h : r ∈ p.recordsFor i) :
    r.ttl = publishedTtl r.recordType ∧ r.mdnsCacheFlush = (r.recordType != .ptr) :=
  ttl_of_mem_all hw (Published.mem_all_of_mem_recordsFor hw h)

/-- A published record can be asked for exactly when its name is fully qualified. -/
theorem answerable_iff_isFqdn (hw : p.WellFormed) (hr : r ∈ p.recordsFor i) :
    Answerable p i r ↔ r.name.isFqdn = true := by
  constructor
  · intro h
    -- an answer matches the decoded name, so it is fully qualified, and so is `r`
    obtain ⟨s, hs, hsr, -⟩ := h routerState (IterOrder.id _ _) 0
      ⟨0, .query, false, [⟨r.name.decoded, .any, .in⟩], [], [], []⟩ .any .in rfl (Or.inr rfl)
    obtain ⟨-, q, hq, hm⟩ := mem_candidateAnswers hw hs
    rw [List.mem_singleton.1 hq, Published.recordMatches_iff, Name.beq_iff] at hm
    have hfq : true = s.name.isFqdn := congrArg Name.isFqdn hm.1
    rw [Record.beq_eq, RecordKey.beq_iff] at hsr
    have hsame : s.name.isFqdn = r.name.isFqdn := congrArg (fun k => k.name.isFqdn) hsr
    rw [← hsame, ← hfq]
  · intro hfq st σ now msg qtype qclass hq htype
    have hdec : r.name.decoded = r.name := by
      show ({ r.name with isFqdn := true } : Name) = r.name
      rw [← hfq]
    have hm : recordMatches r r.name.decoded qtype = true := by
      rw [Published.recordMatches_iff, hdec]
      exact ⟨BEq.rfl, htype.symm⟩
    have hown := (mem_filter_belongsTo hw).2 ⟨hr, hm⟩
    -- the published answers of the only question are pushed before anything else
    obtain hseed | ⟨s, hs, hsr⟩ :=
      Unique.exists_mem_pushAll (Unique.coherent_seed RecordKey.of []) hown
    · cases hseed
    · have hmem : s ∈ candidateAnswers st σ now msg i p := by
        rw [candidateAnswers_eq, hq, List.flatMap_singleton, offeredFor, pushUnique,
          Unique.pushAll_append]
        exact Unique.subset_pushAll _ _ hs
      have hspub : s ∈ p.recordsFor i := by
        rcases Unique.mem_pushAll hs with hs | ⟨hs, -⟩
        · cases hs
        · exact ((mem_filter_belongsTo hw).1 hs).1
      obtain ⟨-, htype', -⟩ := RecordKey.of_beq_iff.1 hsr
      obtain ⟨hst, hsf⟩ := ttl_of_mem_recordsFor hw hspub
      obtain ⟨hrt, hrf⟩ := ttl_of_mem_recordsFor hw hr
      exact ⟨s, hmem, by rw [Record.beq_eq]; exact hsr, by rw [hst, hrt, htype'],
        by rw [hsf, hrf, htype']⟩

end Answerable

section Announced

variable {ε : Type} {api : NameApi ε} {hostname : Name} {services : List ServiceConfig}
  {ifaces : List Iface} {i : Iface} {p : Published}

/-- What passes `validate` can be built for any interfaces. -/
theorem exists_build_of_validate (h : validate api hostname services = .ok ())
    (ifaces : List Iface) : ∃ p, build api hostname services ifaces = .ok p := by
  obtain ⟨p₀, hb⟩ : ∃ p₀, build api hostname services [] = .ok p₀ := by
    unfold validate at h
    cases hb : build api hostname services [] with
    | error e =>
      rw [hb] at h
      cases h
    | ok p₀ => exact ⟨p₀, rfl⟩
  -- the interfaces only enter the host records
  obtain ⟨metaName, hmeta, hb⟩ := Except.bind_eq_ok_iff.1 hb
  obtain ⟨svcRecs, hsvc, -⟩ := Except.bind_eq_ok_iff.1 hb
  exact ⟨_, Except.bind_eq_ok_iff.2 ⟨metaName, hmeta,
    Except.bind_eq_ok_iff.2 ⟨svcRecs, hsvc, rfl⟩⟩⟩

/-- The host records of an interface of the list: one for each of its addresses. -/
theorem exists_hostRecord_iff (hb : build api hostname services ifaces = .ok p) (hi : i ∈ ifaces) :
    (∃ r, r ∈ p.hostRecordsForIface i) ↔ ¬ (i.addrV4 = none ∧ i.addrV6 = none) := by
  have hw : p.WellFormed := Published.BuiltFor.wellFormed ⟨ε, api, hostname, services, hb⟩
  obtain ⟨hname, hA, hAaaa, -⟩ := build_ok hb
  constructor
  · rintro ⟨r, hr⟩ ⟨h4, h6⟩
    rcases (Published.mem_hostRecordsForIface hw).1 hr with ⟨-, addr, h, -⟩ | ⟨-, addr, h, -⟩
    · rw [h4] at h
      cases h
    · rw [h6] at h
      cases h
  · intro h
    cases h4 : i.addrV4 with
    | some addr =>
      refine ⟨_, (Published.mem_hostRecordsForIface hw).2 (Or.inl ⟨?_, addr, h4, rfl⟩)⟩
      rw [hA, hname]
      exact List.mem_map.2 ⟨addr, List.mem_filterMap.2 ⟨i, hi, h4⟩, rfl⟩
    | none =>
      cases h6 : i.addrV6 with
      | some addr =>
        refine ⟨_, (Published.mem_hostRecordsForIface hw).2 (Or.inr ⟨?_, addr, h6, rfl⟩)⟩
        rw [hAaaa, hname]
        exact List.mem_map.2 ⟨addr, List.mem_filterMap.2 ⟨i, hi, h6⟩, rfl⟩
      | none => exact absurd ⟨h4, h6⟩ h

/-- The texts that the library takes for fully qualified names. -/
theorem isFqdn_iff_qualifies (hapi : api.Lawful) {text : String} {n : Name}
    (h : api.fromStr text = .ok n) : n.isFqdn = true ↔ api.Qualifies text := by
  unfold NameApi.Qualifies
  split_ifs with hopen
  · constructor
    · exact fun hn => ⟨n, h, hn⟩
    · rintro ⟨m, hm, hfq⟩
      rw [h] at hm
      cases hm
      exact hfq
  · rw [hapi.fromStr_isFqdn text n h (Bool.not_eq_true _ ▸ hopen)]

/-- The names of a service instance are fully qualified exactly when its service type is; the meta
query name always is. -/
theorem isFqdn_of_mem_service (hapi : api.Lawful) {metaName : Name} {sc : ServiceConfig}
    {s : ServiceRecords} (hmeta : api.fromStr "_services._dns-sd._udp.local." = .ok metaName)
    (h : buildService api hostname metaName sc = .ok s) :
    (s.ptrTypeToInstance.name.isFqdn = true ↔ api.Qualifies sc.service) ∧
      s.ptrMetaToType.name.isFqdn = true ∧
      (s.srv.name.isFqdn = true ↔ api.Qualifies sc.service) ∧
      (s.txt.name.isFqdn = true ↔ api.Qualifies sc.service) := by
  obtain ⟨svcType, label, instanceName, target, hsvc, -, happ, rfl⟩ := buildService_ok h
  have htype : svcType.isFqdn = true ↔ api.Qualifies sc.service := isFqdn_iff_qualifies hapi hsvc
  have hinst : instanceName.isFqdn = true ↔ api.Qualifies sc.service := by
    rw [hapi.appendName_isFqdn _ _ _ happ]
    exact htype
  have hmeta' : metaName.isFqdn = true := by
    rw [hapi.fromStr_isFqdn _ _ hmeta (by decide)]
    decide
  exact ⟨htype, hmeta', hinst, hinst⟩

/-- When all names published on an interface are fully qualified. -/
theorem forall_isFqdn_iff (hapi : api.Lawful) (hb : build api hostname services ifaces = .ok p)
    (hi : i ∈ ifaces) :
    (∀ r ∈ p.recordsFor i, r.name.isFqdn = true) ↔
      (∀ sc ∈ services, api.Qualifies sc.service) ∧
        (hostname.isFqdn = true ∨ (i.addrV4 = none ∧ i.addrV6 = none)) := by
  have hw : p.WellFormed := Published.BuiltFor.wellFormed ⟨ε, api, hostname, services, hb⟩
  obtain ⟨hname, -, -, metaName, hmeta, hin, hout⟩ := build_ok hb
  have hhost : ∀ r ∈ p.hostRecordsForIface i, r.name = hostname := by
    intro r hr
    rw [← hname]
    rcases (Published.mem_hostRecordsForIface hw).1 hr with
      ⟨-, addr, -, rfl⟩ | ⟨-, addr, -, rfl⟩ <;> rfl
  constructor
  · intro hall
    refine ⟨fun sc hsc => ?_, ?_⟩
    · obtain ⟨s, hs, hbs⟩ := hin sc hsc
      refine (isFqdn_of_mem_service hapi hmeta hbs).1.1 ?_
      exact hall _ (List.mem_append_right _ (List.mem_flatMap.2 ⟨s, hs, List.mem_cons_self⟩))
    · by_cases haddr : i.addrV4 = none ∧ i.addrV6 = none
      · exact Or.inr haddr
      · obtain ⟨r, hr⟩ := (exists_hostRecord_iff hb hi).2 haddr
        left
        rw [← hhost r hr]
        exact hall r (List.mem_append_left _ hr)
  · rintro ⟨hsvc, hhostname⟩ r hr
    rcases List.mem_append.1 hr with hr | hr
    · rw [hhost r hr]
      exact hhostname.resolve_right ((exists_hostRecord_iff hb hi).1 ⟨r, hr⟩)
    · obtain ⟨s, hs, hr⟩ := List.mem_flatMap.1 hr
      obtain ⟨sc, hsc, hbs⟩ := hout s hs
      obtain ⟨h₁, h₂, h₃, h₄⟩ := isFqdn_of_mem_service hapi hmeta hbs
      simp only [List.mem_cons, List.not_mem_nil, or_false] at hr
      rcases hr with rfl | rfl | rfl | rfl
      · exact h₁.2 (hsvc sc hsc)
      · exact h₂
      · exact h₃.2 (hsvc sc hsc)
      · exact h₄.2 (hsvc sc hsc)

/-- **Announced implies answerable, exactly when**: every service type is the text of a fully
qualified name, and the host name is one or the interface has no address. -/
theorem announced_answerable_iff (hapi : api.Lawful)
    (hv : validate api hostname services = .ok ()) (hi : i ∈ ifaces) :
    ∃ p, build api hostname services ifaces = .ok p ∧
      ((∀ encodeOk rs, buildAnnounce p i encodeOk = some rs → ∀ r ∈ rs, Answerable p i r) ↔
        (∀ sc ∈ services, api.Qualifies sc.service) ∧
          (hostname.isFqdn = true ∨ (i.addrV4 = none ∧ i.addrV6 = none))) := by
  obtain ⟨p, hb⟩ := exists_build_of_validate hv ifaces
  have hw : p.WellFormed := Published.BuiltFor.wellFormed ⟨ε, api, hostname, services, hb⟩
  refine ⟨p, hb, ?_⟩
  rw [← forall_isFqdn_iff hapi hb hi]
  constructor
  · intro h r hr
    have hann := buildAnnounce_eq_some.2 ⟨List.ne_nil_of_mem hr, rfl, rfl⟩
    exact (answerable_iff_isFqdn hw hr).1 (h true _ hann r hr)
  · intro h encodeOk rs hann r hr
    obtain ⟨-, -, rfl⟩ := buildAnnounce_eq_some.1 hann
    exact (answerable_iff_isFqdn hw hr).2 (h r hr)

end Announced

/-- A web server whose service type is written with the given text. -/
def webService (service : String) : ServiceConfig := ⟨"Admin", service, 80, [], none⟩

theorem announced_answerable_iff_web :
    ∃ p, build plainApi routerName [webService "_http._tcp.local."] [routerIface] = .ok p ∧
      ∀ encodeOk rs, buildAnnounce p routerIface encodeOk = some rs →
        ∀ r ∈ rs, Answerable p routerIface r := by
  obtain ⟨p, hb, hiff⟩ := announced_answerable_iff plainApi_lawful
    (show validate plainApi routerName [webService "_http._tcp.local."] = .ok () from rfl)
    (List.mem_singleton.2 (rfl : routerIface = routerIface))
  refine ⟨p, hb, hiff.2 ⟨?_, Or.inl rfl⟩⟩
  intro sc hsc
  rw [List.mem_singleton.1 hsc]
  exact (by decide : endsInUnescapedDot (webService "_http._tcp.local.").service.toList = true)

/-- Without the final dot the service is announced, and a query for it has no answer. -/
theorem announced_not_answerable :
    validate plainApi routerName [webService "_http._tcp.local"] = .ok () ∧
      ∃ p rs, build plainApi routerName [webService "_http._tcp.local"] [routerIface] = .ok p ∧
        buildAnnounce p routerIface true = some rs ∧ ∃ r ∈ rs, ¬ Answerable p routerIface r := by
  refine ⟨rfl, _, _, rfl, rfl, _, List.mem_cons_of_mem _ List.mem_cons_self, ?_⟩
  intro h
  obtain ⟨s, hs, -⟩ := h routerState (IterOrder.id _ _) 0
    ⟨0, .query, false, [⟨⟨[asBytes "_http", asBytes "_tcp", asBytes "local"], true⟩, .ptr, .in⟩],
      [], [], []⟩ .ptr .in rfl (Or.inl rfl)
  cases hs

/-- The service type `_http._tcp.local.` -/
def webType : Name := ⟨[asBytes "_http", asBytes "_tcp", asBytes "local"], true⟩

/-- A router that publishes a web server. -/
def webPublished : Published where
  hostname := routerName
  hostA := [uniqueRecord routerName ttlHost (.a 0xC0A80101)]
  hostAaaa := []
  services := [serviceRecords (webService "_http._tcp.local.")
    ⟨[asBytes "_services", asBytes "_dns-sd", asBytes "_udp", asBytes "local"], true⟩ webType
    ⟨asBytes "Admin" :: webType.labels, true⟩ routerName]

theorem webPublished_builtFor : webPublished.BuiltFor [routerIface] :=
  ⟨Unit, plainApi, routerName, [webService "_http._tcp.local."], rfl⟩

end Nmdns
