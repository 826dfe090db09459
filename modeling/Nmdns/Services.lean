import Nmdns.Iface
import Nmdns.Lib.Except

/-!
# Published records

`src/services.rs`: the records that the daemon advertises, built once from the configuration.

* `NameApi`: the parts of the name library that `build` calls, and `NameApi.Lawful`: what they are
  documented to do with the fully-qualified flag; `NameApi.Qualifies`;
* `ServiceConfig`, `ServiceRecords`, `Published`, `build`, `validate`;
* `Published.answer`, `Published.hostRecordsForIface`, `Published.uniqueForIface`, `goodbye`;
* `Published.recordsFor`: everything published on one interface.
-/

namespace Nmdns

/-- The functions of the name library that build the service names. -/
structure NameApi (ε : Type) where
  fromStr : String → Except ε Name
  fromLabels : List (List UInt8) → Except ε Name
  appendName : Name → Name → Except ε Name

/-- The text of a name ends in a dot that no backslash escapes. -/
def endsInUnescapedDot : List Char → Bool
  | [] => false
  | ['.'] => true
  | '\\' :: _ :: cs => endsInUnescapedDot cs
  | _ :: cs => endsInUnescapedDot cs

/-- The text of a name ends in an escape that is not finished: a backslash, or a backslash and one
or two of its three digits. -/
def endsInOpenEscape : List Char → Bool
  | [] => false
  | ['\\'] => true
  | '\\' :: c :: cs =>
    if c.isDigit then
      match cs with
      | _ :: _ :: cs => endsInOpenEscape cs
      | _ => true
    else endsInOpenEscape cs
  | _ :: cs => endsInOpenEscape cs

/-- The documented behaviour of the name library as to the fully-qualified flag.  Nothing is assumed
of texts that end in the middle of an escape. -/
structure NameApi.Lawful {ε : Type} (api : NameApi ε) : Prop where
  fromStr_isFqdn : ∀ s n, api.fromStr s = .ok n → endsInOpenEscape s.toList = false →
    n.isFqdn = endsInUnescapedDot s.toList
  appendName_isFqdn : ∀ m n l, api.appendName m n = .ok l → l.isFqdn = n.isFqdn

/-- The text is that of a fully qualified name: it ends in an unescaped dot, or, if it ends in the
middle of an escape, the library takes it for one. -/
def NameApi.Qualifies {ε : Type} (api : NameApi ε) (text : String) : Prop :=
  if endsInOpenEscape text.toList then ∃ n, api.fromStr text = .ok n ∧ n.isFqdn = true
  else endsInUnescapedDot text.toList = true

/-- A service instance of the configuration. -/
structure ServiceConfig where
  name : String
  service : String
  port : UInt16
  txt : List String
  host : Option String
  deriving DecidableEq, Repr

/-- `ServiceError`. -/
inductive ServiceError (ε : Type)
  | badServiceType (service : String) (e : ε)
  | badInstanceName (name : String) (e : ε)
  | badInstanceCompose (name service : String) (e : ε)
  | badHost (host : String) (e : ε)
  | internal (e : ε)
  deriving DecidableEq, Repr

/-- The records of one service instance. -/
structure ServiceRecords where
  instanceName : Name
  serviceType : Name
  ptrTypeToInstance : Record
  ptrMetaToType : Record
  srv : Record
  txt : Record
  deriving DecidableEq, Repr

/-- All records published by the daemon. -/
structure Published where
  hostname : Name
  hostA : List Record
  hostAaaa : List Record
  services : List ServiceRecords
  deriving DecidableEq, Repr

/-- `TTL_HOST`. -/
def ttlHost : UInt32 := 120

/-- `TTL_SERVICE`. -/
def ttlService : UInt32 := 4500

/-- A unique record: `Record::from_rdata` with the cache-flush bit set. -/
def uniqueRecord (name : Name) (ttl : UInt32) (data : RData) : Record :=
  { Record.fromRdata name ttl data with mdnsCacheFlush := true }

/-- The octets of a string. -/
def asBytes (s : String) : List UInt8 := s.toUTF8.data.toList

/-- The records of a service instance with its names. -/
def serviceRecords (sc : ServiceConfig) (metaName svcType instanceName target : Name) :
    ServiceRecords where
  instanceName := instanceName
  serviceType := svcType
  ptrTypeToInstance := Record.fromRdata svcType ttlService (.ptr instanceName)
  ptrMetaToType := Record.fromRdata metaName ttlService (.ptr svcType)
  srv := uniqueRecord instanceName ttlHost (.srv 0 0 sc.port target)
  txt := uniqueRecord instanceName ttlService
    (.txt (if sc.txt.isEmpty then [[]] else sc.txt.map asBytes))

section Build

variable {ε : Type} (api : NameApi ε)

/-- The body of the loop of `build`. -/
def buildService (hostname metaName : Name) (sc : ServiceConfig) :
    Except (ServiceError ε) ServiceRecords := do
  let svcType ← (api.fromStr sc.service).mapError (.badServiceType sc.service)
  let instanceLabel ← (api.fromLabels [asBytes sc.name]).mapError (.badInstanceName sc.name)
  let instanceName ← (api.appendName instanceLabel svcType).mapError
    (.badInstanceCompose sc.name sc.service)
  let target ← match sc.host with
    | some h => (api.fromStr h).mapError (.badHost h)
    | none => pure hostname
  return serviceRecords sc metaName svcType instanceName target

/-- `build`. -/
def build (hostname : Name) (services : List ServiceConfig) (ifaces : List Iface) :
    Except (ServiceError ε) Published := do
  let hostA := (ifaces.filterMap Iface.addrV4).map fun addr =>
    uniqueRecord hostname ttlHost (.a addr)
  let hostAaaa := (ifaces.filterMap Iface.addrV6).map fun addr =>
    uniqueRecord hostname ttlHost (.aaaa addr)
  let metaName ← (api.fromStr "_services._dns-sd._udp.local.").mapError .internal
  let svcRecs ← services.mapM (buildService api hostname metaName)
  return ⟨hostname, hostA, hostAaaa, svcRecs⟩

/-- `validate`: the construction without interfaces. -/
def validate (hostname : Name) (services : List ServiceConfig) : Except (ServiceError ε) Unit :=
  (build api hostname services []).map fun _ => ()

end Build

namespace Published

/-- The answers of one service instance, in the order of the checks. -/
def answerService (qname : Name) (qtype : RecordType) (s : ServiceRecords) : List Record :=
  let any := qtype == .any
  (if (any || qtype == .ptr) && qname == s.serviceType then [s.ptrTypeToInstance] else []) ++
  (if (any || qtype == .ptr) && qname == s.ptrMetaToType.name then [s.ptrMetaToType] else []) ++
  (if (any || qtype == .srv) && qname == s.instanceName then [s.srv] else []) ++
  (if (any || qtype == .txt) && qname == s.instanceName then [s.txt] else [])

/-- `Published::answer`. -/
def answer (p : Published) (qname : Name) (qtype : RecordType) : List Record :=
  let any := qtype == .any
  (if any || qtype == .a then p.hostA.filter fun r => r.name == qname else []) ++
  (if any || qtype == .aaaa then p.hostAaaa.filter fun r => r.name == qname else []) ++
  p.services.flatMap (answerService qname qtype)

/-- `Published::host_a_for`. -/
def hostAFor (p : Published) (addr : BitVec 32) : List Record :=
  p.hostA.filter fun r => match r.data with
    | .a a => a == addr
    | _ => false

/-- `Published::host_aaaa_for`. -/
def hostAaaaFor (p : Published) (addr : BitVec 128) : List Record :=
  p.hostAaaa.filter fun r => match r.data with
    | .aaaa a => a == addr
    | _ => false

/-- `Published::host_records_for_iface`. -/
def hostRecordsForIface (p : Published) (iface : Iface) : List Record :=
  (iface.addrV4.elim [] p.hostAFor) ++ (iface.addrV6.elim [] p.hostAaaaFor)

/-- `Published::unique_service_records`. -/
def uniqueServiceRecords (p : Published) : List Record := p.services.flatMap fun s => [s.srv, s.txt]

/-- `Published::unique_for_iface`. -/
def uniqueForIface (p : Published) (iface : Iface) : List Record :=
  p.hostRecordsForIface iface ++ p.uniqueServiceRecords

/-- The shared records: the two pointers of every service. -/
def sharedRecords (p : Published) : List Record :=
  p.services.flatMap fun s => [s.ptrTypeToInstance, s.ptrMetaToType]

/-- Everything published on an interface, in the order of an announcement. -/
def recordsFor (p : Published) (iface : Iface) : List Record :=
  p.hostRecordsForIface iface ++
    p.services.flatMap fun s => [s.ptrTypeToInstance, s.ptrMetaToType, s.srv, s.txt]

end Published

/-- `goodbye`: the records withdrawn at shutdown. -/
def goodbye (p : Published) : List Record :=
  (p.hostA ++ p.hostAaaa ++
    p.services.flatMap fun s => [s.ptrTypeToInstance, s.srv, s.txt]).map fun r =>
      { r with ttl := 0 }

/-! ### What `build` returns -/

section BuildSpec

variable {ε : Type} {api : NameApi ε}

/-- The names behind the records of a service instance. -/
theorem buildService_ok {hostname metaName : Name} {sc : ServiceConfig} {s : ServiceRecords}
    (h : buildService api hostname metaName sc = .ok s) :
    ∃ svcType label instanceName target, api.fromStr sc.service = .ok svcType ∧
      api.fromLabels [asBytes sc.name] = .ok label ∧
      api.appendName label svcType = .ok instanceName ∧
      s = serviceRecords sc metaName svcType instanceName target := by
  obtain ⟨svcType, hsvc, h⟩ := Except.bind_eq_ok_iff.1 h
  obtain ⟨label, hlabel, h⟩ := Except.bind_eq_ok_iff.1 h
  obtain ⟨instanceName, hinst, h⟩ := Except.bind_eq_ok_iff.1 h
  rw [Except.mapError_eq_ok_iff] at hsvc hlabel hinst
  obtain ⟨target, h⟩ : ∃ target,
      .ok (serviceRecords sc metaName svcType instanceName target) = Except.ok s := by
    dsimp only at h
    split at h
    · obtain ⟨target, -, h⟩ := Except.bind_eq_ok_iff.1 h
      exact ⟨target, h⟩
    · exact ⟨hostname, h⟩
  exact ⟨svcType, label, instanceName, target, hsvc, hlabel, hinst, (Except.ok.inj h).symm⟩

/-- The service records follow the configured services, entry by entry. -/
theorem build_services {hostname : Name} {services : List ServiceConfig} {ifaces : List Iface}
    {p : Published} (h : build api hostname services ifaces = .ok p) :
    ∃ metaName, api.fromStr "_services._dns-sd._udp.local." = .ok metaName ∧
      List.Forall₂ (fun sc s => buildService api hostname metaName sc = .ok s) services
        p.services := by
  obtain ⟨metaName, hmeta, h⟩ := Except.bind_eq_ok_iff.1 h
  obtain ⟨svcRecs, hsvc, h⟩ := Except.bind_eq_ok_iff.1 h
  cases h
  exact ⟨metaName, Except.mapError_eq_ok_iff.1 hmeta, Except.mapM_eq_ok_iff.1 hsvc⟩

/-- The parts of a built `Published`. -/
theorem build_ok {hostname : Name} {services : List ServiceConfig} {ifaces : List Iface}
    {p : Published} (h : build api hostname services ifaces = .ok p) :
    p.hostname = hostname ∧
      p.hostA =
        (ifaces.filterMap Iface.addrV4).map (fun a => uniqueRecord hostname ttlHost (.a a)) ∧
      p.hostAaaa =
        (ifaces.filterMap Iface.addrV6).map (fun a => uniqueRecord hostname ttlHost (.aaaa a)) ∧
      ∃ metaName, api.fromStr "_services._dns-sd._udp.local." = .ok metaName ∧
        (∀ sc ∈ services, ∃ s ∈ p.services, buildService api hostname metaName sc = .ok s) ∧
        ∀ s ∈ p.services, ∃ sc ∈ services, buildService api hostname metaName sc = .ok s := by
  obtain ⟨metaName, hmeta, h⟩ := Except.bind_eq_ok_iff.1 h
  obtain ⟨svcRecs, hsvc, h⟩ := Except.bind_eq_ok_iff.1 h
  cases h
  exact ⟨rfl, rfl, rfl, metaName, Except.mapError_eq_ok_iff.1 hmeta, Except.mem_of_mapM_ok hsvc⟩

end BuildSpec

/-- The shape of the published records: every one is built from the names of its service, or from
the host name and an address. -/
structure Published.WellFormed (p : Published) : Prop where
  hostA : ∀ r ∈ p.hostA, ∃ addr, r = uniqueRecord p.hostname ttlHost (.a addr)
  hostAaaa : ∀ r ∈ p.hostAaaa, ∃ addr, r = uniqueRecord p.hostname ttlHost (.aaaa addr)
  services : ∀ s ∈ p.services, ∃ sc metaName svcType instanceName target,
    s = serviceRecords sc metaName svcType instanceName target

/-- `p` is what `build` returns for these interfaces. -/
def Published.BuiltFor (p : Published) (ifaces : List Iface) : Prop :=
  ∃ (ε : Type) (api : NameApi ε) (hostname : Name) (services : List ServiceConfig),
    build api hostname services ifaces = .ok p

theorem Published.BuiltFor.wellFormed {p : Published} {ifaces : List Iface}
    (h : p.BuiltFor ifaces) : p.WellFormed := by
  obtain ⟨ε, api, hostname, services, h⟩ := h
  obtain ⟨hname, hA, hAaaa, metaName, -, -, hsvc⟩ := build_ok h
  refine ⟨?_, ?_, ?_⟩
  · intro r hr
    rw [hA] at hr
    obtain ⟨addr, -, rfl⟩ := List.mem_map.1 hr
    exact ⟨addr, by rw [hname]⟩
  · intro r hr
    rw [hAaaa] at hr
    obtain ⟨addr, -, rfl⟩ := List.mem_map.1 hr
    exact ⟨addr, by rw [hname]⟩
  · intro s hs
    obtain ⟨sc, -, hsc⟩ := hsvc s hs
    obtain ⟨svcType, -, instanceName, target, -, -, -, hs'⟩ := buildService_ok hsc
    exact ⟨sc, metaName, svcType, instanceName, target, hs'⟩

/-! ### Answers -/

namespace Published

/-- All published records, on whatever interface. -/
def all (p : Published) : List Record :=
  p.hostA ++ p.hostAaaa ++
    p.services.flatMap fun s => [s.ptrTypeToInstance, s.ptrMetaToType, s.srv, s.txt]

variable {p : Published} {i : Iface} {r : Record}

theorem recordMatches_iff {qname : Name} {qtype : RecordType} :
    recordMatches r qname qtype = true ↔
      qname == r.name ∧ (qtype = .any ∨ qtype = r.recordType) := by
  have hname : (r.name == qname) = (qname == r.name) := BEq.comm
  have htype : (qtype == .any || r.recordType == qtype) = true ↔
      qtype = .any ∨ qtype = r.recordType := by
    rw [Bool.or_eq_true, beq_iff_eq, beq_iff_eq, eq_comm (a := r.recordType)]
  rw [recordMatches, hname, Bool.and_eq_true, htype]

theorem mem_answerService {sc : ServiceConfig} {metaName svcType instanceName target : Name}
    {qname : Name} {qtype : RecordType} :
    r ∈ answerService qname qtype (serviceRecords sc metaName svcType instanceName target) ↔
      (r ∈ [(serviceRecords sc metaName svcType instanceName target).ptrTypeToInstance,
        (serviceRecords sc metaName svcType instanceName target).ptrMetaToType,
        (serviceRecords sc metaName svcType instanceName target).srv,
        (serviceRecords sc metaName svcType instanceName target).txt]) ∧
        recordMatches r qname qtype := by
  have hif : ∀ (b : Bool) (s : Record), r ∈ (if b then [s] else []) ↔ r = s ∧ b = true := by
    intro b s
    cases b <;> simp
  unfold answerService
  rw [recordMatches_iff, List.mem_append, List.mem_append, List.mem_append, hif, hif, hif, hif]
  simp only [List.mem_cons, List.not_mem_nil, or_false, Bool.and_eq_true, Bool.or_eq_true,
    beq_iff_eq]
  constructor
  · rintro (((⟨rfl, ht, hn⟩ | ⟨rfl, ht, hn⟩) | ⟨rfl, ht, hn⟩) | ⟨rfl, ht, hn⟩)
    · exact ⟨Or.inl rfl, hn, ht⟩
    · exact ⟨Or.inr (Or.inl rfl), hn, ht⟩
    · exact ⟨Or.inr (Or.inr (Or.inl rfl)), hn, ht⟩
    · exact ⟨Or.inr (Or.inr (Or.inr rfl)), hn, ht⟩
  · rintro ⟨rfl | rfl | rfl | rfl, hn, ht⟩
    · exact Or.inl (Or.inl (Or.inl ⟨rfl, ht, hn⟩))
    · exact Or.inl (Or.inl (Or.inr ⟨rfl, ht, hn⟩))
    · exact Or.inl (Or.inr ⟨rfl, ht, hn⟩)
    · exact Or.inr ⟨rfl, ht, hn⟩

/-- The host addresses in an answer. -/
theorem mem_answerHost {l : List Record} {t qtype : RecordType} {qname : Name}
    (ht : ∀ s ∈ l, s.recordType = t) :
    r ∈ (if (qtype == .any) || qtype == t then l.filter fun s => s.name == qname else []) ↔
      r ∈ l ∧ recordMatches r qname qtype := by
  have hmatch : r ∈ l → (recordMatches r qname qtype = true ↔
      ((qtype == .any) || qtype == t) = true ∧ (r.name == qname) = true) := by
    intro hr
    rw [recordMatches, ht r hr, Bool.and_eq_true, and_comm, BEq.comm (a := t)]
  by_cases hq : ((qtype == .any) || qtype == t) = true
  · rw [if_pos hq, List.mem_filter]
    refine and_congr_right fun hr => ?_
    rw [hmatch hr, and_iff_right hq]
  · rw [if_neg hq]
    simp only [List.not_mem_nil, false_iff, not_and]
    intro hr hm
    exact hq ((hmatch hr).1 hm).1

/-- **An answer is every published record that matches the question.** -/
theorem mem_answer (hw : p.WellFormed) {qname : Name} {qtype : RecordType} :
    r ∈ p.answer qname qtype ↔ r ∈ p.all ∧ recordMatches r qname qtype := by
  have hA : ∀ s ∈ p.hostA, s.recordType = .a := by
    intro s hs
    obtain ⟨addr, rfl⟩ := hw.hostA s hs
    rfl
  have hAaaa : ∀ s ∈ p.hostAaaa, s.recordType = .aaaa := by
    intro s hs
    obtain ⟨addr, rfl⟩ := hw.hostAaaa s hs
    rfl
  have hsvc : r ∈ p.services.flatMap (answerService qname qtype) ↔
      r ∈ (p.services.flatMap fun s => [s.ptrTypeToInstance, s.ptrMetaToType, s.srv, s.txt]) ∧
        recordMatches r qname qtype := by
    rw [List.mem_flatMap, List.mem_flatMap]
    constructor
    · rintro ⟨s, hs, hr⟩
      obtain ⟨sc, metaName, svcType, instanceName, target, rfl⟩ := hw.services s hs
      exact ⟨⟨_, hs, (mem_answerService.1 hr).1⟩, (mem_answerService.1 hr).2⟩
    · rintro ⟨⟨s, hs, hr⟩, hm⟩
      obtain ⟨sc, metaName, svcType, instanceName, target, rfl⟩ := hw.services s hs
      exact ⟨_, hs, mem_answerService.2 ⟨hr, hm⟩⟩
  unfold answer all
  rw [List.mem_append, List.mem_append, mem_answerHost hA, mem_answerHost hAaaa, hsvc,
    List.mem_append, List.mem_append, or_and_right, or_and_right]

/-! ### The records of one interface -/

theorem mem_hostAFor (hw : p.WellFormed) {addr : BitVec 32} :
    r ∈ p.hostAFor addr ↔ r ∈ p.hostA ∧ r = uniqueRecord p.hostname ttlHost (.a addr) := by
  unfold hostAFor
  rw [List.mem_filter]
  refine and_congr_right fun hr => ?_
  obtain ⟨a, rfl⟩ := hw.hostA r hr
  simp [uniqueRecord, Record.fromRdata]

theorem mem_hostAaaaFor (hw : p.WellFormed) {addr : BitVec 128} :
    r ∈ p.hostAaaaFor addr ↔ r ∈ p.hostAaaa ∧ r = uniqueRecord p.hostname ttlHost (.aaaa addr) := by
  unfold hostAaaaFor
  rw [List.mem_filter]
  refine and_congr_right fun hr => ?_
  obtain ⟨a, rfl⟩ := hw.hostAaaa r hr
  simp [uniqueRecord, Record.fromRdata]

/-- The host records of an interface carry one of its own addresses. -/
theorem mem_hostRecordsForIface (hw : p.WellFormed) :
    r ∈ p.hostRecordsForIface i ↔
      (r ∈ p.hostA ∧ ∃ addr, i.addrV4 = some addr ∧
        r = uniqueRecord p.hostname ttlHost (.a addr)) ∨
      (r ∈ p.hostAaaa ∧ ∃ addr, i.addrV6 = some addr ∧
        r = uniqueRecord p.hostname ttlHost (.aaaa addr)) := by
  unfold hostRecordsForIface
  rw [List.mem_append]
  refine or_congr ?_ ?_
  · cases i.addrV4 with
    | none => simp
    | some addr => simp [mem_hostAFor hw]
  · cases i.addrV6 with
    | none => simp
    | some addr => simp [mem_hostAaaaFor hw]

/-- What an interface advertises is unique or shared. -/
theorem mem_recordsFor : r ∈ p.recordsFor i ↔ r ∈ p.uniqueForIface i ∨ r ∈ p.sharedRecords := by
  unfold recordsFor uniqueForIface uniqueServiceRecords sharedRecords
  simp only [List.mem_append, List.mem_flatMap, List.mem_cons, List.not_mem_nil, or_false]
  constructor
  · rintro (hr | ⟨s, hs, hr | hr | hr | hr⟩)
    · exact Or.inl (Or.inl hr)
    · exact Or.inr ⟨s, hs, Or.inl hr⟩
    · exact Or.inr ⟨s, hs, Or.inr hr⟩
    · exact Or.inl (Or.inr ⟨s, hs, Or.inl hr⟩)
    · exact Or.inl (Or.inr ⟨s, hs, Or.inr hr⟩)
  · rintro ((hr | ⟨s, hs, hr | hr⟩) | ⟨s, hs, hr | hr⟩)
    · exact Or.inl hr
    · exact Or.inr ⟨s, hs, Or.inr (Or.inr (Or.inl hr))⟩
    · exact Or.inr ⟨s, hs, Or.inr (Or.inr (Or.inr hr))⟩
    · exact Or.inr ⟨s, hs, Or.inl hr⟩
    · exact Or.inr ⟨s, hs, Or.inr (Or.inl hr)⟩

/-- The unique records carry the cache-flush bit and are no pointers. -/
theorem unique_of_mem_uniqueForIface (hw : p.WellFormed) (h : r ∈ p.uniqueForIface i) :
    r.mdnsCacheFlush = true ∧ r.recordType ≠ .ptr := by
  rcases List.mem_append.1 h with h | h
  · rcases (mem_hostRecordsForIface hw).1 h with ⟨-, addr, -, rfl⟩ | ⟨-, addr, -, rfl⟩ <;>
      exact ⟨rfl, RecordType.noConfusion⟩
  · obtain ⟨s, hs, hr⟩ := List.mem_flatMap.1 h
    obtain ⟨sc, metaName, svcType, instanceName, target, rfl⟩ := hw.services s hs
    rcases List.mem_pair.1 hr with rfl | rfl <;> exact ⟨rfl, RecordType.noConfusion⟩

/-- The shared records are pointers without the cache-flush bit. -/
theorem shared_of_mem_sharedRecords (hw : p.WellFormed) (h : r ∈ p.sharedRecords) :
    r.mdnsCacheFlush = false ∧ r.recordType = .ptr := by
  obtain ⟨s, hs, hr⟩ := List.mem_flatMap.1 h
  obtain ⟨sc, metaName, svcType, instanceName, target, rfl⟩ := hw.services s hs
  rcases List.mem_pair.1 hr with rfl | rfl <;> exact ⟨rfl, rfl⟩

/-- The records of the services, in the order of an announcement. -/
theorem mem_serviceRecords_type (hw : p.WellFormed)
    (h : r ∈ p.services.flatMap fun s => [s.ptrTypeToInstance, s.ptrMetaToType, s.srv, s.txt]) :
    r.recordType = .ptr ∨ r.recordType = .srv ∨ r.recordType = .txt := by
  obtain ⟨s, hs, hr⟩ := List.mem_flatMap.1 h
  obtain ⟨sc, metaName, svcType, instanceName, target, rfl⟩ := hw.services s hs
  simp only [List.mem_cons, List.not_mem_nil, or_false] at hr
  rcases hr with rfl | rfl | rfl | rfl
  · exact Or.inl rfl
  · exact Or.inl rfl
  · exact Or.inr (Or.inl rfl)
  · exact Or.inr (Or.inr rfl)

theorem mem_all_of_mem_recordsFor (hw : p.WellFormed) (h : r ∈ p.recordsFor i) : r ∈ p.all := by
  unfold all
  rcases List.mem_append.1 h with h | h
  · rcases (mem_hostRecordsForIface hw).1 h with ⟨hr, -⟩ | ⟨hr, -⟩
    · exact List.mem_append_left _ (List.mem_append_left _ hr)
    · exact List.mem_append_left _ (List.mem_append_right _ hr)
  · exact List.mem_append_right _ h

/-- A published record is an address of the host or a record of a service. -/
theorem mem_all_cases (hw : p.WellFormed) (h : r ∈ p.all) :
    (∃ addr, r = uniqueRecord p.hostname ttlHost (.a addr)) ∨
      (∃ addr, r = uniqueRecord p.hostname ttlHost (.aaaa addr)) ∨
      ∃ s ∈ p.services, r ∈ [s.ptrTypeToInstance, s.ptrMetaToType, s.srv, s.txt] := by
  rcases List.mem_append.1 h with h | h
  · exact (List.mem_append.1 h).imp (hw.hostA r) fun h => Or.inl (hw.hostAaaa r h)
  · exact Or.inr (Or.inr (List.mem_flatMap.1 h))

/-- A host record equal to one of the interface is that record. -/
theorem mem_hostRecordsForIface_of_beq (hw : p.WellFormed) (hr : r ∈ p.hostA ∨ r ∈ p.hostAaaa)
    {s : Record} (hs : s ∈ p.hostRecordsForIface i) (hsr : s == r) :
    r ∈ p.hostRecordsForIface i := by
  rw [Record.beq_eq, RecordKey.beq_iff] at hsr
  have hdata : s.data.fold = r.data.fold := congrArg RecordKey.rdata hsr
  have hs' := (mem_hostRecordsForIface hw).1 hs
  rcases hr with hr | hr
  · obtain ⟨a, rfl⟩ := hw.hostA r hr
    rcases hs' with ⟨-, b, -, rfl⟩ | ⟨-, b, -, rfl⟩
    · have hab : b = a := RData.a.inj hdata
      exact hab ▸ hs
    · exact absurd hdata RData.noConfusion
  · obtain ⟨a, rfl⟩ := hw.hostAaaa r hr
    rcases hs' with ⟨-, b, -, rfl⟩ | ⟨-, b, -, rfl⟩
    · exact absurd hdata RData.noConfusion
    · have hab : b = a := RData.aaaa.inj hdata
      exact hab ▸ hs

end Published

end Nmdns
