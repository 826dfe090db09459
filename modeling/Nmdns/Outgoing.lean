import Nmdns.Engine

/-!
# The messages that the daemon originates

`src/responder.rs`: announcements, probes, responses and goodbyes, before they are encoded.

* `Outgoing`, `responseMessage`, `announceMessage`, `probeMessage`, `goodbyeMessage`;
* `Originated p i r`: `r` is placed in a message that goes out on `i`;
* `own_address_iff`: when every host address stays on its own link;
* `TextLimit`: the limit of the DNS library's encoder on character-strings;
* `published_encodes_iff`: when every message made of published records can be encoded.
-/

namespace Nmdns

/-- An entry of the question section of an outgoing message. -/
structure OutQuestion extends Question where
  mdnsUnicastResponse : Bool
  deriving DecidableEq, Repr

/-- A message before it is encoded. -/
structure Outgoing where
  id : UInt16
  messageType : MessageType
  authoritative : Bool
  queries : List OutQuestion
  answers : List Record
  authorities : List Record
  additionals : List Record
  deriving DecidableEq, Repr

/-- The records of a message. -/
def Outgoing.records (m : Outgoing) : List Record := m.answers ++ m.authorities ++ m.additionals

/-- A response message with these sections. -/
def Outgoing.ofAnswers (id : UInt16) (answers additionals : List Record) : Option Outgoing :=
  if answers.isEmpty then none else some ⟨id, .response, true, [], answers, [], additionals⟩

/-- The message of `build_response`. -/
def responseMessage (queryId : UInt16) (answers additionals : List Record) : Option Outgoing :=
  Outgoing.ofAnswers queryId answers additionals

/-- The message of `build_announce`. -/
def announceMessage (p : Published) (iface : Iface) : Option Outgoing :=
  Outgoing.ofAnswers 0 (p.recordsFor iface) []

/-- The message of `announce_goodbye`: the same on every interface. -/
def goodbyeMessage (p : Published) : Option Outgoing := Outgoing.ofAnswers 0 (goodbye p) []

/-- The names that `probe_all` asks for, each once. -/
def probeNames (unique : List Record) : List Name :=
  unique.foldl (fun names r =>
    if names.any fun n => n == r.name then names else names ++ [r.name]) []

/-- The message of `probe_all`, with the random `id`: the names asked for, with the unicast-response
bit, and the proposed records in the authority section. -/
def probeMessage (p : Published) (iface : Iface) (id : UInt16) : Option Outgoing :=
  let unique := p.uniqueForIface iface
  if unique.isEmpty then none
  else some ⟨id, .query, false, (probeNames unique).map fun n => ⟨⟨n, .any, .in⟩, true⟩, [], unique,
    []⟩

/-- The responder's `buildResponse` is this message, if it can be encoded. -/
theorem buildResponse_eq (queryId : UInt16) (answers additionals : List Record) (encodeOk : Bool) :
    buildResponse queryId answers additionals encodeOk =
      (responseMessage queryId answers additionals).bind fun m =>
        if encodeOk then some ⟨m.id, m.answers, m.additionals⟩ else none := by
  unfold buildResponse responseMessage Outgoing.ofAnswers
  split_ifs <;> rfl

/-- So is `buildAnnounce`. -/
theorem buildAnnounce_eq (p : Published) (iface : Iface) (encodeOk : Bool) :
    buildAnnounce p iface encodeOk =
      (announceMessage p iface).bind fun m => if encodeOk then some m.answers else none := by
  unfold buildAnnounce announceMessage Outgoing.ofAnswers
  split_ifs <;> rfl

theorem ofAnswers_eq_some {id : UInt16} {answers additionals : List Record} {m : Outgoing}
    (h : Outgoing.ofAnswers id answers additionals = some m) :
    m.records = answers ++ additionals := by
  unfold Outgoing.ofAnswers at h
  split_ifs at h
  cases h
  simp [Outgoing.records]

theorem exists_ofAnswers {answers : List Record} (h : answers ≠ []) (id : UInt16)
    (additionals : List Record) : ∃ m, Outgoing.ofAnswers id answers additionals = some m := by
  unfold Outgoing.ofAnswers
  rw [if_neg fun hnil => h (List.isEmpty_iff.1 hnil)]
  exact ⟨_, rfl⟩

theorem probeMessage_records {p : Published} {iface : Iface} {id : UInt16} {m : Outgoing}
    (h : probeMessage p iface id = some m) : m.records = p.uniqueForIface iface := by
  unfold probeMessage at h
  dsimp only at h
  split_ifs at h
  cases h
  simp [Outgoing.records]

/-- The records of the announcement on an interface. -/
def announced (p : Published) (i : Iface) : List Record :=
  ((announceMessage p i).map Outgoing.records).getD []

theorem announced_eq (p : Published) (i : Iface) : announced p i = p.recordsFor i := by
  unfold announced announceMessage Outgoing.ofAnswers
  split_ifs with h
  · exact (List.isEmpty_iff.1 h).symm
  · simp [Outgoing.records]

/-! ### Host addresses -/

/-- The address of a host record. -/
def Record.hostAddr? (r : Record) : Option IpAddr :=
  match r.data with
  | .a addr => some (.v4 addr)
  | .aaaa addr => some (.v6 addr)
  | _ => none

/-- `r` is a published record, up to its TTL. -/
def Published.Has (p : Published) (r : Record) : Prop := ∃ s ∈ p.all, r = { s with ttl := r.ttl }

/-- `r` is placed in a message that goes out on `i`. -/
inductive Originated (p : Published) (i : Iface) (r : Record) : Prop
  | announce {m : Outgoing} (h : announceMessage p i = some m) (hr : r ∈ m.records)
  | probe {id : UInt16} {m : Outgoing} (h : probeMessage p i id = some m) (hr : r ∈ m.records)
  | response {st : State} {σ : CacheOrder} {now wake : ℕ} {msg : Message} {family : IpFamily}
      {wire : Wire} {resp : Response}
      (h : (handleQuery st σ now wake msg i family p wire).2 = some resp) (hr : r ∈ resp.records)
  | goodbye {m : Outgoing} (h : goodbyeMessage p = some m) (hr : r ∈ m.records)

section HostAddr

variable {p : Published} {i : Iface} {r : Record}

/-- The records of a service carry no address. -/
theorem hostAddr?_of_mem_services (hw : p.WellFormed)
    (hr : r ∈ p.services.flatMap fun s => [s.ptrTypeToInstance, s.ptrMetaToType, s.srv, s.txt]) :
    r.hostAddr? = none := by
  obtain ⟨s, hs, hr⟩ := List.mem_flatMap.1 hr
  obtain ⟨sc, metaName, svcType, instanceName, target, rfl⟩ := hw.services s hs
  simp only [List.mem_cons, List.not_mem_nil, or_false] at hr
  rcases hr with rfl | rfl | rfl | rfl <;> rfl

/-- What is published on an interface carries its own addresses. -/
theorem hasAddr_of_mem_recordsFor (hw : p.WellFormed) (hr : r ∈ p.recordsFor i) {addr : IpAddr}
    (ha : r.hostAddr? = some addr) : i.hasAddr addr = true := by
  rcases List.mem_append.1 hr with hr | hr
  · rcases (Published.mem_hostRecordsForIface hw).1 hr with ⟨-, a, hi, rfl⟩ | ⟨-, a, hi, rfl⟩
    · cases ha
      simp [Iface.hasAddr, hi]
    · cases ha
      simp [Iface.hasAddr, hi]
  · rw [hostAddr?_of_mem_services hw hr] at ha
    cases ha

theorem hostAddr?_of_ptr (hptr : r.recordType = .ptr) : r.hostAddr? = none := by
  obtain ⟨name, dnsClass, ttl, data, flush⟩ := r
  cases data <;> first | rfl | cases hptr

/-- A host record has the cache-flush bit, so it is not one that is relayed. -/
theorem flush_of_hostAddr? (hw : p.WellFormed) (hr : p.Has r) {addr : IpAddr}
    (ha : r.hostAddr? = some addr) : r.mdnsCacheFlush = true := by
  obtain ⟨s, hs, heq⟩ := hr
  have ha' : s.hostAddr? = some addr := by
    rw [heq] at ha
    exact ha
  rw [heq]
  show s.mdnsCacheFlush = true
  rw [(ttl_of_mem_all hw hs).2, bne_iff_ne]
  intro hptr
  rw [hostAddr?_of_ptr hptr] at ha'
  cases ha'

/-- The host record of an address. -/
def hostRecord (hostname : Name) : IpAddr → Record
  | .v4 addr => uniqueRecord hostname ttlHost (.a addr)
  | .v6 addr => uniqueRecord hostname ttlHost (.aaaa addr)

theorem hostAddr?_hostRecord (hostname : Name) (addr : IpAddr) :
    (hostRecord hostname addr).hostAddr? = some addr := by
  cases addr <;> rfl

/-- The host records are those of the addresses of the interfaces. -/
theorem mem_hostRecords_iff {ε : Type} {api : NameApi ε} {hostname : Name}
    {services : List ServiceConfig} {ifaces : List Iface}
    (hb : build api hostname services ifaces = .ok p) :
    r ∈ p.hostA ++ p.hostAaaa ↔
      ∃ j ∈ ifaces, ∃ addr, j.hasAddr addr = true ∧ r = hostRecord hostname addr := by
  obtain ⟨-, hA, hAaaa, -⟩ := build_ok hb
  rw [List.mem_append, hA, hAaaa]
  simp only [List.mem_map, List.mem_filterMap]
  constructor
  · rintro (⟨a, ⟨j, hj, ha⟩, rfl⟩ | ⟨a, ⟨j, hj, ha⟩, rfl⟩)
    · exact ⟨j, hj, .v4 a, beq_iff_eq.2 ha, rfl⟩
    · exact ⟨j, hj, .v6 a, beq_iff_eq.2 ha, rfl⟩
  · rintro ⟨j, hj, addr, ha, rfl⟩
    cases addr with
    | v4 a => exact Or.inl ⟨a, ⟨j, hj, eq_of_beq ha⟩, rfl⟩
    | v6 a => exact Or.inr ⟨a, ⟨j, hj, eq_of_beq ha⟩, rfl⟩

/-- The addresses that are published are those of the interfaces. -/
theorem exists_hostRecord_of_hasAddr {ifaces : List Iface} (hp : p.BuiltFor ifaces) {j : Iface}
    (hj : j ∈ ifaces) {addr : IpAddr} (ha : j.hasAddr addr = true) :
    ∃ r ∈ p.hostA ++ p.hostAaaa, r.hostAddr? = some addr := by
  obtain ⟨ε, api, hostname, services, hb⟩ := hp
  exact ⟨_, (mem_hostRecords_iff hb).2 ⟨j, hj, addr, ha, rfl⟩, hostAddr?_hostRecord hostname addr⟩

theorem exists_iface_of_hostAddr? {ifaces : List Iface} (hp : p.BuiltFor ifaces) (hr : p.Has r)
    {addr : IpAddr} (ha : r.hostAddr? = some addr) : ∃ j ∈ ifaces, j.hasAddr addr = true := by
  have hw := hp.wellFormed
  obtain ⟨ε, api, hostname, services, hb⟩ := hp
  obtain ⟨s, hs, heq⟩ := hr
  rw [heq] at ha
  have ha' : s.hostAddr? = some addr := ha
  rcases List.mem_append.1 hs with hs | hs
  · obtain ⟨j, hj, addr', hja, rfl⟩ := (mem_hostRecords_iff hb).1 hs
    rw [hostAddr?_hostRecord] at ha'
    cases ha'
    exact ⟨j, hj, hja⟩
  · rw [hostAddr?_of_mem_services hw hs] at ha'
    cases ha'

/-- Announcements, probes and responses carry the addresses of their interface only; a goodbye may
carry others. -/
theorem Originated.own_or_goodbye (hw : p.WellFormed) (ho : Originated p i r) (hr : p.Has r)
    {addr : IpAddr} (ha : r.hostAddr? = some addr) :
    i.hasAddr addr = true ∨ ∃ m, goodbyeMessage p = some m ∧ r ∈ m.records := by
  cases ho with
  | announce h hmem =>
    rw [ofAnswers_eq_some h, List.append_nil] at hmem
    exact Or.inl (hasAddr_of_mem_recordsFor hw hmem ha)
  | probe h hmem =>
    rw [probeMessage_records h] at hmem
    exact Or.inl (hasAddr_of_mem_recordsFor hw (Published.mem_recordsFor.2 (Or.inl hmem)) ha)
  | response h hmem =>
    obtain ⟨-, pd, hpd, hsub⟩ := handleQuery_response h
    rcases mem_prepared hw hpd (hsub hmem) with hown | ⟨-, hrel⟩
    · exact Or.inl (hasAddr_of_mem_recordsFor hw hown ha)
    · -- what is relayed from the cache has lost its cache-flush bit
      have hflush := flush_of_hostAddr? hw hr ha
      rw [hrel.mdnsCacheFlush_eq] at hflush
      cases hflush
  | goodbye h hmem => exact Or.inr ⟨_, h, hmem⟩

end HostAddr

/-- **Host addresses stay on their own link** exactly when no monitored interface has an address
that `i` does not have: every goodbye carries the addresses of all interfaces. -/
theorem own_address_iff {p : Published} {ifaces : List Iface} (hp : p.BuiltFor ifaces) (i : Iface) :
    (∀ r, Originated p i r → p.Has r → ∀ addr, r.hostAddr? = some addr → i.hasAddr addr = true) ↔
      ∀ j ∈ ifaces, ∀ addr, j.hasAddr addr = true → i.hasAddr addr = true := by
  constructor
  · intro hown j hj addr ha
    obtain ⟨r, hr, hra⟩ := exists_hostRecord_of_hasAddr hp hj ha
    have hgood : { r with ttl := 0 } ∈ goodbye p :=
      List.mem_map_of_mem (List.mem_append_left _ hr)
    obtain ⟨m, hm⟩ := exists_ofAnswers (List.ne_nil_of_mem hgood) 0 []
    have hmem : { r with ttl := 0 } ∈ m.records := by
      rw [ofAnswers_eq_some hm]
      exact List.mem_append_left _ hgood
    exact hown _ (Originated.goodbye hm hmem) ⟨r, List.mem_append_left _ hr, rfl⟩ addr hra
  · intro hall r ho hr addr ha
    rcases ho.own_or_goodbye hp.wellFormed hr ha with hown | -
    · exact hown
    · obtain ⟨j, hj, hja⟩ := exists_iface_of_hostAddr? hp hr ha
      exact hall j hj addr hja

theorem own_address_iff_router :
    ∃ p, build plainApi routerName [webService "_http._tcp.local."] [routerIface] = .ok p ∧
      ∀ r, Originated p routerIface r → p.Has r → ∀ addr, r.hostAddr? = some addr →
        routerIface.hasAddr addr = true := by
  obtain ⟨p, hb⟩ := exists_build_of_validate
    (show validate plainApi routerName [webService "_http._tcp.local."] = .ok () from rfl)
    [routerIface]
  refine ⟨p, hb, (own_address_iff ⟨Unit, plainApi, routerName, _, hb⟩ _).2 ?_⟩
  intro j hj addr ha
  rw [List.mem_singleton.1 hj] at ha
  exact ha

/-- With two interfaces, the goodbye on the first one carries the address of the second. -/
theorem goodbye_has_foreign_address :
    crossedPublished.BuiltFor [routerIface, lanIface] ∧
      ∃ m r, goodbyeMessage crossedPublished = some m ∧ r ∈ m.records ∧ crossedPublished.Has r ∧
        r.hostAddr? = some (.v4 0x0A000001) ∧ routerIface.hasAddr (.v4 0x0A000001) = false ∧
        lanIface.hasAddr (.v4 0x0A000001) = true :=
  ⟨crossedPublished_builtFor, _, { uniqueRecord routerName ttlHost (.a 0x0A000001) with ttl := 0 },
    rfl, List.mem_cons_of_mem _ List.mem_cons_self,
    ⟨_, List.mem_cons_of_mem _ List.mem_cons_self, rfl⟩, rfl, by decide, by decide⟩

/-! ### Encodability -/

/-- Every character-string of a TXT record fits in its length octet. -/
def Record.TextFits (r : Record) : Prop :=
  match r.data with
  | .txt strings => ∀ s ∈ strings, s.length ≤ 255
  | _ => True

instance (r : Record) : Decidable r.TextFits :=
  match r with
  | ⟨_, _, _, .txt strings, _⟩ => inferInstanceAs (Decidable (∀ s ∈ strings, s.length ≤ 255))
  | ⟨_, _, _, .a _, _⟩ | ⟨_, _, _, .aaaa _, _⟩ | ⟨_, _, _, .ptr _, _⟩ | ⟨_, _, _, .srv .., _⟩
  | ⟨_, _, _, .other .., _⟩ => inferInstanceAs (Decidable True)

/-- The encoder of the DNS library: it fails on a longer character-string, and on nothing else. -/
def TextLimit (encode : Outgoing → Option (List UInt8)) : Prop :=
  ∀ m, (encode m).isSome = true ↔ ∀ r ∈ m.records, r.TextFits

/-- The messages that are made of published records: on any interface, and as a response with any
of them. -/
inductive MadeFrom (p : Published) (m : Outgoing) : Prop
  | announce (i : Iface) (h : announceMessage p i = some m)
  | probe (i : Iface) (id : UInt16) (h : probeMessage p i id = some m)
  | goodbye (h : goodbyeMessage p = some m)
  | response (id : UInt16) (answers additionals : List Record) (hans : answers ⊆ p.all)
      (hadd : additionals ⊆ p.all) (h : responseMessage id answers additionals = some m)

section Encode

variable {p : Published} {m : Outgoing} {r : Record}

/-- Messages are made of published records, up to the TTL. -/
theorem MadeFrom.has (hw : p.WellFormed) (hm : MadeFrom p m) (hr : r ∈ m.records) : p.Has r := by
  cases hm with
  | announce i h =>
    rw [ofAnswers_eq_some h, List.append_nil] at hr
    exact ⟨r, Published.mem_all_of_mem_recordsFor hw hr, rfl⟩
  | probe i id h =>
    rw [probeMessage_records h] at hr
    have hrec := Published.mem_recordsFor.2 (Or.inl hr)
    exact ⟨r, Published.mem_all_of_mem_recordsFor hw hrec, rfl⟩
  | goodbye h =>
    rw [ofAnswers_eq_some h, List.append_nil] at hr
    obtain ⟨s, hs, rfl⟩ := List.mem_map.1 hr
    refine ⟨s, ?_, rfl⟩
    rcases List.mem_append.1 hs with hs | hs
    · exact List.mem_append_left _ hs
    · obtain ⟨svc, hsvc, hs⟩ := List.mem_flatMap.1 hs
      refine List.mem_append_right _ (List.mem_flatMap.2 ⟨svc, hsvc, ?_⟩)
      simp only [List.mem_cons, List.not_mem_nil, or_false] at hs ⊢
      tauto
  | response id answers additionals hans hadd h =>
    rw [ofAnswers_eq_some h] at hr
    rcases List.mem_append.1 hr with hr | hr
    · exact ⟨r, hans hr, rfl⟩
    · exact ⟨r, hadd hr, rfl⟩

/-- The text of a service instance fits if its configured strings do. -/
theorem textFits_txt_iff (sc : ServiceConfig) (metaName svcType instanceName target : Name) :
    (serviceRecords sc metaName svcType instanceName target).txt.TextFits ↔
      ∀ t ∈ sc.txt, (asBytes t).length ≤ 255 := by
  show (∀ s ∈ (if sc.txt.isEmpty then [[]] else sc.txt.map asBytes), s.length ≤ 255) ↔ _
  split_ifs with hempty
  · rw [List.isEmpty_iff.1 hempty]
    simp
  · simp

end Encode

/-- **A configuration that passes the check can be put on the wire** exactly when every configured
text has at most 255 octets. -/
theorem published_encodes_iff {encode : Outgoing → Option (List UInt8)} (henc : TextLimit encode)
    {ε : Type} {api : NameApi ε} {hostname : Name} {services : List ServiceConfig}
    (hvalid : validate api hostname services = .ok ()) (ifaces : List Iface) :
    ∃ p, build api hostname services ifaces = .ok p ∧
      ((∀ m, MadeFrom p m → (encode m).isSome = true) ↔
        ∀ sc ∈ services, ∀ t ∈ sc.txt, (asBytes t).length ≤ 255) := by
  obtain ⟨p, hb⟩ := exists_build_of_validate hvalid ifaces
  have hw : p.WellFormed := Published.BuiltFor.wellFormed ⟨ε, api, hostname, services, hb⟩
  obtain ⟨-, -, -, metaName, -, hsvc, hsvc'⟩ := build_ok hb
  refine ⟨p, hb, ?_, ?_⟩
  · intro hall sc hsc
    obtain ⟨s, hs, hsb⟩ := hsvc sc hsc
    obtain ⟨svcType, -, instanceName, target, -, -, -, rfl⟩ := buildService_ok hsb
    rw [← textFits_txt_iff sc metaName svcType instanceName target]
    -- a response with this one record
    obtain ⟨m, hm⟩ := exists_ofAnswers (List.cons_ne_nil
      (serviceRecords sc metaName svcType instanceName target).txt []) 0 []
    have htxt : (serviceRecords sc metaName svcType instanceName target).txt ∈ p.all :=
      List.mem_append_right _ (List.mem_flatMap.2 ⟨_, hs, by simp⟩)
    have hsome := hall m (.response 0 _ [] (by simpa using htxt) (by simp) hm)
    rw [henc, ofAnswers_eq_some hm] at hsome
    exact hsome _ (List.mem_append_left _ List.mem_cons_self)
  · intro hall m hm
    rw [henc]
    intro r hr
    obtain ⟨s, hs, heq⟩ := hm.has hw hr
    have hfits : s.TextFits := by
      rcases Published.mem_all_cases hw hs with ⟨a, rfl⟩ | ⟨a, rfl⟩ | ⟨svc, hmem, hs⟩
      · trivial
      · trivial
      · obtain ⟨sc, hsc, hsb⟩ := hsvc' svc hmem
        obtain ⟨svcType, -, instanceName, target, -, -, -, rfl⟩ := buildService_ok hsb
        simp only [List.mem_cons, List.not_mem_nil, or_false] at hs
        rcases hs with rfl | rfl | rfl | rfl
        · trivial
        · trivial
        · trivial
        · exact (textFits_txt_iff ..).2 (hall sc hsc)
    rw [heq]
    exact hfits

/-- A web server with a text of the given length. -/
def textService (length : ℕ) : ServiceConfig :=
  ⟨"Admin", "_http._tcp.local.", 80, [String.ofList (List.replicate length 'x')], none⟩

/-- Octets with their number in front, in one octet. -/
def lengthPrefixed (octets : List UInt8) : List UInt8 := UInt8.ofNat octets.length :: octets

/-- An encoder with the documented limit, of the names and texts of a message. -/
def limitEncoder (m : Outgoing) : Option (List UInt8) :=
  if ∀ r ∈ m.records, r.TextFits then
    some (m.records.flatMap fun r => r.name.labels.flatMap lengthPrefixed ++
      match r.data with
      | .txt strings => strings.flatMap lengthPrefixed
      | _ => [])
  else none

theorem limitEncoder_textLimit : TextLimit limitEncoder := by
  intro m
  unfold limitEncoder
  split_ifs with h
  · exact iff_of_true rfl h
  · exact iff_of_false Bool.false_ne_true h

theorem published_encodes_iff_shortText :
    ∃ p, build plainApi routerName [textService 5] [routerIface] = .ok p ∧
      ∀ m, MadeFrom p m → (limitEncoder m).isSome = true := by
  obtain ⟨p, hb, hiff⟩ := published_encodes_iff limitEncoder_textLimit
    (show validate plainApi routerName [textService 5] = .ok () from rfl) [routerIface]
  exact ⟨p, hb, hiff.2 (by decide)⟩

/-- A text of 256 octets passes the check, and the announcement cannot be encoded. -/
theorem announcement_not_encodable :
    validate plainApi routerName [textService 256] = .ok () ∧
      ∃ p m, build plainApi routerName [textService 256] [routerIface] = .ok p ∧
        announceMessage p routerIface = some m ∧
        ∀ encode, TextLimit encode → (encode m).isSome = false := by
  refine ⟨rfl, _, _, rfl, rfl, fun encode henc => ?_⟩
  rw [Bool.eq_false_iff, ne_eq, henc]
  intro hfits
  have hlong := hfits _ (List.mem_append_left _ (List.mem_append_left _ (List.mem_append_right _
    (List.mem_flatMap.2 ⟨_, List.mem_singleton.2 rfl, List.mem_cons_of_mem _ (List.mem_cons_of_mem _
      (List.mem_cons_of_mem _ List.mem_cons_self))⟩))))
  rw [textFits_txt_iff] at hlong
  exact absurd (hlong _ (List.mem_singleton.2 rfl)) (by decide +kernel)

end Nmdns
