import Nmdns.Lib.Positions
import Nmdns.Outgoing

/-!
# A peer that listens

What a peer running the same cache holds after it has heard messages of the daemon.

* `Record.received`: a record as it is decoded from the wire; `Cache.hear`: the peer ingests the
  records of a message;
* `find?_run_ne_none_iff`: what is stored is what stands (`Standing`);
* `goodbye_retracts_iff`: when the goodbye withdraws everything that was announced;
* `announced_unique_iff`: when the peer keeps every SRV and TXT record of the announcement.
-/

namespace Nmdns

/-- Record data as it is decoded from the wire: every name in it is fully qualified. -/
def RData.received : RData → RData
  | .a addr => .a addr
  | .aaaa addr => .aaaa addr
  | .ptr target => .ptr target.decoded
  | .srv priority weight port target => .srv priority weight port target.decoded
  | .txt strings => .txt strings
  | .other rtype names octets => .other rtype (names.map Name.decoded) octets

/-- A record as it is decoded from the wire. -/
def Record.received (r : Record) : Record :=
  { r with name := r.name.decoded, data := r.data.received }

@[simp] theorem received_recordType (r : Record) : r.received.recordType = r.recordType := by
  obtain ⟨name, cls, ttl, data, flush⟩ := r
  cases data <;> rfl

@[simp] theorem Name.decoded_fold (n : Name) : n.decoded.fold = n.fold.decoded := rfl

theorem RData.received_fold (d : RData) : d.received.fold = d.fold.received := by
  cases d <;> simp [RData.received, RData.fold]

/-- Equal records are received as equal records. -/
theorem received_key_congr {r s : Record} (h : RecordKey.of r == RecordKey.of s) :
    RecordKey.of r.received == RecordKey.of s.received := by
  have hfold : ∀ r : Record, (RecordKey.of r.received).fold =
      ⟨(RecordKey.of r).fold.name.decoded, (RecordKey.of r).fold.rtype,
        (RecordKey.of r).fold.dnsClass, (RecordKey.of r).fold.rdata.received⟩ := by
    intro r
    show RecordKey.mk r.received.name.fold r.received.recordType r.received.dnsClass
      r.received.data.fold = _
    rw [received_recordType, Record.received, Name.decoded_fold, RData.received_fold]
    rfl
  rw [RecordKey.beq_iff] at h ⊢
  rw [hfold, hfold, h]

theorem recordType_eq_of_received_beq {r s : Record}
    (h : RecordKey.of r.received == RecordKey.of s.received) : r.recordType = s.recordType := by
  obtain ⟨-, htype, -⟩ := RecordKey.of_beq_iff.1 h
  rwa [received_recordType, received_recordType] at htype

/-- The peer ingests the records of a message. -/
def Cache.hear (c : Cache) (σ : CacheOrder) (now : ℕ) (src : Option UInt32) (rs : List Record) :
    Cache :=
  c.ingest σ now src (rs.map Record.received)

/-- The insertions that hearing a message makes. -/
def heard (σ : CacheOrder) (now : ℕ) (src : Option UInt32) (rs : List Record) : List CacheEvent :=
  (rs.map Record.received).map fun r => ⟨now, .insert σ r src⟩

/-! ### What stands is stored -/

section Hear

variable {n : ℕ} {cap : Option UInt64} {h : List CacheEvent}

theorem hear_eq_run (c : Cache) (σ : CacheOrder) (now : ℕ) (src : Option UInt32)
    (rs : List Record) : c.hear σ now src rs = c.run (heard σ now src rs) :=
  ingest_eq_run c σ now src _

theorem mem_heard {σ : CacheOrder} {now : ℕ} {src : Option UInt32} {rs : List Record}
    {ev : CacheEvent} : ev ∈ heard σ now src rs ↔
      ∃ r ∈ rs, ev = ⟨now, .insert σ r.received src⟩ := by
  unfold heard
  rw [List.map_map, List.mem_map]
  exact exists_congr fun r => and_congr_right fun _ => eq_comm

theorem op_ne_sweep_of_mem_heard {σ : CacheOrder} {now : ℕ} {src : Option UInt32}
    {rs : List Record} {ev : CacheEvent} (hev : ev ∈ heard σ now src rs) : ev.op ≠ .sweep := by
  obtain ⟨r, -, rfl⟩ := mem_heard.1 hev
  exact CacheOp.noConfusion

/-- A heard record supersedes records of its name and type only: the one with its key, or, with the
cache-flush bit and a TTL, also the others. -/
theorem of_supersedes_received {σ : CacheOrder} {now : ℕ} {src : Option UInt32} {r r' : Record}
    (h : Supersedes ⟨now, .insert σ r'.received src⟩ r.received) :
    r.name.decoded == r'.name.decoded ∧ r.recordType = r'.recordType ∧
      (RecordKey.of r'.received == RecordKey.of r.received ∨
        0 < r'.ttl ∧ r'.mdnsCacheFlush = true) := by
  rcases h with hsame | hflush
  · obtain ⟨hname, -⟩ := RecordKey.of_beq_iff.1 hsame
    exact ⟨BEq.symm hname, (recordType_eq_of_received_beq hsame).symm, Or.inl hsame⟩
  · unfold Record.flushes at hflush
    simp only [Bool.and_eq_true, decide_eq_true_eq] at hflush
    obtain ⟨⟨hpos, hbit⟩, hsib⟩ := hflush
    obtain ⟨hname, htype, -⟩ := RecordKey.sibling_iff.1 hsib
    have htype' : r.received.recordType = r'.received.recordType := htype
    rw [received_recordType, received_recordType] at htype'
    exact ⟨Name.beq_iff.2 hname, htype', Or.inr ⟨hpos, hbit⟩⟩

/-- Without sweeps, a key is bound exactly when its register is set. -/
theorem find?_run_isSome (hcap : CapOk cap) (hins : ∀ ev ∈ h, ev.op ≠ .sweep)
    (hkeys : (insertedKeys h).card ≤ max n 1) (k : RecordKey) :
    (((Cache.withCapacityAndMaxTtl n cap).run h).byKey.find? k).isSome =
      (Effect.contents (effectOn k) h).isSome := by
  rw [find?_run_effect hcap hkeys]
  refine List.foldl_rel (r := fun (old : Option Entry) (v : Option (Record × ℕ)) =>
    old.isSome = v.isSome) rfl ?_
  rintro ⟨t, op⟩ hev old v hv
  cases op with
  | sweep => exact absurd rfl (hins _ hev)
  | insert σ r src =>
    simp only [entryEffect, effectOn]
    split_ifs
    · rfl
    · rfl
    · rfl
    · exact hv

theorem find?_run_ne_none_iff (hcap : CapOk cap) (hins : ∀ ev ∈ h, ev.op ≠ .sweep)
    (hkeys : (insertedKeys h).card ≤ max n 1) (k : RecordKey) :
    ((Cache.withCapacityAndMaxTtl n cap).run h).byKey.find? k ≠ none ↔
      ∃ r t, k == RecordKey.of r ∧ Standing h r t := by
  rw [← Option.isSome_iff_ne_none, find?_run_isSome hcap hins hkeys, Option.isSome_iff_exists]
  simp only [Prod.exists, contents_effectOn_iff]

/-- The cache is empty exactly when nothing stands. -/
theorem run_entries_eq_nil_iff (hcap : CapOk cap) (hins : ∀ ev ∈ h, ev.op ≠ .sweep)
    (hkeys : (insertedKeys h).card ≤ max n 1) :
    ((Cache.withCapacityAndMaxTtl n cap).run h).byKey.entries = [] ↔
      ∀ r t, ¬ Standing h r t := by
  constructor
  · intro hnil r t hs
    have hne := (find?_run_ne_none_iff hcap hins hkeys _).2 ⟨r, t, BEq.rfl, hs⟩
    refine hne ?_
    unfold KeyedMap.find?
    rw [hnil]
    rfl
  · intro hnone
    rw [List.eq_nil_iff_forall_not_mem]
    intro q hq
    have hne : ((Cache.withCapacityAndMaxTtl n cap).run h).byKey.find? q.1 ≠ none := by
      rw [KeyedMap.find?_eq_some_iff.2 ⟨q.1, hq, BEq.rfl⟩]
      exact Option.some_ne_none q.2
    obtain ⟨r, t, -, hs⟩ := (find?_run_ne_none_iff hcap hins hkeys _).1 hne
    exact hnone r t hs

/-- What was inserted now and stands is live. -/
theorem live_of_standing (hcap : CapOk cap) (hkeys : (insertedKeys h).card ≤ max n 1) {now : ℕ}
    (hnow : ∀ ev ∈ h, ev.time ≤ now) {r : Record} (hs : Standing h r now) (τ : CacheOrder) :
    ((Cache.withCapacityAndMaxTtl n cap).run h).Live τ now r := by
  have hrun := live_run (n := n) hcap hkeys hnow (RecordKey.of r)
  rw [contents_effectOn_iff.2 ⟨BEq.rfl, hs⟩] at hrun
  obtain ⟨-, -, -, -, -, hpos, -⟩ := hs
  have hlt : now < (storedAs cap (r, now)).2 :=
    lt_deadline_entryOf (c := Cache.withCapacityAndMaxTtl n cap) (capTtl_ne_zero hcap hpos) now none
  rw [Option.map_some, Option.filter_some, if_pos (decide_eq_true hlt),
    Option.filter_eq_some_iff, Option.map_eq_some_iff] at hrun
  obtain ⟨⟨e, hfind, hface⟩, -⟩ := hrun
  refine live_iff_find?.2 ⟨e, hfind, ?_⟩
  rw [show e.deadline = (storedAs cap (r, now)).2 from congrArg Prod.snd hface]
  exact hlt

end Hear

/-! ### Goodbyes -/

/-- What the name library is documented to do with labels. -/
structure NameApi.Composes {ε : Type} (api : NameApi ε) : Prop where
  fromLabels_labels : ∀ ls n, api.fromLabels ls = .ok n → n.labels = ls
  appendName_labels : ∀ m n l, api.appendName m n = .ok l → l.labels = m.labels ++ n.labels

/-- Names that are the same on the wire have as many labels. -/
theorem Name.length_eq_of_decoded_beq {m n : Name} (h : m.decoded == n.decoded) :
    m.labels.length = n.labels.length := by
  have hfold := congrArg (fun l : Name => l.labels.length) (Name.beq_iff.1 h)
  simpa [Name.fold, Name.decoded] using hfold

section Goodbye

variable {ε : Type} {api : NameApi ε} {hostname : Name} {services : List ServiceConfig}
  {ifaces : List Iface} {p : Published} {i : Iface}

theorem goodbye_ttl {g : Record} (hg : g ∈ goodbye p) : g.ttl = 0 := by
  obtain ⟨r, -, rfl⟩ := List.mem_map.1 hg
  rfl

/-- A pointer that the goodbye does not name stays in the peer's cache. -/
theorem exists_standing_of_pointer (hw : p.WellFormed) {r₀ : Record} (hr₀ : r₀ ∈ announced p i)
    (hptr : r₀.recordType = .ptr)
    (hnot : ∀ g ∈ goodbye p, ¬ RecordKey.of g.received == RecordKey.of r₀.received)
    (σ σ' : CacheOrder) (t t' : ℕ) (src src' : Option UInt32) :
    ∃ r, Standing (heard σ t src (announced p i) ++ heard σ' t' src' (goodbye p)) r t := by
  obtain ⟨pre, r, post, hsplit, hkey, hpost⟩ := List.exists_last_split
    (p := fun r : Record => RecordKey.of r.received == RecordKey.of r₀.received)
    ⟨r₀, hr₀, BEq.rfl⟩
  have hrec : ∀ r' ∈ announced p i,
      r'.ttl = publishedTtl r'.recordType ∧ r'.mdnsCacheFlush = (r'.recordType != .ptr) := by
    intro r' hr'
    rw [announced_eq] at hr'
    exact ttl_of_mem_recordsFor hw hr'
  have htype : r.recordType = .ptr := (recordType_eq_of_received_beq hkey).trans hptr
  have hmem : r ∈ announced p i := by
    rw [hsplit]
    exact List.mem_append_right _ List.mem_cons_self
  refine ⟨r.received, heard σ t src pre, σ, src, heard σ t src post ++ heard σ' t' src' (goodbye p),
    ?_, ?_, ?_⟩
  · rw [hsplit]
    simp [heard]
  · show 0 < r.ttl
    rw [(hrec r hmem).1, htype]
    decide
  · intro ev hev hsup
    rcases List.mem_append.1 hev with hev | hev
    · obtain ⟨r', hr', rfl⟩ := mem_heard.1 hev
      obtain ⟨-, htype', hsame | ⟨-, hbit⟩⟩ := of_supersedes_received hsup
      · exact hpost r' hr' (BEq.trans hsame hkey)
      · -- only unique records flush, and they are no pointers
        have hmem' : r' ∈ announced p i := by
          rw [hsplit]
          exact List.mem_append_right _ (List.mem_cons_of_mem _ hr')
        rw [(hrec r' hmem').2, ← htype', htype] at hbit
        cases hbit
    · obtain ⟨g, hg, rfl⟩ := mem_heard.1 hev
      obtain ⟨-, -, hsame | ⟨hpos, -⟩⟩ := of_supersedes_received hsup
      · exact hnot g hg (BEq.trans hsame hkey)
      · rw [goodbye_ttl hg] at hpos
        exact absurd hpos (by decide)

/-- The only pointers of a goodbye are those to the instances. -/
theorem pointer_of_mem_goodbye (hw : p.WellFormed) {g : Record} (hg : g ∈ goodbye p)
    (hptr : g.recordType = .ptr) : ∃ s ∈ p.services, g = { s.ptrTypeToInstance with ttl := 0 } := by
  obtain ⟨r, hr, rfl⟩ := List.mem_map.1 hg
  have htype : r.recordType = .ptr := hptr
  rcases List.mem_append.1 hr with hr | hr
  · rcases List.mem_append.1 hr with hr | hr
    · obtain ⟨a, rfl⟩ := hw.hostA r hr
      cases htype
    · obtain ⟨a, rfl⟩ := hw.hostAaaa r hr
      cases htype
  · obtain ⟨s, hs, hr⟩ := List.mem_flatMap.1 hr
    obtain ⟨sc, metaName, svcType, instanceName, target, rfl⟩ := hw.services s hs
    simp only [List.mem_cons, List.not_mem_nil, or_false] at hr
    rcases hr with rfl | rfl | rfl
    · exact ⟨_, hs, rfl⟩
    · cases htype
    · cases htype

/-- The names of a service: the instance has one label more than its type, and all services have
the same meta name. -/
theorem services_lengths (hapi : api.Composes) (hb : build api hostname services ifaces = .ok p) :
    ∃ metaName : Name, ∀ s ∈ p.services, ∃ sc svcType instanceName target,
      s = serviceRecords sc metaName svcType instanceName target ∧
        instanceName.labels.length = svcType.labels.length + 1 := by
  obtain ⟨-, -, -, metaName, -, -, hsvc⟩ := build_ok hb
  refine ⟨metaName, fun s hs => ?_⟩
  obtain ⟨sc, -, hsb⟩ := hsvc s hs
  obtain ⟨svcType, label, instanceName, target, -, hlabel, hcomp, heq⟩ := buildService_ok hsb
  refine ⟨sc, svcType, instanceName, target, heq, ?_⟩
  rw [hapi.appendName_labels _ _ _ hcomp, hapi.fromLabels_labels _ _ hlabel, List.length_append,
    List.length_singleton, Nat.add_comm]

/-- With a service, some pointer of the announcement is not named by the goodbye.  A pointer to an
instance can stand for the pointer to a type only if its own service is of the meta type, and then
the pointer to that type is left. -/
theorem exists_uncovered (hapi : api.Composes) (hb : build api hostname services ifaces = .ok p)
    (hne : p.services ≠ []) :
    ∃ r₀ ∈ announced p i, r₀.recordType = .ptr ∧
      ∀ g ∈ goodbye p, ¬ RecordKey.of g.received == RecordKey.of r₀.received := by
  have hw : p.WellFormed := Published.BuiltFor.wellFormed ⟨ε, api, hostname, services, hb⟩
  obtain ⟨metaName, hlen⟩ := services_lengths hapi hb
  by_contra hall
  push Not at hall
  have hcover : ∀ s ∈ p.services, ∃ s' ∈ p.services,
      s'.serviceType.labels.length = metaName.labels.length ∧
        s.serviceType.labels.length = metaName.labels.length + 1 := by
    intro s hs
    have hann : s.ptrMetaToType ∈ announced p i := by
      rw [announced_eq]
      exact List.mem_append_right _ (List.mem_flatMap.2 ⟨s, hs, by simp⟩)
    obtain ⟨sc, svcType, instanceName, target, rfl, -⟩ := hlen s hs
    obtain ⟨g, hg, hkey⟩ := hall _ hann rfl
    obtain ⟨s', hs', rfl⟩ :=
      pointer_of_mem_goodbye hw hg (recordType_eq_of_received_beq hkey)
    have hfold := RecordKey.beq_iff.1 hkey
    obtain ⟨sc', svcType', instanceName', target', rfl, hlen'⟩ := hlen s' hs'
    have hname : svcType'.decoded == metaName.decoded :=
      Name.beq_iff.2 (congrArg RecordKey.name hfold)
    have hdata : instanceName'.decoded == svcType.decoded :=
      Name.beq_iff.2 (RData.ptr.inj (congrArg RecordKey.rdata hfold))
    have h₁ : svcType'.labels.length = metaName.labels.length :=
      Name.length_eq_of_decoded_beq hname
    have h₂ : instanceName'.labels.length = svcType.labels.length :=
      Name.length_eq_of_decoded_beq hdata
    refine ⟨_, hs', h₁, ?_⟩
    show svcType.labels.length = metaName.labels.length + 1
    omega
  obtain ⟨s, hs⟩ := List.exists_mem_of_ne_nil _ hne
  obtain ⟨s', hs', hlen₁, -⟩ := hcover s hs
  obtain ⟨-, -, -, hlen₂⟩ := hcover s' hs'
  omega

theorem build_services_eq_nil (hb : build api hostname services ifaces = .ok p) :
    p.services = [] ↔ services = [] := by
  obtain ⟨metaName, -, hall⟩ := build_services hb
  rw [← List.length_eq_zero_iff, ← hall.length_eq, List.length_eq_zero_iff]

/-- Without services, every announced record is named by the goodbye. -/
theorem goodbye_covers_of_nil (hw : p.WellFormed) (hnil : p.services = []) {r : Record}
    (hr : r ∈ announced p i) : { r with ttl := 0 } ∈ goodbye p := by
  rw [announced_eq, Published.recordsFor, hnil] at hr
  refine List.mem_map_of_mem (List.mem_append_left _ (List.mem_append.2 ?_))
  rcases List.mem_append.1 hr with hr | hr
  · exact ((Published.mem_hostRecordsForIface hw).1 hr).imp And.left And.left
  · cases hr

/-- If the goodbye names every announced record, nothing stands after it. -/
theorem not_standing_of_covered (hcover : ∀ r ∈ announced p i, { r with ttl := 0 } ∈ goodbye p)
    (σ σ' : CacheOrder) (t t' : ℕ) (src src' : Option UInt32) (r : Record) (t₀ : ℕ) :
    ¬ Standing (heard σ t src (announced p i) ++ heard σ' t' src' (goodbye p)) r t₀ := by
  rintro ⟨pre, σ₀, src₀, post, hsplit, hpos, hpost⟩
  -- a goodbye has no TTL, so what stands was announced
  have hgood : (⟨t₀, .insert σ₀ r src₀⟩ : CacheEvent) ∉ heard σ' t' src' (goodbye p) := by
    intro hmem
    obtain ⟨g, hg, heq⟩ := mem_heard.1 hmem
    cases heq
    have hzero : g.received.ttl = 0 := show g.ttl = 0 from goodbye_ttl hg
    rw [hzero] at hpos
    exact absurd hpos (by decide)
  obtain ⟨l, hann, hrest⟩ : ∃ l, heard σ t src (announced p i) =
      pre ++ ⟨t₀, .insert σ₀ r src₀⟩ :: l ∧ post = l ++ heard σ' t' src' (goodbye p) := by
    rcases List.append_eq_append_iff.1 hsplit with ⟨l, -, hrest⟩ | ⟨l, hann, hrest⟩
    · refine absurd ?_ hgood
      rw [hrest]
      exact List.mem_append_right _ List.mem_cons_self
    · cases l with
      | nil =>
        refine absurd ?_ hgood
        rw [← List.nil_append (heard σ' t' src' (goodbye p)), ← hrest]
        exact List.mem_cons_self
      | cons ev l =>
        obtain ⟨rfl, rfl⟩ := List.cons.inj hrest
        exact ⟨l, hann, rfl⟩
  have hmem : (⟨t₀, .insert σ₀ r src₀⟩ : CacheEvent) ∈ heard σ t src (announced p i) := by
    rw [hann]
    exact List.mem_append_right _ List.mem_cons_self
  obtain ⟨s, hs, heq⟩ := mem_heard.1 hmem
  cases heq
  have hlater : (⟨t', .insert σ' { s with ttl := 0 }.received src'⟩ : CacheEvent) ∈
      heard σ' t' src' (goodbye p) := mem_heard.2 ⟨_, hcover s hs, rfl⟩
  rw [hrest] at hpost
  exact hpost _ (List.mem_append_right _ hlater) (Or.inl BEq.rfl)

end Goodbye

/-- **The goodbye withdraws everything that was announced** exactly when no service is configured:
the pointers from the meta name to the service types are announced and not withdrawn.  This is so
for the peer's cache and for the records themselves. -/
theorem goodbye_retracts_iff {ε : Type} {api : NameApi ε} (hapi : api.Composes) {hostname : Name}
    {services : List ServiceConfig} {ifaces : List Iface} {p : Published}
    (hb : build api hostname services ifaces = .ok p) (i : Iface) {n : ℕ} {cap : Option UInt64}
    (hcap : CapOk cap) (σ σ' : CacheOrder) (t t' : ℕ) (src src' : Option UInt32)
    (hkeys : (insertedKeys (heard σ t src (announced p i) ++
      heard σ' t' src' (goodbye p))).card ≤ max n 1) :
    ((((Cache.withCapacityAndMaxTtl n cap).hear σ t src (announced p i)).hear σ' t' src'
        (goodbye p)).byKey.entries = [] ↔ services = []) ∧
      ((∀ r ∈ announced p i, ∃ g ∈ goodbye p, RecordKey.of g == RecordKey.of r ∧ g.ttl = 0) ↔
        services = []) := by
  have hw : p.WellFormed := Published.BuiltFor.wellFormed ⟨ε, api, hostname, services, hb⟩
  have hins : ∀ ev ∈ heard σ t src (announced p i) ++ heard σ' t' src' (goodbye p),
      ev.op ≠ .sweep := by
    intro ev hev
    exact (List.mem_append.1 hev).elim op_ne_sweep_of_mem_heard op_ne_sweep_of_mem_heard
  rw [← build_services_eq_nil hb, hear_eq_run, hear_eq_run, ← cache_run_append,
    run_entries_eq_nil_iff hcap hins hkeys]
  refine ⟨⟨fun hnone => ?_, fun hempty => ?_⟩, fun hall => ?_, fun hempty r hr => ?_⟩
  · by_contra hne
    obtain ⟨r₀, hr₀, hptr, hnot⟩ := exists_uncovered hapi hb hne
    obtain ⟨r, hr⟩ := exists_standing_of_pointer hw hr₀ hptr hnot σ σ' t t' src src'
    exact hnone r t hr
  · have hcover : ∀ r ∈ announced p i, { r with ttl := 0 } ∈ goodbye p := fun r hr =>
      goodbye_covers_of_nil hw hempty hr
    exact not_standing_of_covered hcover σ σ' t t' src src'
  · by_contra hne
    obtain ⟨r₀, hr₀, -, hnot⟩ := exists_uncovered (i := i) hapi hb hne
    obtain ⟨g, hg, hkey, -⟩ := hall r₀ hr₀
    exact hnot g hg (received_key_congr hkey)
  · exact ⟨_, goodbye_covers_of_nil hw hempty hr, BEq.rfl, rfl⟩

theorem plainApi_composes : plainApi.Composes where
  fromLabels_labels := by
    intro ls n h
    cases h
    rfl
  appendName_labels := by
    intro m n l h
    cases h
    rfl

theorem goodbye_retracts_iff_router :
    (((Cache.withCapacityAndMaxTtl 4096 none).hear (IterOrder.id _ _) 0 none
      (announced routerPublished routerIface)).hear (IterOrder.id _ _) (fromSecs 1) none
        (goodbye routerPublished)).byKey.entries = [] := by
  have hb : build plainApi routerName [] [routerIface] = .ok routerPublished := rfl
  exact (goodbye_retracts_iff plainApi_composes hb routerIface capOk_none _ _ 0 (fromSecs 1) none
    none (by decide)).1.2 rfl

/-- After the announcement and the goodbye of a web server, the pointer to its type is left. -/
theorem goodbye_leaves_pointer :
    webPublished.BuiltFor [routerIface] ∧
      ((((Cache.withCapacityAndMaxTtl 4096 none).hear (IterOrder.id _ _) 0 none
        (announced webPublished routerIface)).hear (IterOrder.id _ _) (fromSecs 1) none
          (goodbye webPublished)).byKey.entries.map fun e => e.2.record.recordType) = [.ptr] :=
  ⟨webPublished_builtFor, by decide +kernel⟩

/-! ### Unique records -/

section Unique

variable {ε : Type} {api : NameApi ε} {hostname : Name} {services : List ServiceConfig}
  {ifaces : List Iface} {p : Published} {i : Iface}

/-- The name of the instance that a service is configured with. -/
def instanceNameOf (api : NameApi ε) (sc : ServiceConfig) : Except ε Name := do
  let svcType ← api.fromStr sc.service
  let instanceLabel ← api.fromLabels [asBytes sc.name]
  api.appendName instanceLabel svcType

/-- Two names that are both well formed and the same on the wire. -/
def Collide (a b : Except ε Name) : Prop :=
  ∃ m n, a = .ok m ∧ b = .ok n ∧ m.decoded == n.decoded

theorem build_instanceNames (hb : build api hostname services ifaces = .ok p) :
    services.map (instanceNameOf api) = p.services.map fun s => .ok s.instanceName := by
  obtain ⟨metaName, -, hall⟩ := build_services hb
  rw [← List.forall₂_eq_eq_eq, List.forall₂_map_left_iff, List.forall₂_map_right_iff]
  refine hall.imp fun sc s hs => ?_
  obtain ⟨svcType, label, instanceName, target, hsvc, hlabel, hcomp, rfl⟩ := buildService_ok hs
  unfold instanceNameOf
  rw [hsvc, hlabel]
  exact hcomp

/-- The configured instances have different names exactly when the published ones do. -/
theorem pairwise_instanceName_iff (hb : build api hostname services ifaces = .ok p) :
    (services.Pairwise fun sc sc' => ¬ Collide (instanceNameOf api sc) (instanceNameOf api sc')) ↔
      p.services.Pairwise fun s s' => ¬ s.instanceName.decoded == s'.instanceName.decoded := by
  have hmap := List.pairwise_map (R := fun a b : Except ε Name => ¬ Collide a b)
    (f := instanceNameOf api) (l := services)
  rw [← hmap, build_instanceNames hb, List.pairwise_map]
  refine iff_of_eq (congrArg (fun R => List.Pairwise R p.services) ?_)
  funext s s'
  simp [Collide]

/-- At most one record for each name, names compared as on the wire. -/
def OnePerName (rs : List Record) : Prop :=
  rs.Pairwise fun r r' => ¬ r.name.decoded == r'.name.decoded

/-- A peer that hears the announcement on any interface, from an empty cache with room for its
records, has every SRV and TXT record afterwards. -/
def KeptByPeers (p : Published) : Prop :=
  ∀ (i : Iface) (n : ℕ) (cap : Option UInt64), CapOk cap →
    ∀ (σ : CacheOrder) (now : ℕ) (src : Option UInt32),
      (insertedKeys (heard σ now src (announced p i))).card ≤ max n 1 →
      ∀ s ∈ p.services, ∀ r ∈ [s.srv, s.txt], ∀ τ,
        ((Cache.withCapacityAndMaxTtl n cap).hear σ now src (announced p i)).Live τ now r.received

/-- With different instance names, no two SRV records and no two TXT records share a name. -/
theorem recordsFor_pairwise (hw : p.WellFormed)
    (hd : p.services.Pairwise fun s s' => ¬ s.instanceName.decoded == s'.instanceName.decoded) :
    (p.recordsFor i).Pairwise fun r r' => r.recordType = r'.recordType →
      r.recordType = .srv ∨ r.recordType = .txt → ¬ r.name.decoded == r'.name.decoded := by
  have hhost : ∀ r ∈ p.hostRecordsForIface i, ¬ (r.recordType = .srv ∨ r.recordType = .txt) := by
    intro r hr
    rcases (Published.mem_hostRecordsForIface hw).1 hr with ⟨-, a, -, rfl⟩ | ⟨-, a, -, rfl⟩ <;>
      simp [uniqueRecord, Record.fromRdata, Record.recordType, RData.recordType]
  unfold Published.recordsFor
  rw [List.pairwise_append]
  refine ⟨List.pairwise_of_forall_mem_list fun r hr r' hr' _ h => absurd h (hhost r hr), ?_,
    fun r hr r' hr' _ h => absurd h (hhost r hr)⟩
  rw [List.pairwise_flatMap]
  constructor
  · intro s hs
    obtain ⟨sc, metaName, svcType, instanceName, target, rfl⟩ := hw.services s hs
    simp [serviceRecords, uniqueRecord, Record.fromRdata, Record.recordType, RData.recordType]
  · refine hd.imp_of_mem fun {s s'} hs hs' hne r hr r' hr' htype hsrv => ?_
    obtain ⟨sc, metaName, svcType, instanceName, target, rfl⟩ := hw.services s hs
    obtain ⟨sc', metaName', svcType', instanceName', target', rfl⟩ := hw.services s' hs'
    simp only [List.mem_cons, List.not_mem_nil, or_false] at hr hr'
    -- a SRV or TXT record has the name of its instance
    rcases hr with rfl | rfl | rfl | rfl
    · rcases hsrv with h | h <;> cases h
    · rcases hsrv with h | h <;> cases h
    · rcases hr' with rfl | rfl | rfl | rfl
      · cases htype
      · cases htype
      · exact hne
      · cases htype
    · rcases hr' with rfl | rfl | rfl | rfl
      · cases htype
      · cases htype
      · cases htype
      · exact hne

/-- Then each of them stands after the announcement. -/
theorem standing_of_unique (hw : p.WellFormed)
    (hd : p.services.Pairwise fun s s' => ¬ s.instanceName.decoded == s'.instanceName.decoded)
    {r : Record} (hr : r ∈ announced p i) (htype : r.recordType = .srv ∨ r.recordType = .txt)
    (σ : CacheOrder) (now : ℕ) (src : Option UInt32) :
    Standing (heard σ now src (announced p i)) r.received now := by
  have httl := hr
  rw [announced_eq] at httl
  have hpair := recordsFor_pairwise (i := i) hw hd
  rw [← announced_eq] at hpair
  obtain ⟨pre, post, hsplit⟩ := List.append_of_mem hr
  rw [hsplit, List.pairwise_append, List.pairwise_cons] at hpair
  obtain ⟨-, ⟨hlater, -⟩, -⟩ := hpair
  refine ⟨heard σ now src pre, σ, src, heard σ now src post, ?_, ?_, ?_⟩
  · rw [hsplit]
    simp [heard]
  · show 0 < r.ttl
    rw [(ttl_of_mem_recordsFor hw httl).1]
    rcases htype with h | h <;> rw [h] <;> decide
  · intro ev hev hsup
    obtain ⟨r', hr', rfl⟩ := mem_heard.1 hev
    obtain ⟨hname, hrt, -⟩ := of_supersedes_received hsup
    exact hlater r' hr' hrt htype hname

theorem keptByPeers_of_pairwise (hw : p.WellFormed)
    (hd : p.services.Pairwise fun s s' => ¬ s.instanceName.decoded == s'.instanceName.decoded) :
    KeptByPeers p := by
  intro i n cap hcap σ now src hkeys s hs r hr τ
  have hmem : r ∈ announced p i := by
    rw [announced_eq]
    refine List.mem_append_right _ (List.mem_flatMap.2 ⟨s, hs, ?_⟩)
    rcases List.mem_pair.1 hr with rfl | rfl <;> simp
  have htype : r.recordType = .srv ∨ r.recordType = .txt := by
    obtain ⟨sc, metaName, svcType, instanceName, target, rfl⟩ := hw.services s hs
    rcases List.mem_pair.1 hr with rfl | rfl
    · exact Or.inl rfl
    · exact Or.inr rfl
  rw [hear_eq_run]
  refine live_of_standing hcap hkeys (fun ev hev => ?_)
    (standing_of_unique hw hd hmem htype σ now src) τ
  obtain ⟨r', -, rfl⟩ := mem_heard.1 hev
  exact le_rfl

end Unique

/-- **Unique records are unique** exactly when no two configured services have the same instance
name: then there is one SRV and one TXT record for each name, and peers keep them all. -/
theorem announced_unique_iff {ε : Type} {api : NameApi ε} {hostname : Name}
    {services : List ServiceConfig} (hvalid : validate api hostname services = .ok ())
    (ifaces : List Iface) :
    ∃ p, build api hostname services ifaces = .ok p ∧
      (OnePerName (p.services.map ServiceRecords.srv) ∧
        OnePerName (p.services.map ServiceRecords.txt) ∧ KeptByPeers p ↔
      services.Pairwise fun sc sc' =>
        ¬ Collide (instanceNameOf api sc) (instanceNameOf api sc')) := by
  obtain ⟨p, hb⟩ := exists_build_of_validate hvalid ifaces
  have hw : p.WellFormed := Published.BuiltFor.wellFormed ⟨ε, api, hostname, services, hb⟩
  have hname : ∀ s ∈ p.services, s.srv.name = s.instanceName ∧ s.txt.name = s.instanceName := by
    intro s hs
    obtain ⟨sc, metaName, svcType, instanceName, target, rfl⟩ := hw.services s hs
    exact ⟨rfl, rfl⟩
  refine ⟨p, hb, ?_⟩
  rw [pairwise_instanceName_iff hb]
  unfold OnePerName
  rw [List.pairwise_map, List.pairwise_map]
  constructor
  · rintro ⟨hsrv, -, -⟩
    refine hsrv.imp_of_mem fun {s s'} hs hs' hne => ?_
    rw [← (hname s hs).1, ← (hname s' hs').1]
    exact hne
  · intro hd
    refine ⟨hd.imp_of_mem fun {s s'} hs hs' hne => ?_, hd.imp_of_mem fun {s s'} hs hs' hne => ?_,
      keptByPeers_of_pairwise hw hd⟩
    · rw [(hname s hs).1, (hname s' hs').1]
      exact hne
    · rw [(hname s hs).2, (hname s' hs').2]
      exact hne

/-- A web server with the given instance name and port. -/
def adminService (name : String) (port : UInt16) : ServiceConfig :=
  ⟨name, "_http._tcp.local.", port, [], none⟩

theorem announced_unique_iff_admins :
    ∃ p, build plainApi routerName [adminService "Admin" 80, adminService "Setup" 8080]
        [routerIface] = .ok p ∧ KeptByPeers p := by
  obtain ⟨p, hb, hiff⟩ := announced_unique_iff
    (show validate plainApi routerName [adminService "Admin" 80, adminService "Setup" 8080] =
      .ok () from rfl) [routerIface]
  refine ⟨p, hb, (hiff.2 ?_).2.2⟩
  rw [List.pairwise_pair]
  rintro ⟨m, n, hm, hn, heq⟩
  cases hm
  cases hn
  exact absurd heq (by decide +kernel)

/-- Two instances whose names differ in case only pass the check; of their SRV records a peer keeps
the one that was announced last. -/
theorem announced_srv_lost :
    validate plainApi routerName [adminService "Admin" 80, adminService "admin" 8080] = .ok () ∧
      ∃ p s s', build plainApi routerName [adminService "Admin" 80, adminService "admin" 8080]
          [routerIface] = .ok p ∧ p.services = [s, s'] ∧
        (s.srv.name.decoded == s'.srv.name.decoded) = true ∧
        (insertedKeys (heard (IterOrder.id _ _) 0 none (announced p routerIface))).card ≤ 4096 ∧
        ¬ ((Cache.withCapacityAndMaxTtl 4096 none).hear (IterOrder.id _ _) 0 none
          (announced p routerIface)).Live (IterOrder.id _ _) 0 s.srv.received := by
  refine ⟨rfl, _, _, _, rfl, rfl, ?_, ?_, ?_⟩
  · decide +kernel
  · decide +kernel
  · decide +kernel

end Nmdns
