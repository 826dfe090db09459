import Nmdns.Shutdown

/-!
# Records that travel from cache to cache

Several daemons that answer from their caches, and may repeat datagrams, join the links of a
network.  What one of them relays another one hears, caches with a TTL that is rounded up, and may
relay in turn.

* `Codec`: what is assumed of the DNS library;
* `Mesh`, `Net.Reach`: the processes of all daemons and what was sent, over all interleavings,
  losses, delays and restarts, and with lookups that read the clock before they take the lock;
* `Net.Lineage`: how a record has come from the host that it belongs to;
* `Net.Traced`, `traced`: every record has a lineage, which does not turn back;
* `relayed_expires`: without cycles, nothing outlives its TTL by much.
-/

namespace Nmdns

open Bridges Async

/-! ### The network -/

/-- What is assumed of the DNS library: names that are read from the wire are fully qualified, and
what can be read of an encoded message, of which a receiver takes `maxPacket` octets, has the type
and the records of that message. -/
structure Codec (parse : List UInt8 → Option Message) (encode : Outgoing → Option (List UInt8)) :
    Prop where
  decoded : ∀ {data msg}, parse data = some msg → ∀ r ∈ msg.records, r.received = r
  roundtrip : ∀ {m data msg}, encode m = some data → parse (data.take maxPacket) = some msg →
    msg.messageType = m.messageType ∧ msg.records = m.records.map Record.received

/-- The octets of what is put on the wire. -/
def Output.octets (encode : Outgoing → Option (List UInt8)) : Output → Option (List UInt8)
  | .probe _ m | .announcement _ m | .query _ m | .goodbye _ m => encode m
  | .response _ resp => (responseMessage resp.id resp.answers resp.additionals).bind encode
  | .forward data => some data

/-- The records that a frame brings to a cache. -/
def Frame.records {L : Type} (parse : List UInt8 → Option Message) (f : Frame L) : List Record :=
  match parse (f.data.take maxPacket) with
  | some msg => if msg.messageType = .query then [] else msg.records
  | none => []

/-- A frame that was sent: when, and by which daemon, if it was one. -/
structure Airing (D L : Type) where
  sender : Option D
  time : ℕ
  frame : Frame L

/-- The handler is in its state since `now`. -/
def Inflight.since (now : ℕ) : Inflight → Inflight
  | .spawned _ pkt => .spawned now pkt
  | .asleep _ pkt pd delay => .asleep now pkt pd delay
  | .forwarding _ pkt => .forwarding now pkt

/-- The `n`-th handler, which has a query, begins, and its lookups use a `reading` of the clock that
was made before they took the lock (`src/cache.rs`, `lookup_inner`).  A query leaves the state as it
is. -/
def Process.handleQueryAt (s : Process) (launch : Launch) (reading now n : ℕ) (σ : CacheOrder)
    (rand : ℕ) : Process :=
  match s.handlers[n]? with
  | some (.spawned _ pkt) =>
    { s with
      handlers := s.handlers.eraseIdx n ++
        (beginDatagram launch.parse launch.published s.shared σ rand reading pkt).2.map
          (Inflight.since now) }
  | _ => s

/-- The daemons, and all that was sent. -/
structure Mesh (D L : Type) where
  process : D → Process
  air : List (Airing D L)

namespace Net

variable {D L : Type} (net : Net D L)

/-- The frame has an emission of the daemon `d`. -/
structure Carries (encode : Outgoing → Option (List UInt8)) (d : D) (em : Emission)
    (a : Airing D L) : Prop where
  sender : a.sender = some d
  time : a.time = em.time
  link : a.frame.link = net.link d em.iface.ifindex
  octets : em.output.octets encode = some a.frame.data
  source : em.iface.hasAddr a.frame.source = true

/-- The datagram is what the daemon `d` reads of the frame, over one of its interfaces. -/
def Reads (d : D) (a : Airing D L) (pkt : Datagram) : Prop :=
  ∃ i ∈ net.ifaces d, net.link d i.ifindex = a.frame.link ∧ a.frame.received i = .ok pkt

/-- What can come about in the network.  A frame may be heard by any daemon on its link, within `H`
after it was sent, by none, or several times; emissions may be lost; daemons may be restarted; and
no handler is late by more than `δ`.  The lookups of a query may use a reading of the clock from any
time since the query was received. -/
inductive Reach [DecidableEq D] (launch : D → Launch) (encode : Outgoing → Option (List UInt8))
    (H δ : ℕ) : ℕ → Mesh D L → Prop
  | start : Reach launch encode H δ 0
      ⟨fun d => Process.start (net.config d) (net.ifaces d) 0, []⟩
  | wait {now now' : ℕ} {m : Mesh D L} (h : Reach launch encode H δ now m) (hle : now ≤ now') :
      Reach launch encode H δ now' m
  | foreign {now : ℕ} {m : Mesh D L} (h : Reach launch encode H δ now m) {f : Frame L}
      (hf : net.Foreign f) : Reach launch encode H δ now ⟨m.process, ⟨none, now, f⟩ :: m.air⟩
  | restart {now : ℕ} {m : Mesh D L} (h : Reach launch encode H δ now m) (d : D) :
      Reach launch encode H δ now ⟨Function.update m.process d
        (Process.start (net.config d) (net.ifaces d) now), m.air⟩
  | step {now : ℕ} {m : Mesh D L} (h : Reach launch encode H δ now m) {d : D} {op : ProcessOp}
      (hon : (m.process d).HandlersOnTime δ now)
      (hears : ∀ pkt, op = .receive pkt →
        ∃ a ∈ m.air, net.Reads d a pkt ∧ a.time ≤ now ∧ now ≤ a.time + H)
      {s' : Process} (hs : (m.process d).step (launch d) ⟨now, op⟩ = s')
      {new : List (Airing D L)}
      (hnew : ∀ a ∈ new, ∃ em ∈ s'.wire.drop (m.process d).wire.length,
        net.Carries encode d em a) :
      Reach launch encode H δ now ⟨Function.update m.process d s', new ++ m.air⟩
  | lookup {now : ℕ} {m : Mesh D L} (h : Reach launch encode H δ now m) {d : D}
      {reading n time : ℕ} {pkt : Datagram} {msg : Message} (σ : CacheOrder) (rand : ℕ)
      (hexit : (m.process d).main.pc ≠ .exited) (hon : (m.process d).HandlersOnTime δ now)
      (hn : (m.process d).handlers[n]? = some (.spawned time pkt))
      (hparse : (launch d).parse pkt.data = some msg) (hquery : msg.messageType = .query)
      (htime : time ≤ reading) (hreading : reading ≤ now) :
      Reach launch encode H δ now ⟨Function.update m.process d
        ((m.process d).handleQueryAt (launch d) reading now n σ rand), m.air⟩

/-- The record is sent by the host that it belongs to. -/
def Original (published : D → Published) (a : Airing D L) (r : Record) : Prop :=
  a.sender = none ∨ ∃ d, ∃ j ∈ net.ifaces d, ∃ s ∈ (published d).recordsFor j,
    a.sender = some d ∧ r = s.received

/-- The way of a record from its host, the latest hop first: each daemon heard it from another one
on one of its links, and relayed it on another link, with a TTL that runs out at most `Δ` later. -/
inductive Lineage (parse : List UInt8 → Option Message) (published : D → Published) (Δ : ℕ)
    (air : List (Airing D L)) (a₀ : Airing D L) (r₀ : Record) :
    List (D × L) → Airing D L → Record → Prop
  | original (ha : a₀ ∈ air) (hr : r₀ ∈ a₀.frame.records parse)
      (h : net.Original published a₀ r₀) : Lineage parse published Δ air a₀ r₀ [] a₀ r₀
  | relay {way : List (D × L)} {a a' : Airing D L} {r r' : Record} {d : D}
      (h : Lineage parse published Δ air a₀ r₀ way a r) (ha : a' ∈ air)
      (hr : r' ∈ a'.frame.records parse) (hsender : a'.sender = some d)
      (hother : a.sender ≠ some d) (hin : net.Attached d a.frame.link)
      (hout : net.Attached d a'.frame.link) (hlink : a'.frame.link ≠ a.frame.link)
      (hkey : RecordKey.of r' == RecordKey.of r)
      (hexpiry : a'.time + fromSecs r'.ttl.toNat ≤ a.time + fromSecs r.ttl.toNat + Δ) :
      Lineage parse published Δ air a₀ r₀ ((d, a'.frame.link) :: way) a' r'

end Net

/-! ### Lineages -/

section Lineage

variable {D L : Type} {net : Net D L} {parse : List UInt8 → Option Message}
  {published : D → Published} {Δ : ℕ} {air air' : List (Airing D L)} {a₀ a : Airing D L}
  {r₀ r : Record} {way : List (D × L)}

theorem Net.Lineage.mono (h : net.Lineage parse published Δ air a₀ r₀ way a r)
    (hsub : air ⊆ air') : net.Lineage parse published Δ air' a₀ r₀ way a r := by
  induction h with
  | original ha hr h => exact .original (hsub ha) hr h
  | relay h ha hr hsender hother hin hout hlink hkey hexpiry ih =>
    exact .relay ih (hsub ha) hr hsender hother hin hout hlink hkey hexpiry

theorem Net.Lineage.original_mem (h : net.Lineage parse published Δ air a₀ r₀ way a r) :
    a₀ ∈ air ∧ r₀ ∈ a₀.frame.records parse ∧ net.Original published a₀ r₀ := by
  induction h with
  | original ha hr h => exact ⟨ha, hr, h⟩
  | relay h ha hr hsender hother hin hout hlink hkey hexpiry ih => exact ih

/-- **Daemons relay as bridges do**: what a daemon has sent it does not hear, and where it heard a
record it does not send it. -/
theorem Net.Lineage.trail (h : net.Lineage parse published Δ air a₀ r₀ way a r) :
    Trail net.Attached a₀.frame.link way ∧ here a₀.frame.link way = a.frame.link ∧
      ∀ hop ∈ way.head?, a.sender = some hop.1 := by
  induction h with
  | original ha hr h => exact ⟨.nil, rfl, by simp⟩
  | relay h ha hr hsender hother hin hout hlink hkey hexpiry ih =>
    obtain ⟨htrail, hhere, hhead⟩ := ih
    rw [← hhere] at hin hlink
    refine ⟨.hop htrail hin hout hlink ?_, rfl, ?_⟩
    · intro hop hhop heq
      exact hother (heq ▸ hhead hop hhop)
    · rintro hop ⟨⟩
      exact hsender

/-- The record stays the same, and each hop defers the end by no more than `Δ`. -/
theorem Net.Lineage.spec (h : net.Lineage parse published Δ air a₀ r₀ way a r) :
    RecordKey.of r == RecordKey.of r₀ ∧
      a.time + fromSecs r.ttl.toNat ≤ a₀.time + fromSecs r₀.ttl.toNat + way.length * Δ := by
  induction h with
  | original ha hr h => exact ⟨BEq.rfl, by simp⟩
  | relay h ha hr hsender hother hin hout hlink hkey hexpiry ih =>
    obtain ⟨ihkey, ihexpiry⟩ := ih
    refine ⟨BEq.trans hkey ihkey, ?_⟩
    rw [List.length_cons, Nat.succ_mul]
    omega

end Lineage

/-! ### What is read from a frame -/

section Frames

variable {D L : Type} {net : Net D L} {parse : List UInt8 → Option Message}
  {encode : Outgoing → Option (List UInt8)}

theorem records_of_parse {f : Frame L} {msg : Message}
    (h : parse (f.data.take maxPacket) = some msg) :
    f.records parse = if msg.messageType = .query then [] else msg.records := by
  simp only [Frame.records, h]

/-- What is no response brings no records. -/
theorem records_eq_nil {f : Frame L}
    (h : ∀ msg, parse (f.data.take maxPacket) = some msg → msg.messageType = .query) :
    f.records parse = [] := by
  unfold Frame.records
  split
  · rename_i msg hparse
    rw [if_pos (h msg hparse)]
  · rfl

theorem received_of_mem_records (hcodec : Codec parse encode) {f : Frame L} {r : Record}
    (hr : r ∈ f.records parse) : r.received = r := by
  unfold Frame.records at hr
  split at hr
  · rename_i msg hparse
    split_ifs at hr
    · cases hr
    · exact hcodec.decoded hparse r hr
  · cases hr

/-- The records of a frame whose message was encoded. -/
theorem mem_records_of_encode (hcodec : Codec parse encode) {m : Outgoing} {f : Frame L}
    (hdata : encode m = some f.data) {r : Record} (hr : r ∈ f.records parse) :
    m.messageType = .response ∧ ∃ s ∈ m.records, r = s.received := by
  unfold Frame.records at hr
  split at hr
  · rename_i msg hparse
    obtain ⟨htype, hrecords⟩ := hcodec.roundtrip hdata hparse
    split_ifs at hr with hquery
    · cases hr
    · rw [hrecords] at hr
      obtain ⟨s, hs, rfl⟩ := List.mem_map.1 hr
      refine ⟨?_, s, hs, rfl⟩
      cases hm : m.messageType with
      | query => exact absurd (htype.trans hm) hquery
      | response => rfl
  · cases hr

/-- What a daemon reads. -/
theorem Net.Reads.spec {d : D} {a : Airing D L} {pkt : Datagram} (h : net.Reads d a pkt) :
    ∃ i ∈ net.ifaces d, net.link d i.ifindex = a.frame.link ∧ pkt.recvIfindex = some i.ifindex ∧
      pkt.data = a.frame.data.take maxPacket ∧ pkt.sourceIp = a.frame.source := by
  obtain ⟨i, hi, hlink, hrecv⟩ := h
  rw [received_eq] at hrecv
  cases hrecv
  exact ⟨i, hi, hlink, rfl, rfl, rfl⟩

/-- The interfaces of a daemon are on different links. -/
theorem Net.link_ne (net : Net D L) {d : D} {i j : Iface} (hi : i ∈ net.ifaces d)
    (hj : j ∈ net.ifaces d) (hne : i.ifindex ≠ j.ifindex) :
    net.link d i.ifindex ≠ net.link d j.ifindex := by
  intro heq
  have hij := List.inj_on_of_nodup_map (net.distinct d) hi hj heq
  exact hne (congrArg Iface.ifindex hij)

end Frames

/-! ### What a daemon holds -/

/-- Where an entry comes from that is found after a message from a known interface. -/
theorem ingest_find?_cases {c : Cache} (hcap : CapOk c.maxTtl) {σ : CacheOrder} {now : ℕ}
    {j : UInt32} {rs : List Record} {k : RecordKey} {e : Entry}
    (he : (c.ingest σ now (some j) rs).byKey.find? k = some e) :
    c.byKey.find? k = some e ∨ ∃ r ∈ rs, r.ttl ≠ 0 ∧ k == RecordKey.of r ∧
      e.face = storedAs c.maxTtl (r, now) ∧ e.sourceIfindex = some j := by
  induction rs generalizing c with
  | nil => exact Or.inl he
  | cons s rs ih =>
    rw [ingest_cons] at he
    rcases ih (by rwa [insertFrom_maxTtl]) he with hold | ⟨r, hr, httl, hk, hface, hsrc⟩
    · rcases insertFrom_find?_cases hcap hold with ⟨hk, httl, rfl⟩ | ⟨-, hfind, -⟩
      · exact Or.inr ⟨s, List.mem_cons_self, httl, hk, rfl, rfl⟩
      · exact Or.inl hfind
    · rw [insertFrom_maxTtl] at hface
      exact Or.inr ⟨r, List.mem_cons_of_mem _ hr, httl, hk, hface, hsrc⟩

section Holds

variable {D L : Type}

/-- An entry of the cache of `d` comes from a frame of another host, which `d` handled at `t`,
within `W` after it was sent, and heard over the interface that the entry names. -/
structure Net.Heard (net : Net D L) (parse : List UInt8 → Option Message) (W : ℕ) (d : D)
    (k : RecordKey) (e : Entry) (a : Airing D L) (r : Record) (t : ℕ) : Prop where
  record : r ∈ a.frame.records parse
  positive : r.ttl ≠ 0
  key : k == RecordKey.of r
  stored : e.face = storedAs (net.config d).cacheMaxTtlSecs (r, t)
  iface : ∃ i ∈ net.ifaces d, e.sourceIfindex = some i.ifindex ∧
    net.link d i.ifindex = a.frame.link
  other : a.sender ≠ some d
  soon : t ≤ a.time + W

/-- The record `r'`, which `d` has at `now` from its cache for the interface `arrival`, comes from
the record `r` of the frame `a`. -/
structure Net.Relays (net : Net D L) (parse : List UInt8 → Option Message) (W now : ℕ) (d : D)
    (arrival : Iface) (a : Airing D L) (r r' : Record) : Prop where
  record : r ∈ a.frame.records parse
  positive : r.ttl ≠ 0
  other : a.sender ≠ some d
  attached : net.Attached d a.frame.link
  link : net.link d arrival.ifindex ≠ a.frame.link
  key : RecordKey.of r'.received == RecordKey.of r
  expiry : now + fromSecs r'.ttl.toNat ≤ a.time + fromSecs r.ttl.toNat + (W + fromSecs 1)

/-- What the handlers of `d` are about. -/
def Net.Held (net : Net D L) (parse : List UInt8 → Option Message) (published : D → Published)
    (H δ : ℕ) (air : List (Airing D L)) (d : D) : Inflight → Prop
  | .spawned time pkt => ∃ a ∈ air, net.Reads d a pkt ∧ time ≤ a.time + H
  | .asleep time pkt pd delay => delay ≤ fromMillis 500 ∧ pd.arrival ∈ net.ifaces d ∧
      (∃ a ∈ air, net.Reads d a pkt ∧ a.sender ≠ some d ∧ a.frame.records parse = []) ∧
      ∀ r' ∈ pd.answers ++ pd.additionals, r' ∈ (published d).recordsFor pd.arrival ∨
        ∃ a ∈ air, ∃ r, net.Relays parse (H + 2 * δ) time d pd.arrival a r r'
  | .forwarding time pkt => ∃ a ∈ air, net.Reads d a pkt ∧ a.sender ≠ some d ∧
      (a.frame.records parse ≠ [] → time ≤ a.time + (H + δ))

/-- The process of `d`, as far as it depends on what was heard. -/
structure Net.Grounded (net : Net D L) (parse : List UInt8 → Option Message)
    (published : D → Published) (H δ : ℕ) (air : List (Airing D L)) (d : D) (s : Process)
    (now : ℕ) : Prop where
  clocked : s.Clocked now
  config : s.shared.config = net.config d
  ifaces : s.shared.ifaces = net.ifaces d
  maxTtl : s.shared.cache.maxTtl = (net.config d).cacheMaxTtlSecs
  main : s.main.pc.ifaces ⊆ net.ifaces d
  browser : ∀ bg ∈ s.background, bg.browser.pc.ifaces ⊆ net.ifaces d
  entries : ∀ k e, s.shared.cache.byKey.find? k = some e →
    ∃ a ∈ air, ∃ r t, net.Heard parse (H + δ) d k e a r t
  handlers : ∀ x ∈ s.handlers, net.Held parse published H δ air d x

variable {net : Net D L} {parse : List UInt8 → Option Message} {published : D → Published}
  {encode : Outgoing → Option (List UInt8)} {H δ W now now' : ℕ} {air air' : List (Airing D L)}
  {d : D} {s : Process}

theorem Net.Held.mono {x : Inflight} (h : net.Held parse published H δ air d x)
    (hsub : air ⊆ air') : net.Held parse published H δ air' d x := by
  cases x with
  | spawned time pkt =>
    obtain ⟨a, ha, hrest⟩ := h
    exact ⟨a, hsub ha, hrest⟩
  | asleep time pkt pd delay =>
    obtain ⟨hdelay, harr, ⟨a, ha, hrest⟩, hrecords⟩ := h
    refine ⟨hdelay, harr, ⟨a, hsub ha, hrest⟩, fun r' hr' => ?_⟩
    rcases hrecords r' hr' with hown | ⟨a, ha, hrelays⟩
    · exact Or.inl hown
    · exact Or.inr ⟨a, hsub ha, hrelays⟩
  | forwarding time pkt =>
    obtain ⟨a, ha, hrest⟩ := h
    exact ⟨a, hsub ha, hrest⟩

theorem Net.Grounded.mono (h : net.Grounded parse published H δ air d s now) (hsub : air ⊆ air')
    (hle : now ≤ now') : net.Grounded parse published H δ air' d s now' := by
  refine ⟨h.clocked.mono hle, h.config, h.ifaces, h.maxTtl, h.main, h.browser, ?_,
    fun x hx => (h.handlers x hx).mono hsub⟩
  intro k e he
  obtain ⟨a, ha, r, t, hheard⟩ := h.entries k e he
  exact ⟨a, hsub ha, r, t, hheard⟩

theorem cappedSecs_le_ttl (cap : Option UInt64) (ttl : UInt32) :
    cappedSecs cap ttl ≤ ttl.toNat := by
  unfold cappedSecs
  split
  · exact Nat.min_le_left _ _
  · exact le_rfl

/-- **What a cache relays of a record that was heard**: the TTL is rounded up, to less than a second
more than what is left at the reading, which may be earlier than the insertion. -/
theorem Net.Heard.relays (hcodec : Codec parse encode)
    (hcap : CapOk (net.config d).cacheMaxTtlSecs) {k : RecordKey} {e : Entry} {a : Airing D L}
    {r s : Record} {t reading : ℕ} (h : net.Heard parse W d k e a r t)
    (hs : recordWithRemainingTtl e reading = some s) {arrival : Iface}
    (harr : arrival ∈ net.ifaces d) (hsrc : ∃ j, e.sourceIfindex = some j ∧ j ≠ arrival.ifindex) :
    net.Relays parse W reading d arrival a r { s with mdnsCacheFlush := false } := by
  obtain ⟨-, hsame⟩ := recordWithRemainingTtl_eq_some.1 hs
  have hrecord : e.record = { r with ttl := capTtl (net.config d).cacheMaxTtlSecs r.ttl } :=
    congrArg Prod.fst h.stored
  have hdeadline : e.deadline =
      t + fromSecs (capTtl (net.config d).cacheMaxTtlSecs r.ttl).toNat :=
    congrArg Prod.snd h.stored
  obtain ⟨i, hi, hindex, hlink⟩ := h.iface
  refine ⟨h.record, h.positive, h.other, ⟨i, hi, hlink⟩, ?_, ?_, ?_⟩
  · obtain ⟨j, hj, hne⟩ := hsrc
    rw [hindex] at hj
    cases hj
    rw [← hlink]
    exact net.link_ne harr hi hne.symm
  · have hdec := received_of_mem_records hcodec h.record
    have hsplit : ∀ ttl, RecordKey.of ({ r with ttl := ttl, mdnsCacheFlush := false } :
        Record).received = RecordKey.of r.received := fun _ => rfl
    rw [hsame, hrecord, hsplit, hdec]
    exact BEq.rfl
  · have hsoon := h.soon
    have hcapped := cappedSecs_le_ttl (net.config d).cacheMaxTtlSecs r.ttl
    rw [← capTtl_toNat hcap] at hcapped
    have hsecs : fromSecs (capTtl (net.config d).cacheMaxTtlSecs r.ttl).toNat ≤
        fromSecs r.ttl.toNat := Nat.mul_le_mul_right _ hcapped
    have httl := recordWithRemainingTtl_ttl_lt hs
    rw [hdeadline] at httl
    show reading + fromSecs s.ttl.toNat ≤ _
    omega

/-- What was read stands for a while. -/
theorem Net.Relays.later {lag reading : ℕ} {arrival : Iface} {a : Airing D L} {r r' : Record}
    (h : net.Relays parse W reading d arrival a r r') (hle : now ≤ reading + lag) :
    net.Relays parse (W + lag) now d arrival a r r' := by
  have hexpiry := h.expiry
  exact { h with expiry := by omega }

/-- What `d` may send at `now` on an interface. -/
def Net.Sends (net : Net D L) (parse : List UInt8 → Option Message) (published : D → Published)
    (H δ : ℕ) (air : List (Airing D L)) (d : D) (now : ℕ) (iface : Iface) : Output → Prop
  | .probe _ m | .query _ m => m.messageType = .query
  | .announcement _ m => ∀ r' ∈ m.records, r' ∈ (published d).recordsFor iface
  | .goodbye _ m => ∀ r' ∈ m.records, r'.ttl = 0
  | .response _ resp => ∀ r' ∈ resp.records, r' ∈ (published d).recordsFor iface ∨
      ∃ a ∈ air, ∃ r time, net.Relays parse (H + 2 * δ) time d iface a r r' ∧
        now ≤ time + fromMillis 500 + δ
  | .forward data => ∃ a ∈ air, net.Attached d a.frame.link ∧ a.sender ≠ some d ∧
      net.link d iface.ifindex ≠ a.frame.link ∧ data = a.frame.data.take maxPacket ∧
      (a.frame.records parse ≠ [] → now ≤ a.time + (H + δ) + δ)

/-- How much later a record may run out after it was relayed. -/
def relaySlack (H δ : ℕ) : ℕ := H + 3 * δ + fromMillis 1500

/-- **What a daemon sends has a lineage**: it is the daemon's own, or it was heard on another
link. -/
theorem Net.Sends.lineage (hcodec : Codec parse encode) {em : Emission}
    (h : net.Sends parse published H δ air d now em.iface em.output) (htime : em.time = now)
    (hiface : em.iface ∈ net.ifaces d) {a' : Airing D L} (hcarries : net.Carries encode d em a')
    (ha' : a' ∈ air') (hsub : air ⊆ air')
    (hlines : ∀ a ∈ air, ∀ r ∈ a.frame.records parse, r.ttl ≠ 0 →
      ∃ a₀ r₀ way, net.Lineage parse published (relaySlack H δ) air a₀ r₀ way a r)
    {r' : Record} (hr' : r' ∈ a'.frame.records parse) (httl : r'.ttl ≠ 0) :
    ∃ a₀ r₀ way, net.Lineage parse published (relaySlack H δ) air' a₀ r₀ way a' r' := by
  have hout : net.Attached d a'.frame.link := ⟨em.iface, hiface, hcarries.link.symm⟩
  have hatime : a'.time = now := hcarries.time.trans htime
  have hoctets := hcarries.octets
  have hown : ∀ q ∈ (published d).recordsFor em.iface, r' = q.received →
      ∃ a₀ r₀ way, net.Lineage parse published (relaySlack H δ) air' a₀ r₀ way a' r' :=
    fun q hq heq =>
      ⟨_, _, _, .original ha' hr' (Or.inr ⟨d, em.iface, hiface, q, hq, hcarries.sender, heq⟩)⟩
  cases houtput : em.output with
  | probe attempt m | query round m =>
    rw [houtput] at h hoctets
    have htype : m.messageType = .query := h
    rw [(mem_records_of_encode hcodec hoctets hr').1] at htype
    cases htype
  | announcement round m =>
    rw [houtput] at h hoctets
    obtain ⟨-, q, hq, heq⟩ := mem_records_of_encode hcodec hoctets hr'
    exact hown q (h q hq) heq
  | goodbye round m =>
    rw [houtput] at h hoctets
    obtain ⟨-, q, hq, rfl⟩ := mem_records_of_encode hcodec hoctets hr'
    exact absurd (h q hq) httl
  | response defense resp =>
    rw [houtput] at h hoctets
    obtain ⟨m, hm, hdata⟩ := Option.bind_eq_some_iff.1 hoctets
    obtain ⟨-, q, hq, heq⟩ := mem_records_of_encode hcodec hdata hr'
    rw [ofAnswers_eq_some hm] at hq
    rcases h q hq with hpub | ⟨a, ha, r, time, hrelays, hlate⟩
    · exact hown q hpub heq
    · obtain ⟨a₀, r₀, way, hline⟩ := hlines a ha r hrelays.record hrelays.positive
      subst heq
      refine ⟨a₀, r₀, _, .relay (hline.mono hsub) ha' hr' hcarries.sender hrelays.other
        hrelays.attached hout ?_ hrelays.key ?_⟩
      · rw [hcarries.link]
        exact hrelays.link
      · have hexpiry := hrelays.expiry
        have hsplit : relaySlack H δ = H + 3 * δ + fromSecs 1 + fromMillis 500 := by
          unfold relaySlack fromSecs fromMillis
          omega
        rw [hatime, hsplit]
        show now + fromSecs q.ttl.toNat ≤ _
        omega
  | forward data =>
    rw [houtput] at h hoctets
    obtain ⟨a, ha, hin, hother, hlink, rfl, hsoon⟩ := h
    -- the copy has the same records
    have hrecords : a'.frame.records parse = a.frame.records parse := by
      unfold Frame.records
      rw [← Option.some.inj hoctets, List.take_take, Nat.min_self]
    have hr : r' ∈ a.frame.records parse := hrecords ▸ hr'
    obtain ⟨a₀, r₀, way, hline⟩ := hlines a ha r' hr httl
    refine ⟨a₀, r₀, _, .relay (hline.mono hsub) ha' hr' hcarries.sender hother hin hout ?_ BEq.rfl
      ?_⟩
    · rw [hcarries.link]
      exact hlink
    · have hlate := hsoon (List.ne_nil_of_mem hr)
      rw [hatime]
      unfold relaySlack
      omega

end Holds

/-! ### One event of a daemon -/

section Step

variable {D L : Type} {net : Net D L} {parse : List UInt8 → Option Message}
  {published : D → Published} {encode : Outgoing → Option (List UInt8)} {H δ now : ℕ}
  {air : List (Airing D L)} {d : D} {s s' : Process}

/-- The cache is left alone. -/
theorem Net.Grounded.frame (h : net.Grounded parse published H δ air d s now)
    (hclocked : s'.Clocked now) (hconfig : s'.shared.config = s.shared.config)
    (hifaces : s'.shared.ifaces = s.shared.ifaces) (hcache : s'.shared.cache = s.shared.cache)
    (hmain : s'.main.pc.ifaces ⊆ net.ifaces d)
    (hbrowser : ∀ bg ∈ s'.background, bg.browser.pc.ifaces ⊆ net.ifaces d)
    (hhandlers : ∀ x ∈ s'.handlers, net.Held parse published H δ air d x) :
    net.Grounded parse published H δ air d s' now := by
  refine ⟨hclocked, hconfig.trans h.config, hifaces.trans h.ifaces, ?_, hmain, hbrowser, ?_,
    hhandlers⟩
  · rw [hcache]
    exact h.maxTtl
  · rw [hcache]
    exact h.entries

/-- What the main task sends. -/
theorem mem_mainEmissions {p : Published} {e : Option MainEffect} {wire : Wire} {id : UInt16}
    (hiface : ∀ effect ∈ e, ∀ i ∈ effect.iface?, i ∈ net.ifaces d) (hp : p = published d)
    {em : Emission} (hem : em ∈ e.toList.flatMap (MainEffect.emissions p now wire id)) :
    em.time = now ∧ em.iface ∈ net.ifaces d ∧
      net.Sends parse published H δ air d now em.iface em.output := by
  obtain ⟨effect, heffect, hem⟩ := List.mem_flatMap.1 hem
  have hmem : effect ∈ e := Option.mem_toList.1 heffect
  cases effect with
  | probe iface attempt =>
    obtain ⟨m, hm, rfl⟩ := of_mem_emit hem
    refine ⟨rfl, hiface _ hmem iface rfl, ?_⟩
    unfold probeMessage at hm
    dsimp only at hm
    split_ifs at hm
    cases hm
    exact rfl
  | announce iface round =>
    obtain ⟨m, hm, rfl⟩ := of_mem_emit hem
    refine ⟨rfl, hiface _ hmem iface rfl, fun r' hr' => ?_⟩
    rwa [ofAnswers_eq_some hm, List.append_nil, hp] at hr'
  | spawn => cases hem
  | goodbye iface round =>
    obtain ⟨m, hm, rfl⟩ := of_mem_emit hem
    refine ⟨rfl, hiface _ hmem iface rfl, fun r' hr' => ?_⟩
    rw [ofAnswers_eq_some hm, List.append_nil] at hr'
    exact goodbye_ttl hr'

/-- What the browser sends. -/
theorem mem_browserEmissions {names : List Name} {e : Option BrowserEffect} {wire : Wire}
    (hiface : ∀ effect ∈ e, ∀ i ∈ effect.iface?, i ∈ net.ifaces d) {em : Emission}
    (hem : em ∈ e.toList.flatMap (BrowserEffect.emissions names now wire)) :
    em.time = now ∧ em.iface ∈ net.ifaces d ∧
      net.Sends parse published H δ air d now em.iface em.output := by
  obtain ⟨effect, heffect, hem⟩ := List.mem_flatMap.1 hem
  have hmem : effect ∈ e := Option.mem_toList.1 heffect
  cases effect with
  | encode round => cases hem
  | query iface round =>
    simp only [BrowserEffect.emissions] at hem
    split_ifs at hem
    · rw [List.mem_singleton.1 hem]
      exact ⟨rfl, hiface _ hmem iface rfl, rfl⟩
    · cases hem

/-- A response is made of what was prepared for it. -/
theorem respond_subset {pd : Pending} {t : MulticastTracker} {wire : Wire} {resp : Response}
    (h : (pd.respond t now wire).2 = some resp) : resp.records ⊆ pd.answers ++ pd.additionals := by
  rcases pd.respond_cases t now wire with ⟨heq, -⟩ | ⟨answers, extra, -, hsub, hsub', -, -, heq⟩
  · rw [heq] at h
    cases h
  · rw [heq] at h
    split_ifs at h
    cases h
    exact (hsub.append hsub').subset

/-- The datagram is not one of the daemon's own. -/
theorem sender_ne_of_admitted {a : Airing D L} {pkt : Datagram} (hreads : net.Reads d a pkt)
    (hsender : a.sender = some d → ∃ i ∈ net.ifaces d, i.hasAddr a.frame.source = true)
    (hadm : admitted (net.config d) (net.ifaces d) pkt = true) : a.sender ≠ some d := by
  intro hd
  obtain ⟨i, hi, hown⟩ := hsender hd
  obtain ⟨-, -, -, -, -, hsource⟩ := hreads.spec
  simp only [admitted, Bool.and_eq_true, Bool.not_eq_true', List.any_eq_false] at hadm
  exact hadm.1.2 i hi (by rw [hsource]; exact hown)

/-- A handler begins at `now`, with a reading of the clock that is not much older. -/
theorem Net.Grounded.begin (h : net.Grounded parse published H δ air d s now)
    (hcodec : Codec parse encode) (hcap : CapOk (net.config d).cacheMaxTtlSecs)
    (hw : (published d).WellFormed) {a : Airing D L} (ha : a ∈ air)
    (hsender : a.sender = some d → ∃ i ∈ net.ifaces d, i.hasAddr a.frame.source = true)
    {pkt : Datagram} (hreads : net.Reads d a pkt) (hsoon : now ≤ a.time + (H + δ)) {reading : ℕ}
    (hle : reading ≤ now) (hlag : now ≤ reading + δ) {σ : CacheOrder} {rand : ℕ} {st : State}
    {rest : List Inflight}
    (hbegin : beginDatagram parse (published d) s.shared σ rand reading pkt = (st, rest)) :
    st.config = net.config d ∧ st.ifaces = net.ifaces d ∧
      st.cache.maxTtl = (net.config d).cacheMaxTtlSecs ∧
      (∀ k e, st.cache.byKey.find? k = some e →
        ∃ a ∈ air, ∃ r t, net.Heard parse (H + δ) d k e a r t) ∧
      ∀ x ∈ rest, net.Held parse published H δ air d (x.since now) := by
  obtain ⟨i, hi, hlink, hindex, hdata, -⟩ := hreads.spec
  rcases beginDatagram_cases parse (published d) s.shared σ rand reading pkt with
    heq | ⟨hadm, ⟨hquery, heq⟩ | ⟨msg, arrival, pd, hparse, hquery, harr, hprep, heq⟩ |
      ⟨msg, hparse, htype, heq⟩⟩
  · rw [hbegin] at heq
    cases heq
    exact ⟨h.config, h.ifaces, h.maxTtl, h.entries, by simp⟩
  all_goals
    rw [hbegin] at heq
    cases heq
    rw [h.config, h.ifaces] at hadm
    have hother := sender_ne_of_admitted hreads hsender hadm
  · refine ⟨h.config, h.ifaces, h.maxTtl, h.entries, fun x hx => ?_⟩
    rw [mem_rest hx]
    exact ⟨a, ha, hreads, hother, fun _ => hsoon⟩
  · refine ⟨h.config, h.ifaces, h.maxTtl, h.entries, fun x hx => ?_⟩
    rw [List.mem_singleton.1 hx]
    have harrival : pd.arrival = arrival := (prepareResponse_eq_some hprep).2.2.2.1
    rw [h.ifaces] at harr
    refine ⟨responseDelay_le _ _, by rw [harrival]; exact harr, ⟨a, ha, hreads, hother, ?_⟩, ?_⟩
    · refine records_eq_nil fun msg' hmsg' => ?_
      rw [← hdata, hparse] at hmsg'
      cases hmsg'
      exact hquery
    · intro r' hr'
      rw [harrival]
      rcases mem_prepared hw hprep hr' with hown | ⟨-, k, e, q, hfind, hsrc, hq, rfl⟩
      · exact Or.inl hown
      · obtain ⟨a', ha', r, t, hheard⟩ := h.entries k e hfind
        have hrelays := (hheard.relays hcodec hcap hq harr hsrc).later hlag
        rw [Nat.add_assoc, ← Nat.two_mul] at hrelays
        exact Or.inr ⟨a', ha', r, hrelays⟩
  · have hrecords : a.frame.records parse = msg.records := by
      rw [records_of_parse (hdata ▸ hparse), if_neg htype]
    obtain ⟨idx, i', hidx, hget, hindex'⟩ :=
      exists_identify_of_ifindex hindex (List.mem_map_of_mem hi)
    have hsrc : sourceIfindex s.shared.ifaces (identifyRecvIface pkt s.shared.ifaces) =
        some i.ifindex := by
      rw [h.ifaces, hidx]
      simp only [sourceIfindex, Option.bind_some, hget, Option.map_some, hindex']
    refine ⟨h.config, h.ifaces, (ingest_maxTtl _ _).trans h.maxTtl, ?_, ?_⟩
    · intro k e he
      simp only [handleResponseMsg, hsrc] at he
      have hmax := h.maxTtl
      rcases ingest_find?_cases (by rw [hmax]; exact hcap) he with
        hold | ⟨r, hr, httl, hk, hface, hsource⟩
      · exact h.entries k e hold
      · rw [hmax] at hface
        rw [← hrecords] at hr
        exact ⟨a, ha, r, reading, hr, httl, hk, hface, ⟨i, hi, hsource, hlink⟩, hother,
          hle.trans hsoon⟩
    · intro x hx
      rw [mem_rest hx]
      exact ⟨a, ha, hreads, hother, fun _ => hsoon⟩

/-- What is left to do of a handler that begins at `now` is due since then. -/
theorem since_of_mem_beginDatagram {p : Published} {st : State} {σ : CacheOrder} {rand : ℕ}
    {pkt : Datagram} {x : Inflight} (hx : x ∈ (beginDatagram parse p st σ rand now pkt).2) :
    x.since now = x := by
  rcases mem_beginDatagram hx with ⟨pd, rfl⟩ | rfl <;> rfl

/-- The handler of a query begins. -/
theorem Net.Grounded.lookup {launch : Launch} (h : net.Grounded parse published H δ air d s now)
    (hcodec : Codec parse encode) (hcap : CapOk (net.config d).cacheMaxTtlSecs)
    (hw : (published d).WellFormed) (hparse : launch.parse = parse)
    (hp : launch.published = published d)
    (hsender : ∀ a ∈ air, a.sender = some d → ∃ i ∈ net.ifaces d, i.hasAddr a.frame.source = true)
    (hon : s.HandlersOnTime δ now) {reading n time : ℕ} {pkt : Datagram}
    (hn : s.handlers[n]? = some (.spawned time pkt)) (htime : time ≤ reading)
    (hreading : reading ≤ now) (σ : CacheOrder) (rand : ℕ) :
    net.Grounded parse published H δ air d (s.handleQueryAt launch reading now n σ rand) now := by
  have hmem := List.mem_of_getElem? hn
  obtain ⟨a, ha, hreads, hheard⟩ := h.handlers _ hmem
  have hlate : now ≤ time + δ := hon _ hmem
  have hbegin : beginDatagram parse (published d) s.shared σ rand reading pkt =
      ((beginDatagram launch.parse launch.published s.shared σ rand reading pkt).1,
        (beginDatagram launch.parse launch.published s.shared σ rand reading pkt).2) := by
    rw [hparse, hp]
  obtain ⟨-, -, -, -, hrest⟩ := h.begin hcodec hcap hw ha (hsender a ha) hreads (by omega) hreading
    (by omega) hbegin
  simp only [Process.handleQueryAt, hn]
  refine h.frame ⟨h.clocked.main, h.clocked.background⟩ rfl rfl rfl h.main h.browser fun x hx => ?_
  rcases List.mem_append.1 hx with hx | hx
  · exact h.handlers x (List.mem_of_mem_eraseIdx hx)
  · obtain ⟨y, hy, rfl⟩ := List.mem_map.1 hx
    exact hrest y hy

/-- **One event of a daemon**: all it holds is still grounded in what was heard, and so is what it
sends. -/
theorem Net.Grounded.next {launch : Launch} (h : net.Grounded parse published H δ air d s now)
    (hcodec : Codec parse encode) (hcap : CapOk (net.config d).cacheMaxTtlSecs)
    (hw : (published d).WellFormed) (hparse : launch.parse = parse)
    (hp : launch.published = published d)
    (hsender : ∀ a ∈ air, a.sender = some d → ∃ i ∈ net.ifaces d, i.hasAddr a.frame.source = true)
    (hon : s.HandlersOnTime δ now)
    (hspawn : ∀ t pkt, .spawned t pkt ∈ s'.handlers → .spawned t pkt ∈ s.handlers ∨
      net.Held parse published H δ air d (.spawned t pkt))
    (hnext : s.Next launch now s') :
    net.Grounded parse published H δ air d s' now ∧ ∃ es, s'.wire = s.wire ++ es ∧
      ∀ em ∈ es, em.time = now ∧ em.iface ∈ net.ifaces d ∧
        net.Sends parse published H δ air d now em.iface em.output := by
  have hclocked := hnext.clocked h.clocked
  have hsilent : ∃ es, s.wire = s.wire ++ es ∧ ∀ em ∈ es, em.time = now ∧
      em.iface ∈ net.ifaces d ∧ net.Sends parse published H δ air d now em.iface em.output :=
    ⟨[], (List.append_nil _).symm, by simp⟩
  cases hnext with
  | idle => exact ⟨h, hsilent⟩
  | main hmoves hd =>
    rw [h.ifaces] at hmoves
    obtain ⟨hmain, hiface⟩ := mainIfaces_moves h.main hmoves
    refine ⟨h.frame hclocked rfl rfl rfl hmain ?_ h.handlers, _, rfl,
      fun em hem => mem_mainEmissions hiface hp hem⟩
    intro bg hbg
    dsimp only at hbg
    split_ifs at hbg
    · cases hbg
      exact List.nil_subset _
    · exact h.browser bg hbg
  | browser hexit hbg hmoves hd =>
    rw [h.ifaces] at hmoves
    obtain ⟨hbrowser, hiface⟩ := browserIfaces_moves (h.browser _ hbg) hmoves
    refine ⟨h.frame hclocked rfl rfl rfl h.main ?_ h.handlers, _, rfl,
      fun em hem => mem_browserEmissions hiface hem⟩
    rintro _ ⟨⟩
    exact hbrowser
  | evictor hexit hbg hmoves hd =>
    rename_i bg d' pc e
    refine ⟨⟨hclocked, ?_, ?_, ?_, h.main, ?_, ?_, h.handlers⟩, hsilent⟩
    · dsimp only
      split_ifs <;> exact h.config
    · dsimp only
      split_ifs <;> exact h.ifaces
    · dsimp only
      split_ifs <;> exact h.maxTtl
    · rintro _ ⟨⟩
      exact h.browser bg hbg
    · intro k e' he'
      dsimp only at he'
      split_ifs at he'
      · simp only [State.sweep, evictExpired_find?, Option.filter_eq_some_iff] at he'
        exact h.entries k e' he'.1
      · exact h.entries k e' he'
  | signal hbg hstop => exact ⟨h.frame hclocked rfl rfl rfl h.main h.browser h.handlers, hsilent⟩
  | receive hloop hlen =>
    refine ⟨h.frame hclocked rfl rfl rfl h.main h.browser fun x hx => ?_, hsilent⟩
    rcases List.mem_append.1 hx with hold | hnew
    · exact h.handlers x hold
    · rw [List.mem_singleton.1 hnew] at hx ⊢
      rcases hspawn _ _ hx with hold | hheld
      · exact h.handlers _ hold
      · exact hheld
  | handle σ rand hexit hn =>
    rename_i n time pkt
    have hmem := List.mem_of_getElem? hn
    obtain ⟨a, ha, hreads, htime⟩ := h.handlers _ hmem
    have hsoon : now ≤ a.time + (H + δ) := by
      have hlate : now ≤ time + δ := hon _ hmem
      omega
    have hbegin : beginDatagram parse (published d) s.shared σ rand now pkt =
        ((beginDatagram launch.parse launch.published s.shared σ rand now pkt).1,
          (beginDatagram launch.parse launch.published s.shared σ rand now pkt).2) := by
      rw [hparse, hp]
    obtain ⟨hconfig, hifaces, hmax, hentries, hrest⟩ :=
      h.begin hcodec hcap hw ha (hsender a ha) hreads hsoon le_rfl (Nat.le_add_right _ _) hbegin
    refine ⟨⟨hclocked, hconfig, hifaces, hmax, h.main, h.browser, hentries, fun x hx => ?_⟩,
      hsilent⟩
    rcases List.mem_append.1 hx with hx | hx
    · exact h.handlers x (List.mem_of_mem_eraseIdx hx)
    · rw [← since_of_mem_beginDatagram hx]
      exact hrest x hx
  | wake wire hexit hn hready =>
    rename_i n time delay pkt pd
    have hmem := List.mem_of_getElem? hn
    obtain ⟨hdelay, harr, ⟨a, ha, hreads, hother, hnil⟩, hrecords⟩ := h.handlers _ hmem
    have hlate : now ≤ time + delay + δ := hon _ hmem
    refine ⟨h.frame hclocked rfl rfl rfl h.main h.browser fun x hx => ?_, _, rfl, ?_⟩
    · rcases List.mem_append.1 hx with hx | hx
      · exact h.handlers x (List.mem_of_mem_eraseIdx hx)
      · rw [mem_rest hx]
        exact ⟨a, ha, hreads, hother, fun hne => absurd hnil hne⟩
    · intro em hem
      obtain ⟨resp, hresp, rfl⟩ := List.mem_map.1 hem
      refine ⟨rfl, harr, fun r' hr' => ?_⟩
      have hprepared : r' ∈ pd.answers ++ pd.additionals :=
        respond_subset (Option.mem_toList.1 hresp) hr'
      rcases hrecords r' hprepared with hown | ⟨a', ha', r, hrelays⟩
      · exact Or.inl hown
      · exact Or.inr ⟨a', ha', r, time, hrelays, by omega⟩
  | forward sockets hexit hn =>
    rename_i n time pkt
    have hmem := List.mem_of_getElem? hn
    obtain ⟨a, ha, hreads, hother, hsoon⟩ := h.handlers _ hmem
    obtain ⟨i, hi, hlink, hindex, hdata, -⟩ := hreads.spec
    have hlate : now ≤ time + δ := hon _ hmem
    refine ⟨h.frame hclocked rfl rfl rfl h.main h.browser
      fun x hx => h.handlers x (List.mem_of_mem_eraseIdx hx), _, rfl, ?_⟩
    intro em hem
    obtain ⟨j, hj, rfl⟩ := List.mem_map.1 hem
    rw [h.ifaces] at hj
    obtain ⟨hjmem, hne⟩ := ((net.forwardIfaces_links hi hindex).2 j).1 (List.mem_filter.1 hj).1
    refine ⟨rfl, hjmem, a, ha, ⟨i, hi, hlink⟩, hother, ?_, hdata, fun hrecords => ?_⟩
    · rw [← hlink]
      exact hne
    · have := hsoon hrecords
      omega

end Step

/-! ### The network -/

/-- Everything that is sent or held has a lineage. -/
structure Net.Traced {D L : Type} (net : Net D L) (parse : List UInt8 → Option Message)
    (published : D → Published) (H δ now : ℕ) (m : Mesh D L) : Prop where
  sender : ∀ a ∈ m.air, ∀ d, a.sender = some d →
    ∃ i ∈ net.ifaces d, i.hasAddr a.frame.source = true
  records : ∀ a ∈ m.air, ∀ r ∈ a.frame.records parse, r.ttl ≠ 0 →
    ∃ a₀ r₀ way, net.Lineage parse published (relaySlack H δ) m.air a₀ r₀ way a r
  grounded : ∀ d, net.Grounded parse published H δ m.air d (m.process d) now

section Traced

variable {D L : Type} {net : Net D L} {parse : List UInt8 → Option Message}
  {published : D → Published} {H δ now now' : ℕ} {m : Mesh D L}

theorem Net.Traced.mono (h : net.Traced parse published H δ now m) (hle : now ≤ now') :
    net.Traced parse published H δ now' m :=
  ⟨h.sender, h.records, fun d => (h.grounded d).mono (List.Subset.refl _) hle⟩

/-- More is sent. -/
theorem Net.Traced.send (h : net.Traced parse published H δ now m) (new : List (Airing D L))
    (hsender : ∀ a ∈ new, ∀ d, a.sender = some d →
      ∃ i ∈ net.ifaces d, i.hasAddr a.frame.source = true)
    (hrecords : ∀ a ∈ new, ∀ r ∈ a.frame.records parse, r.ttl ≠ 0 →
      ∃ a₀ r₀ way, net.Lineage parse published (relaySlack H δ) (new ++ m.air) a₀ r₀ way a r) :
    net.Traced parse published H δ now ⟨m.process, new ++ m.air⟩ := by
  have hsub : m.air ⊆ new ++ m.air := List.subset_append_right _ _
  refine ⟨?_, ?_, fun d => (h.grounded d).mono hsub le_rfl⟩
  · intro a ha
    rcases List.mem_append.1 ha with ha | ha
    · exact hsender a ha
    · exact h.sender a ha
  · intro a ha r hr httl
    rcases List.mem_append.1 ha with ha | ha
    · exact hrecords a ha r hr httl
    · obtain ⟨a₀, r₀, way, hline⟩ := h.records a ha r hr httl
      exact ⟨a₀, r₀, way, hline.mono hsub⟩

/-- The process of a daemon changes. -/
theorem Net.Traced.update [DecidableEq D] (h : net.Traced parse published H δ now m) {d : D}
    {s' : Process} (hs' : net.Grounded parse published H δ m.air d s' now) :
    net.Traced parse published H δ now ⟨Function.update m.process d s', m.air⟩ := by
  refine ⟨h.sender, h.records, fun d' => ?_⟩
  by_cases hd : d' = d
  · subst hd
    dsimp only
    rw [Function.update_self]
    exact hs'
  · dsimp only
    rw [Function.update_of_ne hd]
    exact h.grounded d'

theorem grounded_start (net : Net D L) (air : List (Airing D L)) (d : D) (now : ℕ) :
    net.Grounded parse published H δ air d (Process.start (net.config d) (net.ifaces d) now)
      now where
  clocked := clocked_start _ _ _
  config := rfl
  ifaces := rfl
  maxTtl := rfl
  main := List.Subset.refl _
  browser := by simp [Process.start]
  entries k e he := by cases (KeyedMap.find?_empty k).symm.trans he
  handlers := by simp [Process.start]

/-- **Every record has a lineage**, in every reachable state of the network. -/
theorem traced [DecidableEq D] {launch : D → Launch} {encode : Outgoing → Option (List UInt8)}
    (hcodec : Codec parse encode) (hparse : ∀ d, (launch d).parse = parse)
    (hcap : ∀ d, CapOk (net.config d).cacheMaxTtlSecs)
    (hpub : ∀ d, (launch d).published.BuiltFor (net.ifaces d))
    (h : net.Reach launch encode H δ now m) :
    net.Traced parse (fun d => (launch d).published) H δ now m := by
  induction h with
  | start => exact ⟨by simp, by simp, fun d => grounded_start net [] d 0⟩
  | wait h hle ih => exact ih.mono hle
  | foreign h hf ih =>
    refine ih.send [_] ?_ ?_
    · intro a ha d hd
      rw [List.mem_singleton.1 ha] at hd
      cases hd
    · intro a ha r hr _
      rw [List.mem_singleton.1 ha] at hr ⊢
      exact ⟨_, _, _, .original List.mem_cons_self hr (Or.inl rfl)⟩
  | restart h d ih => exact ih.update (grounded_start net _ d _)
  | @step now m h d op hon hears s' hs new hnew ih =>
    have hclocked : (m.process d).Clocked (⟨now, op⟩ : ProcessEvent).time :=
      (ih.grounded d).clocked
    have hnext : (m.process d).Next (launch d) now s' := by
      rw [← hs]
      exact next_of_step hclocked
    have hspawn : ∀ t pkt, .spawned t pkt ∈ s'.handlers →
        .spawned t pkt ∈ (m.process d).handlers ∨
          net.Held parse (fun d => (launch d).published) H δ m.air d (.spawned t pkt) := by
      intro t pkt ht
      rw [← hs] at ht
      rcases spawned_of_step ht with hold | ⟨rfl, hop⟩
      · exact Or.inl hold
      · obtain ⟨a, ha, hreads, -, hsoon⟩ := hears pkt hop
        exact Or.inr ⟨a, ha, hreads, hsoon⟩
    obtain ⟨hs', es, hwire, hes⟩ := (ih.grounded d).next hcodec (hcap d) (hpub d).wellFormed
      (hparse d) rfl (fun a ha => ih.sender a ha d) hon hspawn hnext
    have hnew' : ∀ a ∈ new, ∃ em ∈ es, net.Carries encode d em a := by
      rw [hwire, List.drop_left] at hnew
      exact hnew
    refine (ih.update hs').send new ?_ ?_
    · intro a ha d' hd'
      obtain ⟨em, hem, hcarries⟩ := hnew' a ha
      rw [hcarries.sender] at hd'
      cases hd'
      exact ⟨em.iface, (hes em hem).2.1, hcarries.source⟩
    · intro a ha r hr httl
      obtain ⟨em, hem, hcarries⟩ := hnew' a ha
      obtain ⟨htime, hiface, hsends⟩ := hes em hem
      exact hsends.lineage hcodec htime hiface hcarries (List.mem_append_left _ ha)
        (List.subset_append_right _ _) ih.records hr httl
  | @lookup now m h d reading n time pkt msg σ rand hexit hon hn hmsg hquery htime hreading ih =>
    exact ih.update ((ih.grounded d).lookup hcodec (hcap d) (hpub d).wellFormed (hparse d) rfl
      (fun a ha => ih.sender a ha d) hon hn htime hreading σ rand)

end Traced

/-- **Nothing outlives its host by much.**  Let a network of finitely many daemons have no cycle,
let every frame be heard within `H` or not at all, and no handler be late by more than `δ`.  Over
all interleavings, losses and restarts, an entry of a cache comes from a frame in which the record's
own host sent it, and ends at most `H + δ`, and a second and a half and `H + 3 δ` for each daemon,
after the TTL that it had there.  So a host that falls silent is forgotten everywhere. -/
theorem relayed_expires {D L : Type} [DecidableEq D] [Fintype D] {net : Net D L}
    {parse : List UInt8 → Option Message} {encode : Outgoing → Option (List UInt8)}
    {launch : D → Launch} {H δ now : ℕ} {m : Mesh D L} (hG : net.graph.IsAcyclic)
    (hcodec : Codec parse encode) (hparse : ∀ d, (launch d).parse = parse)
    (hcap : ∀ d, CapOk (net.config d).cacheMaxTtlSecs)
    (hpub : ∀ d, (launch d).published.BuiltFor (net.ifaces d))
    (h : net.Reach launch encode H δ now m) {d : D} {k : RecordKey} {e : Entry}
    (he : (m.process d).shared.cache.byKey.find? k = some e) :
    ∃ a ∈ m.air, ∃ r ∈ a.frame.records parse,
      net.Original (fun d => (launch d).published) a r ∧ k == RecordKey.of r ∧
      e.deadline ≤ a.time + fromSecs r.ttl.toNat + (H + δ) +
        Fintype.card D * (H + 3 * δ + fromMillis 1500) := by
  have htraced := traced hcodec hparse hcap hpub h
  obtain ⟨a, ha, r, t, hheard⟩ := (htraced.grounded d).entries k e he
  obtain ⟨a₀, r₀, way, hline⟩ := htraced.records a ha r hheard.record hheard.positive
  obtain ⟨ha₀, hr₀, horig⟩ := hline.original_mem
  obtain ⟨hkey, hexpiry⟩ := hline.spec
  have hlen := hline.trail.1.length_le hG
  have hsecs : fromSecs (capTtl (net.config d).cacheMaxTtlSecs r.ttl).toNat ≤
      fromSecs r.ttl.toNat := by
    rw [capTtl_toNat (hcap d)]
    exact Nat.mul_le_mul_right _ (cappedSecs_le_ttl _ _)
  have hdeadline : e.deadline =
      t + fromSecs (capTtl (net.config d).cacheMaxTtlSecs r.ttl).toNat :=
    congrArg Prod.snd hheard.stored
  refine ⟨a₀, ha₀, r₀, hr₀, horig, BEq.trans hheard.key hkey, ?_⟩
  have hsoon := hheard.soon
  have hmul : way.length * relaySlack H δ ≤ Fintype.card D * relaySlack H δ :=
    Nat.mul_le_mul_right _ hlen
  rw [hdeadline]
  show _ ≤ _ + Fintype.card D * relaySlack H δ
  omega

/-! ### A network comes up -/

/-- A daemon takes some events, and all that it sends is lost. -/
theorem Net.Reach.run {D L : Type} [DecidableEq D] {net : Net D L} {launch : D → Launch}
    {encode : Outgoing → Option (List UInt8)} {H δ now last : ℕ} {m : Mesh D L}
    (h : net.Reach launch encode H δ now m) (d : D) {evs : List ProcessEvent}
    (hsorted : (now :: evs.map ProcessEvent.time).Pairwise (· ≤ ·))
    (hlast : ∀ t ∈ now :: evs.map ProcessEvent.time, t ≤ last)
    (hon : Along (Process.step (launch d)) (fun s ev => s.HandlersOnTime δ ev.time)
      (m.process d) evs)
    (hears : ∀ ev ∈ evs, ∀ pkt, ev.op = .receive pkt →
      ∃ a ∈ m.air, net.Reads d a pkt ∧ a.time ≤ ev.time ∧ ev.time ≤ a.time + H) :
    net.Reach launch encode H δ last
      ⟨Function.update m.process d ((m.process d).run (launch d) evs), m.air⟩ := by
  induction evs generalizing now m with
  | nil =>
    have hsame : Function.update m.process d (m.process d) = m.process :=
      Function.update_eq_self _ _
    show net.Reach launch encode H δ last ⟨Function.update m.process d (m.process d), m.air⟩
    rw [hsame]
    exact h.wait (hlast now List.mem_cons_self)
  | cons ev evs ih =>
    rw [List.map_cons, List.pairwise_cons] at hsorted
    have hwait := h.wait (hsorted.1 ev.time List.mem_cons_self)
    have hstep : net.Reach launch encode H δ ev.time
        ⟨Function.update m.process d ((m.process d).step (launch d) ev), [] ++ m.air⟩ :=
      hwait.step hon.1 (fun pkt hop => hears ev List.mem_cons_self pkt hop) rfl (by simp)
    have hlast' : ∀ t ∈ ev.time :: evs.map ProcessEvent.time, t ≤ last :=
      fun t ht => hlast t (List.mem_cons_of_mem _ ht)
    have hrun := ih hstep hsorted.2 hlast' (by simpa using hon.2)
      (fun ev' hev' => hears ev' (List.mem_cons_of_mem _ hev'))
    have hfold : (m.process d).run (launch d) (ev :: evs) =
        ((m.process d).step (launch d) ev).run (launch d) evs := rfl
    rw [hfold]
    simpa using hrun

/-! ### A printer and two routers -/

/-- The interfaces of the second router. -/
def secondIfaces : List Iface :=
  [⟨"eth0", 2, some ⟨0xC0A80102, 0xFFFFFF00, 0xC0A80100⟩, none⟩,
    ⟨"eth1", 3, some ⟨0xAC100001, 0xFFFFFF00, 0xAC100000⟩, none⟩]

def secondPublished : Published :=
  ⟨routerName, [uniqueRecord routerName ttlHost (.a 0xC0A80102),
    uniqueRecord routerName ttlHost (.a 0xAC100001)], [], []⟩

/-- The link of the printer, the one between two routers, and the one behind the second. -/
inductive RelayLink
  | printer
  | middle
  | far
  deriving DecidableEq

instance : Fintype RelayLink := ⟨{.printer, .middle, .far}, fun l => by cases l <;> decide⟩

/-- Two routers that answer from their caches and repeat nothing: `false` joins the link of the
printer to the middle, and `true` the middle to the far link. -/
def relayNet : Net Bool RelayLink where
  config _ := crossedState.config
  ifaces d := if d then secondIfaces else [routerIface, lanIface]
  link d ifindex :=
    if d then if ifindex == 3 then .far else .middle
    else if ifindex == 3 then .printer else .middle
  distinct := by decide

theorem relayNet_isAcyclic : relayNet.graph.IsAcyclic := by
  refine isAcyclic_of_two (by decide) ?_
  have hone : ∀ d d', d ≠ d' → ∀ l, relayNet.Attached d l → relayNet.Attached d' l →
      l = .middle := by
    decide
  intro d d' hne l l' h₁ h₂ h₃ h₄
  rw [hone d d' hne l h₁ h₂, hone d d' hne l' h₃ h₄]

/-- The relayed address of the printer on the wire. -/
def printerAnswer : List UInt8 :=
  [0, 0, 0x84, 0, 0, 0, 0, 1, 0, 0, 0, 0, 1, 112, 5, 108, 111, 99, 97, 108, 0, 0, 1, 0, 1,
    0, 0, 0, 120, 0, 4, 0xC0, 0xA8, 0x14, 0x32]

/-- The parser on the messages of the printer and on the answer of a router. -/
def relayParse (data : List UInt8) : Option Message :=
  if data = printerAnswer then some ⟨0, .response, false, [], [relayedPrinter], [], []⟩
  else printerParse data

/-- An encoder that knows the answer of a router only. -/
def relayEncode (m : Outgoing) : Option (List UInt8) :=
  if m = ⟨0, .response, true, [], [relayedPrinter], [], []⟩ then some printerAnswer else none

theorem relayCodec : Codec relayParse relayEncode where
  decoded := by
    intro data msg h
    unfold relayParse printerParse at h
    split_ifs at h <;> cases h <;> decide
  roundtrip := by
    intro m data msg hm h
    unfold relayEncode at hm
    split_ifs at hm with hmsg
    rw [hmsg]
    cases hm
    have hparse : relayParse (printerAnswer.take maxPacket) =
        some ⟨0, .response, false, [], [relayedPrinter], [], []⟩ := by decide
    rw [hparse] at h
    cases h
    decide

def relayLaunch (d : Bool) : Launch :=
  ⟨relayParse, fun _ => none, if d then secondPublished else crossedPublished, [], 60, 5,
    Ticks.skip⟩

theorem relayLaunch_builtFor (d : Bool) :
    (relayLaunch d).published.BuiltFor (relayNet.ifaces d) := by
  cases d
  · exact crossedPublished_builtFor
  · exact ⟨Unit, plainApi, routerName, [], rfl⟩

/-- A router comes up after a while. -/
def relayBoot (start : ℕ) : List ProcessEvent :=
  [0, 0, 0, 0, 250, 250, 500, 500, 500, 500, 500, 500, 500, 750, 750, 1000, 1000, 1000, 1000, 1000,
    1000, 1000, 2000, 2000, 2000, 2000, 2000].map fun ms =>
      ⟨fromMillis (start + ms), .main wireOk 0 true⟩

/-- The announcement of the printer, once both are up. -/
def printerFrame : Airing Bool RelayLink :=
  ⟨none, fromMillis 4000, ⟨.printer, printerAnnouncement, .v4 0x0A000009, mdnsPort⟩⟩

/-- A host on the middle link asks for the printer. -/
def questionFrame : Airing Bool RelayLink :=
  ⟨none, fromMillis 4000, ⟨.middle, printerQuestion, .v4 0xC0A80109, mdnsPort⟩⟩

/-- The first router answers. -/
def answerFrame : Airing Bool RelayLink :=
  ⟨some false, fromMillis 4020, ⟨.middle, printerAnswer, .v4 0xC0A80101, mdnsPort⟩⟩

/-- The datagrams that the routers read of these frames. -/
def announcementRead : Datagram := ⟨printerAnnouncement, .v4 0x0A000009, mdnsPort, .v4, some 3⟩
def questionRead : Datagram := ⟨printerQuestion, .v4 0xC0A80109, mdnsPort, .v4, some 2⟩
def answerRead : Datagram := ⟨printerAnswer, .v4 0xC0A80101, mdnsPort, .v4, some 2⟩

/-- The first router hears the announcement and the question. -/
def firstHears : List ProcessEvent :=
  [⟨fromMillis 4000, .receive announcementRead⟩, ⟨fromMillis 4000, .handle 0 (IterOrder.id _ _) 0⟩,
    ⟨fromMillis 4000, .receive questionRead⟩, ⟨fromMillis 4000, .handle 0 (IterOrder.id _ _) 0⟩]

/-- The second router hears the answer. -/
def secondHears : List ProcessEvent :=
  [⟨fromMillis 4020, .receive answerRead⟩, ⟨fromMillis 4020, .handle 0 (IterOrder.id _ _) 0⟩]

/-- The second router after that. -/
def secondProcess : Process :=
  (Process.start crossedState.config secondIfaces 0).run (relayLaunch true)
    (relayBoot 2000 ++ secondHears)

/-- Both routers are up, and nothing of what they sent so far was heard. -/
theorem relay_boots :
    relayNet.Reach relayLaunch relayEncode 0 0 (fromMillis 4000)
      ⟨fun d => (Process.start crossedState.config (relayNet.ifaces d) 0).run (relayLaunch d)
        (relayBoot (if d then 2000 else 0)), []⟩ := by
  have hstart : relayNet.Reach relayLaunch relayEncode 0 0 0
      ⟨fun d => Process.start crossedState.config (relayNet.ifaces d) 0, []⟩ := .start
  have hsorted : (0 :: (relayBoot 0).map ProcessEvent.time).Pairwise (· ≤ ·) := by decide +kernel
  have hlast : ∀ t ∈ 0 :: (relayBoot 0).map ProcessEvent.time, t ≤ fromMillis 2000 := by
    decide +kernel
  have hfirst := hstart.run false hsorted hlast (by decide +kernel) (by simp [relayBoot])
  have hsorted' : (fromMillis 2000 :: (relayBoot 2000).map ProcessEvent.time).Pairwise
      (· ≤ ·) := by decide +kernel
  have hlast' : ∀ t ∈ fromMillis 2000 :: (relayBoot 2000).map ProcessEvent.time,
      t ≤ fromMillis 4000 := by decide +kernel
  have hboth := hfirst.run true hsorted' hlast' (by decide +kernel) (by simp [relayBoot])
  convert hboth using 1
  refine congrArg (fun process => Mesh.mk process []) ?_
  funext d
  cases d <;> simp

/-- The first router has heard the announcement and the question. -/
def relayMesh : Mesh Bool RelayLink where
  process
    | false => (Process.start crossedState.config [routerIface, lanIface] 0).run (relayLaunch false)
      (relayBoot 0 ++ firstHears)
    | true => (Process.start crossedState.config secondIfaces 0).run (relayLaunch true)
      (relayBoot 2000)
  air := [questionFrame, printerFrame]

theorem relay_hears :
    relayNet.Reach relayLaunch relayEncode 0 0 (fromMillis 4000) relayMesh := by
  have hprinter : relayNet.Foreign printerFrame.frame := ⟨rfl, by decide⟩
  have hquestion : relayNet.Foreign questionFrame.frame := ⟨rfl, by decide⟩
  have hframes := (relay_boots.foreign hprinter).foreign hquestion
  have hsorted : (fromMillis 4000 :: firstHears.map ProcessEvent.time).Pairwise (· ≤ ·) := by
    decide +kernel
  have hlast : ∀ t ∈ fromMillis 4000 :: firstHears.map ProcessEvent.time, t ≤ fromMillis 4000 := by
    decide +kernel
  have hreads : relayNet.Reads false printerFrame announcementRead :=
    ⟨lanIface, by decide, rfl, by decide +kernel⟩
  have hreads' : relayNet.Reads false questionFrame questionRead :=
    ⟨routerIface, by decide, rfl, by decide +kernel⟩
  have hheard := hframes.run false hsorted hlast (by decide +kernel) ?_
  · convert hheard using 1
    refine congrArg (fun process => Mesh.mk process [questionFrame, printerFrame]) ?_
    funext d
    cases d
    · simp [Process.run, relayNet]
    · simp [relayNet]
  · intro ev hev pkt hop
    simp only [firstHears, List.mem_cons, List.not_mem_nil, or_false] at hev
    rcases hev with rfl | rfl | rfl | rfl
    · cases hop
      exact ⟨printerFrame, List.mem_cons_of_mem _ List.mem_cons_self, hreads, le_rfl, le_rfl⟩
    · cases hop
    · cases hop
      exact ⟨questionFrame, List.mem_cons_self, hreads', le_rfl, le_rfl⟩
    · cases hop

/-- The first router relays the printer, and the second one hears it. -/
theorem relay_reach : ∃ m : Mesh Bool RelayLink,
    relayNet.Reach relayLaunch relayEncode 0 0 (fromMillis 4020) m ∧
      m.air = [answerFrame, questionFrame, printerFrame] ∧ m.process true = secondProcess := by
  have hwait := relay_hears.wait (by decide : fromMillis 4000 ≤ fromMillis 4020)
  have hemitted : (⟨fromMillis 4020, routerIface, .response false ⟨0, [relayedPrinter], []⟩⟩ :
      Emission) ∈ ((relayMesh.process false).step (relayLaunch false)
        ⟨fromMillis 4020, .wake 0 wireOk⟩).wire.drop (relayMesh.process false).wire.length := by
    decide +kernel
  have hcarries : relayNet.Carries relayEncode false
      ⟨fromMillis 4020, routerIface, .response false ⟨0, [relayedPrinter], []⟩⟩ answerFrame :=
    ⟨rfl, rfl, rfl, by decide, by decide⟩
  have hon : (relayMesh.process false).HandlersOnTime 0 (fromMillis 4020) := by decide +kernel
  have hnew : ∀ a ∈ [answerFrame], ∃ em ∈ ((relayMesh.process false).step (relayLaunch false)
      ⟨fromMillis 4020, .wake 0 wireOk⟩).wire.drop (relayMesh.process false).wire.length,
      relayNet.Carries relayEncode false em a :=
    List.forall_mem_singleton.2 ⟨_, hemitted, hcarries⟩
  have hanswer := Net.Reach.step hwait hon (by simp) rfl hnew
  have hsorted : (fromMillis 4020 :: secondHears.map ProcessEvent.time).Pairwise (· ≤ ·) := by
    decide +kernel
  have hlast : ∀ t ∈ fromMillis 4020 :: secondHears.map ProcessEvent.time,
      t ≤ fromMillis 4020 := by decide +kernel
  have hreads : relayNet.Reads true answerFrame answerRead :=
    ⟨_, List.mem_cons_self, rfl, by decide +kernel⟩
  have hheard := hanswer.run true hsorted hlast (by decide +kernel) ?_
  · refine ⟨_, hheard, rfl, ?_⟩
    simp [secondProcess, Process.run, relayMesh]
  · intro ev hev pkt hop
    simp only [secondHears, List.mem_cons, List.not_mem_nil, or_false] at hev
    rcases hev with rfl | rfl
    · cases hop
      exact ⟨answerFrame, List.mem_cons_self, hreads, le_rfl, le_rfl⟩
    · cases hop

/-- The second router, which knows the printer from the first one, forgets it in time. -/
theorem relayed_expires_printer :
    ∃ e, secondProcess.shared.cache.byKey.find? (RecordKey.of printerAddress) = some e ∧
      e.deadline ≤ printerFrame.time + fromSecs 120 + 2 * fromMillis 1500 := by
  obtain ⟨m, hreach, hair, hprocess⟩ := relay_reach
  have hfound : (secondProcess.shared.cache.byKey.find?
      (RecordKey.of printerAddress)).isSome = true := by decide +kernel
  obtain ⟨e, he⟩ := Option.isSome_iff_exists.1 hfound
  refine ⟨e, he, ?_⟩
  rw [← hprocess] at he
  obtain ⟨a, ha, r, hr, horig, -, hdeadline⟩ := relayed_expires relayNet_isAcyclic relayCodec
    (fun _ => rfl) (fun _ => capOk_none) relayLaunch_builtFor hreach he
  rw [hair] at ha
  rw [Fintype.card_bool] at hdeadline
  simp only [List.mem_cons, List.not_mem_nil, or_false] at ha
  rcases ha with rfl | rfl | rfl
  · -- what the first router answers is not its own
    have hparsed : answerFrame.frame.records relayParse = [relayedPrinter] := by decide +kernel
    rw [hparsed] at hr
    rcases horig with hnone | ⟨d, j, -, s, hs, hsender, heq⟩
    · cases hnone
    · cases hsender
      have hall := Published.mem_all_of_mem_recordsFor crossedPublished_builtFor.wellFormed hs
      rw [List.mem_singleton.1 hr] at heq
      rcases List.mem_pair.1 hall with rfl | rfl <;> exact absurd heq (by decide)
  · have hparsed : questionFrame.frame.records relayParse = [] := by decide +kernel
    rw [hparsed] at hr
    cases hr
  · have hparsed : printerFrame.frame.records relayParse = [printerAddress] := by decide +kernel
    rw [hparsed] at hr
    rw [List.mem_singleton.1 hr] at hdeadline
    have httl : printerAddress.ttl.toNat = 120 := rfl
    rw [httl] at hdeadline
    omega

end Nmdns
