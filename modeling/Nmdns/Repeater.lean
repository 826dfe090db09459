import Nmdns.Engine
import Nmdns.Lib.Positions
import Nmdns.Setup

/-!
# The repeater

`src/repeater.rs`: to which interfaces a datagram is repeated.

* `forwardIfaces`: the interfaces on which `forward` attempts to send a datagram;
* `forwardIfaces_of_some`, `forwardIfaces_of_none`: all but the one the datagram is attributed to;
  or, without an attribution, those whose subnet does not contain the source;
* `forward_once_iff`: with the index of the arrival interface known, every other link is reached
  once and the arrival link never, exactly when the configured names have distinct indices;
* `fallback_no_echo_iff`: by the subnet of the source, no echo exactly when the source is in at most
  one of the monitored subnets;
* `unattributed_silent_iff`: when a datagram without an attribution is not repeated.
-/

namespace Nmdns

/-- The interfaces on which `forward` attempts to send a datagram. -/
def forwardIfaces (pkt : Datagram) (ifaces : List Iface) : List Iface :=
  ifaces.atPositions (forwardTargets (identifyRecvIface pkt ifaces) pkt.sourceIp ifaces)

/-- The interfaces on which a handled datagram causes a transmission: a response, or a repetition
over a socket of its family that works. -/
def Outcome.transmissions (o : Outcome) (family : IpFamily) (sockets : Iface → IpFamily → Bool) :
    List Iface :=
  (o.response.map Prod.fst).toList ++
    (o.state.ifaces.atPositions o.forwarded).filter fun i => i.sendMdnsOn family (sockets i)

section Targets

variable {pkt : Datagram} {ifaces : List Iface}

/-- All interfaces but the one the datagram is attributed to. -/
theorem forwardIfaces_of_some {idx : ℕ} (h : identifyRecvIface pkt ifaces = some idx) :
    forwardIfaces pkt ifaces = ifaces.eraseIdx idx := by
  unfold forwardIfaces
  rw [h]
  exact ifaces.atPositions_range_ne idx

/-- The interfaces whose subnet does not contain the source, if some other subnet does. -/
theorem forwardIfaces_of_none (h : identifyRecvIface pkt ifaces = none) :
    forwardIfaces pkt ifaces =
      if ifaces.any fun i => i.contains pkt.sourceIp then
        ifaces.filter fun i => !i.contains pkt.sourceIp
      else [] := by
  unfold forwardIfaces
  rw [h]
  unfold forwardTargets
  dsimp only
  split_ifs
  · exact ifaces.atPositions_range_filter _
  · rfl

/-- The interface the datagram is attributed to and those it is sent on make up the list. -/
theorem cons_forwardIfaces_perm {idx : ℕ} (h : identifyRecvIface pkt ifaces = some idx) {i : Iface}
    (hi : ifaces[idx]? = some i) : (i :: forwardIfaces pkt ifaces).Perm ifaces := by
  obtain ⟨hlt, rfl⟩ := List.getElem?_eq_some_iff.1 hi
  rw [forwardIfaces_of_some h]
  exact List.getElem_cons_eraseIdx_perm hlt

/-- A datagram that arrived on a monitored index is attributed to an interface of that index. -/
theorem exists_identify_of_ifindex {recv : UInt32} (hpkt : pkt.recvIfindex = some recv)
    (hmon : recv ∈ ifaces.map Iface.ifindex) :
    ∃ idx i, identifyRecvIface pkt ifaces = some idx ∧ ifaces[idx]? = some i ∧
      i.ifindex = recv := by
  obtain ⟨i, hi, rfl⟩ := List.mem_map.1 hmon
  have hsome : (ifaces.findIdx? fun j => j.ifindex == i.ifindex).isSome := by
    rw [List.findIdx?_isSome, List.any_eq_true]
    exact ⟨i, hi, beq_self_eq_true _⟩
  obtain ⟨idx, hidx⟩ := Option.isSome_iff_exists.1 hsome
  obtain ⟨hlt, hp, -⟩ := List.findIdx?_eq_some_iff_getElem.1 hidx
  refine ⟨idx, ifaces[idx], ?_, List.getElem?_eq_getElem hlt, eq_of_beq hp⟩
  unfold identifyRecvIface
  simp only [hpkt, hidx, Option.some_or]

/-- Without a monitored index, an IPv4 datagram is attributed by its subnet. -/
theorem identify_of_unmonitored {ip : BitVec 32} (hsrc : pkt.sourceIp = .v4 ip)
    (hrecv : ∀ idx, pkt.recvIfindex = some idx → ∀ i ∈ ifaces, i.ifindex ≠ idx) :
    identifyRecvIface pkt ifaces = ifaces.findIdx? fun i => i.contains pkt.sourceIp := by
  unfold identifyRecvIface
  have hlocal : isUnicastLinkLocal pkt.sourceIp = false := by rw [hsrc]; rfl
  rw [hlocal]
  cases hidx : pkt.recvIfindex with
  | none => rfl
  | some idx =>
    have hnone : (ifaces.findIdx? fun i => i.ifindex == idx) = none := by
      rw [List.findIdx?_eq_none_iff]
      intro i hi
      rw [beq_eq_false_iff_ne]
      exact hrecv idx hidx i hi
    simp [hnone]

end Targets

/-! ### By the index of the arrival interface -/

/-- **Every other link once, and no echo**: exactly when the operating system's indices of the
configured names are pairwise distinct. -/
theorem forward_once_iff {ε : Type} {os : Os ε} {ifnames : List String} {ifaces : List Iface}
    (hsetup : setup os ifnames = .ok ifaces) {pkt : Datagram} {recv : UInt32}
    (hpkt : pkt.recvIfindex = some recv) (hmon : recv ∈ ifaces.map Iface.ifindex) :
    ((∀ j ∈ ifaces.map Iface.ifindex, j ≠ recv →
        ((forwardIfaces pkt ifaces).map Iface.ifindex).count j = 1) ∧
      recv ∉ (forwardIfaces pkt ifaces).map Iface.ifindex) ↔
      (ifnames.map os.ifNametoindex).Nodup := by
  have hnodup : (ifnames.map os.ifNametoindex).Nodup ↔ (ifaces.map Iface.ifindex).Nodup := by
    rw [setup_ifindex hsetup, ← List.nodup_map_iff (f := fun i => (.ok i : Except ε UInt32))
      (fun _ _ h => Except.ok.inj h), List.map_map]
    rfl
  obtain ⟨idx, i, hidx, hi, rfl⟩ := exists_identify_of_ifindex hpkt hmon
  have hperm := (cons_forwardIfaces_perm hidx hi).map Iface.ifindex
  rw [List.map_cons] at hperm
  rw [hnodup, ← hperm.nodup_iff, List.nodup_cons, List.nodup_iff_count_eq_one, and_comm]
  refine and_congr_right fun hnot => ?_
  constructor
  · intro hall j hj
    exact hall j (hperm.mem_iff.1 (List.mem_cons_of_mem _ hj)) fun heq => hnot (heq ▸ hj)
  · intro hall j hj hne
    exact hall j ((List.mem_cons.1 (hperm.mem_iff.2 hj)).resolve_left hne)

/-- A host with the interfaces `eth0` and `eth1`, on which every socket call succeeds. -/
def twoPortOs : Os Unit where
  ifNametoindex name := if name = "eth0" then .ok 2 else if name = "eth1" then .ok 3 else .error ()
  getifaddrs _ := .ok [⟨"eth0", some (.v4 0xC0A80101), some (.v4 0xFFFFFF00)⟩,
    ⟨"eth1", some (.v4 0xC0A80201), some (.v4 0xFFFFFF00)⟩]
  recvSocket _ := .ok ()
  openV4 _ _ := .ok ()
  openV6 _ _ _ _ := .ok ()
  registerRecv _ := .ok ()

/-- A datagram that arrived on `eth0`. -/
def eth0Datagram : Datagram := ⟨[], .v4 0xC0A80132, 5353, .v4, some 2⟩

/-- The interfaces of that host. -/
def twoPorts : List Iface :=
  [⟨"eth0", 2, some ⟨0xC0A80101, 0xFFFFFF00, 0xC0A80100⟩, none⟩,
    ⟨"eth1", 3, some ⟨0xC0A80201, 0xFFFFFF00, 0xC0A80200⟩, none⟩]

theorem forward_once_iff_twoPorts :
    ((forwardIfaces eth0Datagram twoPorts).map Iface.ifindex).count 3 = 1 := by
  have hsetup : setup twoPortOs ["eth0", "eth1"] = .ok twoPorts := rfl
  have hpkt : eth0Datagram.recvIfindex = some 2 := rfl
  exact ((forward_once_iff hsetup hpkt (by decide)).2 (by decide)).1 3 (by decide) (by decide)

/-- An interface that is listed twice passes the validation and the setup, and a datagram that
arrived on it is sent back on it. -/
theorem forward_echoes_doubled_name :
    ∃ cfg ifaces,
      Config.parse ⟨fun _ => none, fun _ => none, fun _ => none⟩ (fun _ =>
        (.ok ⟨["eth0", "eth0"], true, true, [], [], none, 1024, none, []⟩ :
          Except Unit RawConfig)) "" = .ok cfg ∧
      setup twoPortOs cfg.interfaces = .ok ifaces ∧ eth0Datagram.recvIfindex = some 2 ∧
      2 ∈ (forwardIfaces eth0Datagram ifaces).map Iface.ifindex :=
  ⟨_, _, rfl, rfl, rfl, by decide⟩

/-! ### By the subnet of the source -/

/-- **No echo by subnet**: exactly when the source is in at most one of the monitored subnets. -/
theorem fallback_no_echo_iff {ifaces : List Iface} {pkt : Datagram} {ip : BitVec 32}
    (hsrc : pkt.sourceIp = .v4 ip)
    (hrecv : ∀ idx, pkt.recvIfindex = some idx → ∀ i ∈ ifaces, i.ifindex ≠ idx) :
    ((∀ i ∈ forwardIfaces pkt ifaces, i.contains pkt.sourceIp = false) ∧
      ((∀ i ∈ ifaces, i.contains pkt.sourceIp = false) →
        forwardTargets (identifyRecvIface pkt ifaces) pkt.sourceIp ifaces = [])) ↔
      (ifaces.filter fun i => i.contains pkt.sourceIp).length ≤ 1 := by
  have hid := identify_of_unmonitored hsrc hrecv
  cases hidx : ifaces.findIdx? fun i => i.contains pkt.sourceIp with
  | none =>
    have hout : ∀ i ∈ ifaces, i.contains pkt.sourceIp = false := List.findIdx?_eq_none_iff.1 hidx
    have hany : (ifaces.any fun i => i.contains pkt.sourceIp) = false := by
      simpa [List.any_eq_false] using hout
    rw [hidx] at hid
    refine iff_of_true ⟨fun i hi => ?_, fun _ => ?_⟩ ?_
    · rw [forwardIfaces_of_none hid, if_neg (by rw [hany]; exact Bool.false_ne_true)] at hi
      cases hi
    · rw [hid]
      unfold forwardTargets
      rw [hany]
      rfl
    · rw [List.filter_eq_nil_iff.2 fun i hi => by rw [hout i hi]; exact Bool.false_ne_true]
      exact Nat.zero_le 1
  | some idx =>
    rw [hidx] at hid
    obtain ⟨hlt, hin, -⟩ := List.findIdx?_eq_some_iff_getElem.1 hidx
    -- the first interface that contains the source is left out; the others are targets
    have hperm := (cons_forwardIfaces_perm hid (List.getElem?_eq_getElem hlt)).filter
      fun i => i.contains pkt.sourceIp
    rw [List.filter_cons, if_pos hin] at hperm
    rw [← hperm.length_eq, List.length_cons, Nat.succ_le_succ_iff, Nat.le_zero,
      List.length_eq_zero_iff, List.filter_eq_nil_iff]
    constructor
    · rintro ⟨hno, -⟩ i hi
      rw [hno i hi]
      exact Bool.false_ne_true
    · intro hno
      refine ⟨fun i hi => Bool.eq_false_iff.2 (hno i hi), fun hall => ?_⟩
      rw [hall _ (List.getElem_mem hlt)] at hin
      cases hin

/-- A datagram from `10.1.0.9` without the index of its arrival interface. -/
def strayDatagram : Datagram := ⟨[], .v4 0x0A010009, 5353, .v4, none⟩

/-- The interfaces `10.0.0.1/8` and `192.168.1.1/24`. -/
def disjointIfaces : List Iface :=
  [⟨"eth0", 2, some ⟨0x0A000001, 0xFF000000, 0x0A000000⟩, none⟩,
    ⟨"eth1", 3, some ⟨0xC0A80101, 0xFFFFFF00, 0xC0A80100⟩, none⟩]

/-- The interfaces `10.0.0.1/8` and `10.1.0.1/16`. -/
def overlappingIfaces : List Iface :=
  [⟨"eth0", 2, some ⟨0x0A000001, 0xFF000000, 0x0A000000⟩, none⟩,
    ⟨"eth1", 3, some ⟨0x0A010001, 0xFFFF0000, 0x0A010000⟩, none⟩]

theorem fallback_no_echo_iff_disjoint :
    (forwardIfaces strayDatagram disjointIfaces).all
      fun i => !i.contains strayDatagram.sourceIp := by
  have hsrc : strayDatagram.sourceIp = .v4 0x0A010009 := rfl
  have hrecv : ∀ idx, strayDatagram.recvIfindex = some idx →
      ∀ i ∈ disjointIfaces, i.ifindex ≠ idx := fun idx hidx => by cases hidx
  have h := ((fallback_no_echo_iff hsrc hrecv).2 (by decide)).1
  rw [List.all_eq_true]
  exact fun i hi => by rw [h i hi]; rfl

/-- With overlapping subnets the datagram is sent on an interface whose subnet has its source. -/
theorem fallback_echoes_overlapping :
    strayDatagram.recvIfindex = none ∧
      ∃ i ∈ forwardIfaces strayDatagram overlappingIfaces,
        i.contains strayDatagram.sourceIp = true := by
  decide

/-! ### Without an attribution -/

section Unattributed

variable {parse : List UInt8 → Option Message} {st : State} {σ : CacheOrder} {now wake : ℕ}
  {pkt : Datagram} {p : Published} {wire : Wire}

/-- What is admitted is repeated on the targets of `forward_targets`, if the daemon repeats. -/
theorem handleDatagram_forwarded :
    (handleDatagram parse st σ now wake pkt p wire).forwarded =
      if admitted st.config st.ifaces pkt = true ∧ st.config.repeats = true then
        forwardTargets (identifyRecvIface pkt st.ifaces) pkt.sourceIp st.ifaces
      else [] := by
  rcases handleDatagram_cases parse st σ now wake pkt p wire with
    ⟨hdrop, heq⟩ | ⟨hadm, -, forwarded, rfl, hcases⟩
  · rw [heq, if_neg]
    rintro ⟨hadm, hrep⟩
    rw [hadm, hrep, Bool.not_true, Bool.and_false] at hdrop
    rcases hdrop with hdrop | hdrop <;> cases hdrop
  · rw [hadm]
    simp only [true_and]
    rcases hcases with ⟨-, heq⟩ | ⟨msg, -, ⟨-, heq⟩ | ⟨-, heq⟩⟩ <;> rw [heq]

/-- A datagram without an attribution is not answered. -/
theorem handleDatagram_response_of_none (hnone : identifyRecvIface pkt st.ifaces = none) :
    (handleDatagram parse st σ now wake pkt p wire).response = none := by
  rw [Option.eq_none_iff_forall_ne_some]
  rintro ⟨arrival, resp⟩ h
  obtain ⟨⟨idx, hidx, -⟩, -⟩ := handleDatagram_response h
  rw [hnone] at hidx
  cases hidx

theorem handleDatagram_ifaces :
    (handleDatagram parse st σ now wake pkt p wire).state.ifaces = st.ifaces :=
  (engine_step_frame parse p st ⟨now, .datagram σ wake pkt wire⟩).2.2

/-- What an unattributed datagram may be transmitted on. -/
theorem mem_transmissions_of_none (hnone : identifyRecvIface pkt st.ifaces = none)
    {sockets : Iface → IpFamily → Bool} {i : Iface}
    (hi : i ∈ (handleDatagram parse st σ now wake pkt p wire).transmissions pkt.family sockets) :
    i ∈ forwardIfaces pkt st.ifaces ∧ i.hasSocket pkt.family = true := by
  unfold Outcome.transmissions at hi
  rw [handleDatagram_response_of_none hnone, handleDatagram_ifaces] at hi
  obtain ⟨hmem, hsend⟩ := List.mem_filter.1 hi
  refine ⟨?_, (Bool.and_eq_true_iff.1 hsend).1⟩
  rw [handleDatagram_forwarded] at hmem
  split_ifs at hmem
  · exact hmem
  · cases hmem

/-- What a repeating daemon whose sockets work transmits. -/
theorem mem_transmissions_of_repeats (hadm : admitted st.config st.ifaces pkt = true)
    (hrep : st.config.repeats = true) {i : Iface} (hi : i ∈ forwardIfaces pkt st.ifaces)
    (hsock : i.hasSocket pkt.family = true) :
    i ∈ (handleDatagram parse st σ now wake pkt p wire).transmissions pkt.family
      fun _ _ => true := by
  unfold Outcome.transmissions
  rw [handleDatagram_forwarded, if_pos ⟨hadm, hrep⟩, handleDatagram_ifaces]
  refine List.mem_append_right _ (List.mem_filter.2 ⟨hi, ?_⟩)
  exact Bool.and_eq_true_iff.2 ⟨hsock, rfl⟩

/-- When no target has a socket of the datagram's family. -/
theorem forwardIfaces_lack_iff (hnone : identifyRecvIface pkt st.ifaces = none) :
    (∀ i ∈ forwardIfaces pkt st.ifaces, i.hasSocket pkt.family = false) ↔
      (∀ i ∈ st.ifaces, i.contains pkt.sourceIp = false) ∨
        ∀ i ∈ st.ifaces, i.hasSocket pkt.family = true → i.contains pkt.sourceIp = true := by
  have htargets := forwardIfaces_of_none hnone
  constructor
  · intro hlack
    by_cases hany : (st.ifaces.any fun i => i.contains pkt.sourceIp) = true
    · rw [if_pos hany] at htargets
      refine Or.inr fun i hi hsock => ?_
      by_contra hout
      have hmem : i ∈ forwardIfaces pkt st.ifaces := by
        rw [htargets, List.mem_filter]
        exact ⟨hi, by simpa using hout⟩
      rw [hlack i hmem] at hsock
      cases hsock
    · exact Or.inl (by simpa [List.any_eq_true] using hany)
  · intro hcond i hi
    rw [htargets] at hi
    split_ifs at hi with hany
    · obtain ⟨hmem, hout⟩ := List.mem_filter.1 hi
      rcases hcond with hno | hall
      · obtain ⟨j, hj, hin⟩ := List.any_eq_true.1 hany
        rw [hno j hj] at hin
        cases hin
      · by_contra hsock
        rw [hall i hmem (Bool.not_eq_false _ ▸ hsock)] at hout
        cases hout
    · cases hi

end Unattributed

/-- **An unattributable datagram is repeated nowhere**: no target has a socket of its family exactly
when no monitored subnet contains its source, or those of all interfaces with such a socket do, and
then nothing is transmitted.  Otherwise a repeating daemon that admits the datagram transmits it,
if its sockets work. -/
theorem unattributed_silent_iff (parse : List UInt8 → Option Message) (st : State)
    (σ : CacheOrder) (now wake : ℕ) {pkt : Datagram}
    (hnone : identifyRecvIface pkt st.ifaces = none) (p : Published) (wire : Wire) :
    (((∀ sockets, (handleDatagram parse st σ now wake pkt p wire).transmissions pkt.family
          sockets = []) ∧
        ∀ i ∈ forwardIfaces pkt st.ifaces, i.hasSocket pkt.family = false) ↔
        (∀ i ∈ st.ifaces, i.contains pkt.sourceIp = false) ∨
          ∀ i ∈ st.ifaces, i.hasSocket pkt.family = true → i.contains pkt.sourceIp = true) ∧
      (admitted st.config st.ifaces pkt = true → st.config.repeats = true →
        ((handleDatagram parse st σ now wake pkt p wire).transmissions pkt.family
            (fun _ _ => true) = [] ↔
          (∀ i ∈ st.ifaces, i.contains pkt.sourceIp = false) ∨
            ∀ i ∈ st.ifaces, i.hasSocket pkt.family = true → i.contains pkt.sourceIp = true)) := by
  rw [← forwardIfaces_lack_iff hnone]
  have hsilent : (∀ i ∈ forwardIfaces pkt st.ifaces, i.hasSocket pkt.family = false) →
      ∀ sockets, (handleDatagram parse st σ now wake pkt p wire).transmissions pkt.family
        sockets = [] := by
    intro hlack sockets
    refine List.eq_nil_iff_forall_not_mem.2 fun i hi => ?_
    obtain ⟨hmem, hsock⟩ := mem_transmissions_of_none hnone hi
    rw [hlack i hmem] at hsock
    cases hsock
  refine ⟨⟨And.right, fun hlack => ⟨hsilent hlack, hlack⟩⟩, fun hadm hrep => ?_⟩
  constructor
  · intro hnil i hi
    by_contra hsock
    have hsent : i ∈ (handleDatagram parse st σ now wake pkt p wire).transmissions pkt.family
        fun _ _ => true :=
      mem_transmissions_of_repeats hadm hrep hi (Bool.not_eq_false _ ▸ hsock)
    rw [hnil] at hsent
    cases hsent
  · exact fun hlack => hsilent hlack _

/-- A link-local IPv6 datagram, from `fe80::50`, without the index of its arrival interface. -/
def linkLocalDatagram : Datagram :=
  ⟨[], .v6 0xfe800000000000000000000000000050, 5353, .v6, none⟩

/-- A daemon that repeats, with `fe80::1/64` on `eth0` and the given prefix length of `fe80::2` on
`eth1`. -/
def linkLocalState (prefixLen : UInt8) : State :=
  { routerState with
    config := ⟨true, true, 1024, none, [], []⟩
    ifaces := [
      ⟨"eth0", 2, none, some ⟨0xfe800000000000000000000000000001, 64,
        ipv6Net 0xfe800000000000000000000000000001 64, 2⟩⟩,
      ⟨"eth1", 3, none, some ⟨0xfe800000000000000000000000000002, prefixLen,
        ipv6Net 0xfe800000000000000000000000000002 prefixLen, 3⟩⟩] }

theorem unattributed_silent_iff_linkLocal :
    (handleDatagram (fun _ => none) (linkLocalState 64) (IterOrder.id _ _) 0 0 linkLocalDatagram
        routerPublished wireOk).transmissions .v6 (fun _ _ => true) = [] ∧
      (handleDatagram (fun _ => none) (linkLocalState 128) (IterOrder.id _ _) 0 0 linkLocalDatagram
        routerPublished wireOk).transmissions .v6 (fun _ _ => true) ≠ [] := by
  have hnone₆₄ : identifyRecvIface linkLocalDatagram (linkLocalState 64).ifaces = none := by decide
  have hnone₁₂₈ : identifyRecvIface linkLocalDatagram (linkLocalState 128).ifaces = none := by
    decide
  constructor
  · exact ((unattributed_silent_iff _ _ _ 0 0 hnone₆₄ _ _).1.2 (Or.inr (by decide))).1 _
  · intro hnil
    have hiff := (unattributed_silent_iff (fun _ => none) (linkLocalState 128) (IterOrder.id _ _)
      0 0 hnone₁₂₈ routerPublished wireOk).2 (by decide) rfl
    exact absurd (hiff.1 hnil) (by decide)

/-- With the prefix lengths 64 and 128 the datagram is repeated on `eth1`. -/
theorem unattributed_repeated_on_eth1 :
    identifyRecvIface linkLocalDatagram (linkLocalState 128).ifaces = none ∧
      ((handleDatagram (fun _ => none) (linkLocalState 128) (IterOrder.id _ _) 0 0
        linkLocalDatagram routerPublished wireOk).transmissions .v6
          (fun _ _ => true)).map Iface.ifindex = [3] := by
  decide

end Nmdns
