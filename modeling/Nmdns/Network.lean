import Nmdns.Lib.Bridges
import Nmdns.Repeater

/-!
# Repeaters in a network

Several daemons that repeat datagrams join the links of a network.  A datagram on a link reaches
every daemon there (`src/iface.rs`, `do_recvmsg_v4` and `do_recvmsg_v6`), and each of them may send
it on to its other links, from its own address there (`src/repeater.rs`).

* `doRecvmsgV4`, `doRecvmsgV6`: a datagram as it is read, at most `maxPacket` octets of it;
* `Net`, `Net.Repeats`, `Net.Floods`: the frames that daemons send for a datagram, and for these
  frames, one hearing after the other in any order;
* `Net.Floods.spread`: the daemons flood the network as bridges do;
* `flood_at_most_once`, `flood_exactly_once`: without cycles, a link gets one frame;
* `flood_bounded_iff`: with a cycle, frames are sent forever.
-/

namespace Nmdns

open Bridges

/-! ### Reading a datagram -/

/-- `MAX_PACKET`. -/
def maxPacket : ℕ := 9000

/-- A control message that comes with a datagram. -/
inductive ControlMessage
  | ipv4PacketInfo (ipiIfindex : Int32)
  | ipv6PacketInfo (ipi6Ifindex : UInt32)
  | other
  deriving DecidableEq

/-- A datagram as `recvmsg` finds it: its octets, the source address and port, and the control
messages, if they can be read. -/
structure RecvMsg (α : Type) where
  octets : List UInt8
  address : Option (α × UInt16)
  cmsgs : Option (List ControlMessage)

/-- The family of an address. -/
def IpAddr.family : IpAddr → IpFamily
  | .v4 _ => .v4
  | .v6 _ => .v6

/-- What the two `do_recvmsg` functions have in common: the buffer holds `maxPacket` octets, and the
last packet info counts. -/
def RecvMsg.datagram {α : Type} (m : RecvMsg α) (family : IpFamily) (ip : α → IpAddr)
    (ifindex : ControlMessage → Option UInt32) : Except String Datagram :=
  match m.address with
  | none => .error "no source addr"
  | some (addr, port) =>
    .ok ⟨m.octets.take maxPacket, ip addr, port, family,
      (m.cmsgs.getD []).foldl (fun found c => (ifindex c).or found) none⟩

/-- `do_recvmsg_v4`. -/
def doRecvmsgV4 (m : RecvMsg (BitVec 32)) : Except String Datagram :=
  m.datagram .v4 .v4 fun
    | .ipv4PacketInfo ifindex => some ifindex.toUInt32
    | _ => none

/-- `do_recvmsg_v6`. -/
def doRecvmsgV6 (m : RecvMsg (BitVec 128)) : Except String Datagram :=
  m.datagram .v6 .v6 fun
    | .ipv6PacketInfo ifindex => some ifindex
    | _ => none

/-! ### The network -/

/-- A datagram on a link. -/
structure Frame (L : Type) where
  link : L
  data : List UInt8
  source : IpAddr
  port : UInt16
  deriving DecidableEq

/-- A datagram as a daemon reads it over one of its interfaces. -/
def Frame.received {L : Type} (f : Frame L) (i : Iface) : Except String Datagram :=
  match f.source with
  | .v4 ip => doRecvmsgV4 ⟨f.data, some (ip, f.port), some [.ipv4PacketInfo i.ifindex.toInt32]⟩
  | .v6 ip => doRecvmsgV6 ⟨f.data, some (ip, f.port), some [.ipv6PacketInfo i.ifindex]⟩

/-- The address that the send socket of a family is bound to. -/
def Iface.sourceAddr (i : Iface) : IpFamily → Option IpAddr
  | .v4 => i.addrV4.map .v4
  | .v6 => i.addrV6.map .v6

/-- Daemons and the links of their interfaces.  A daemon monitors a link through one interface. -/
structure Net (D L : Type) where
  config : D → Resolved
  ifaces : D → List Iface
  link : D → UInt32 → L
  distinct : ∀ d, ((ifaces d).map fun i => link d i.ifindex).Nodup

/-- A frame that goes back to another one: the daemons that passed it on and the links they put it
on, the latest hop first. -/
structure Copy (D L : Type) where
  frame : Frame L
  way : List (D × L)

namespace Net

variable {D L : Type} (net : Net D L) (parse : List UInt8 → Option Message)

/-- The daemon has an interface on the link. -/
def Attached (d : D) (l : L) : Prop := ∃ i ∈ net.ifaces d, net.link d i.ifindex = l

instance [DecidableEq L] (d : D) (l : L) : Decidable (net.Attached d l) :=
  inferInstanceAs (Decidable (∃ i ∈ _, _))

/-- The daemons and the links. -/
def graph : SimpleGraph (L ⊕ D) := incidence net.Attached

/-- The daemon `d` hears `f` over the interface `i` in some state, and sends what it repeats.  A
send may fail, unless sends are `reliable`. -/
inductive Repeats (reliable : Prop) (d : D) (f : Frame L) : List (Frame L) → Prop
  | mk {i : Iface} {pkt : Datagram} {st : State} {σ : CacheOrder} {now wake : ℕ} {p : Published}
      {wire : Wire} {sockets : Iface → IpFamily → Bool}
      (hi : i ∈ net.ifaces d) (hlink : net.link d i.ifindex = f.link)
      (hrecv : f.received i = .ok pkt)
      (hconfig : st.config = net.config d) (hifaces : st.ifaces = net.ifaces d)
      (hsockets : reliable → sockets = fun _ _ => true) :
      Repeats reliable d f (((st.ifaces.atPositions
        (handleDatagram parse st σ now wake pkt p wire).forwarded).filter fun j =>
          j.sendMdnsOn pkt.family (sockets j)).filterMap fun j =>
            (j.sourceAddr pkt.family).map fun addr =>
              ⟨net.link d j.ifindex, pkt.data, addr, mdnsPort⟩)

/-- A flood: all frames that were sent because of `f`, each with the daemons that passed it on and
the links they put it on, and which daemon has heard which of them.  A frame is heard by a daemon at
most once. -/
inductive Floods (reliable : Prop) (f : Frame L) : List (Copy D L) → List (ℕ × D) → Prop
  | start : Floods reliable f [⟨f, []⟩] []
  | hear {sent : List (Copy D L)} {heard : List (ℕ × D)} {n : ℕ} {c : Copy D L} {d : D}
      {frames : List (Frame L)} (h : Floods reliable f sent heard) (hn : sent[n]? = some c)
      (hnew : (n, d) ∉ heard) (hframes : net.Repeats parse reliable d c.frame frames) :
      Floods reliable f (sent ++ frames.map fun g => ⟨g, (d, g.link) :: c.way⟩) ((n, d) :: heard)

/-- Every daemon on the link of a frame has heard it. -/
def Quiet (sent : List (Copy D L)) (heard : List (ℕ × D)) : Prop :=
  ∀ n c, sent[n]? = some c → ∀ d, net.Attached d c.frame.link → (n, d) ∈ heard

end Net

/-! ### One hearing -/

section Repeats

variable {D L : Type} {net : Net D L} {parse : List UInt8 → Option Message} {reliable : Prop}

theorem received_eq (f : Frame L) (i : Iface) :
    f.received i = .ok ⟨f.data.take maxPacket, f.source, f.port, f.source.family,
      some i.ifindex⟩ := by
  unfold Frame.received
  cases f.source <;> rfl

theorem sourceAddr_family {i : Iface} {family : IpFamily} {addr : IpAddr}
    (h : i.sourceAddr family = some addr) : addr.family = family := by
  cases family <;> obtain ⟨a, -, rfl⟩ := Option.map_eq_some_iff.1 h <;> rfl

theorem sourceAddr_eq_some_iff {i : Iface} {addr : IpAddr} :
    i.sourceAddr addr.family = some addr ↔ i.hasAddr addr = true := by
  cases addr <;> simp [IpAddr.family, Iface.sourceAddr, Iface.hasAddr]

theorem exists_sourceAddr {i : Iface} {family : IpFamily} (h : i.hasSocket family = true) :
    ∃ addr, i.sourceAddr family = some addr := by
  cases family <;> obtain ⟨v, hv⟩ := Option.isSome_iff_exists.1 h
  · exact ⟨.v4 v.addr, by simp [Iface.sourceAddr, Iface.addrV4, hv]⟩
  · exact ⟨.v6 v.addr, by simp [Iface.sourceAddr, Iface.addrV6, hv]⟩

/-- What a repeating daemon sends a datagram on. -/
theorem atPositions_forwarded (st : State) (σ : CacheOrder) (now wake : ℕ) (pkt : Datagram)
    (p : Published) (wire : Wire) :
    st.ifaces.atPositions (handleDatagram parse st σ now wake pkt p wire).forwarded =
      if admitted st.config st.ifaces pkt = true ∧ st.config.repeats = true then
        forwardIfaces pkt st.ifaces
      else [] := by
  rw [handleDatagram_forwarded]
  split_ifs
  · rfl
  · rfl

/-- What was heard over an interface is repeated on the other links, once on each. -/
theorem Net.forwardIfaces_links {d : D} {i : Iface} (hi : i ∈ net.ifaces d) {pkt : Datagram}
    (hpkt : pkt.recvIfindex = some i.ifindex) :
    ((forwardIfaces pkt (net.ifaces d)).map fun j => net.link d j.ifindex).Nodup ∧
      ∀ j, j ∈ forwardIfaces pkt (net.ifaces d) ↔
        j ∈ net.ifaces d ∧ net.link d j.ifindex ≠ net.link d i.ifindex := by
  obtain ⟨idx, i', hidx, hi', hindex⟩ :=
    exists_identify_of_ifindex hpkt (List.mem_map_of_mem hi)
  have hperm := cons_forwardIfaces_perm hidx hi'
  have hnodup := net.distinct d
  rw [← (hperm.map fun k => net.link d k.ifindex).nodup_iff, List.map_cons, List.nodup_cons,
    hindex] at hnodup
  refine ⟨hnodup.2, fun j => ⟨fun hj => ⟨hperm.mem_iff.1 (List.mem_cons_of_mem _ hj), ?_⟩, ?_⟩⟩
  · -- the interface that heard it is not among those it is sent on
    intro heq
    exact hnodup.1 (heq ▸ List.mem_map_of_mem hj)
  · rintro ⟨hj, hne⟩
    rcases List.mem_cons.1 (hperm.mem_iff.2 hj) with rfl | hout
    · rw [hindex] at hne
      exact absurd rfl hne
    · exact hout

/-- The links on which frames go out. -/
theorem map_link_frames (d : D) (family : IpFamily) (data : List UInt8) {js : List Iface}
    (hjs : ∀ j ∈ js, j.hasSocket family = true) :
    (js.filterMap fun j => (j.sourceAddr family).map fun addr =>
        (⟨net.link d j.ifindex, data, addr, mdnsPort⟩ : Frame L)).map Frame.link =
      js.map fun j => net.link d j.ifindex := by
  induction js with
  | nil => rfl
  | cons j js ih =>
    obtain ⟨addr, haddr⟩ := exists_sourceAddr (hjs j List.mem_cons_self)
    rw [List.filterMap_cons_some (by rw [haddr]; rfl), List.map_cons, List.map_cons,
      ih fun j' hj' => hjs j' (List.mem_cons_of_mem _ hj')]

theorem hasSocket_of_sendMdnsOn {j : Iface} {family : IpFamily} {socketOk : IpFamily → Bool}
    (h : j.sendMdnsOn family socketOk = true) : j.hasSocket family = true := by
  unfold Iface.sendMdnsOn at h
  exact (Bool.and_eq_true_iff.1 h).1

/-- A frame that a daemon sends for the frame `f`: the daemon does not have the address of the
source of `f`, it sends on another link, and from an address of its own. -/
structure Net.Passes (net : Net D L) (d : D) (f g : Frame L) : Prop where
  hears : net.Attached d f.link
  sends : net.Attached d g.link
  link : g.link ≠ f.link
  foreign : ∀ i ∈ net.ifaces d, i.hasAddr f.source = false
  own : ∃ i ∈ net.ifaces d, i.hasAddr g.source = true
  family : g.source.family = f.source.family
  data : g.data = f.data.take maxPacket
  port : g.port = mdnsPort

/-- **One hearing**: at most one frame goes out on each link, and each passes `f` on. -/
theorem Net.Repeats.spec {d : D} {f : Frame L} {frames : List (Frame L)}
    (h : net.Repeats parse reliable d f frames) :
    (frames.map Frame.link).Nodup ∧ ∀ g ∈ frames, net.Passes d f g := by
  obtain ⟨hi, hlink, hrecv, hconfig, hifaces, -⟩ := h
  rename_i i pkt st σ now wake p wire sockets
  rw [received_eq] at hrecv
  cases hrecv
  rw [atPositions_forwarded, hifaces, hconfig]
  split_ifs with hadm
  · set pkt : Datagram := ⟨f.data.take maxPacket, f.source, f.port, f.source.family,
      some i.ifindex⟩ with hpkt
    obtain ⟨hnodup, hmem⟩ := net.forwardIfaces_links hi (rfl : pkt.recvIfindex = some i.ifindex)
    constructor
    · rw [map_link_frames d pkt.family _ fun j hj =>
        hasSocket_of_sendMdnsOn (List.mem_filter.1 hj).2]
      exact hnodup.sublist (List.filter_sublist.map _)
    · intro g hg
      obtain ⟨j, hj, hg⟩ := List.mem_filterMap.1 hg
      obtain ⟨addr, haddr, rfl⟩ := Option.map_eq_some_iff.1 hg
      obtain ⟨hjmem, hne⟩ := (hmem j).1 (List.mem_filter.1 hj).1
      have hfamily := sourceAddr_family haddr
      have hown : j.hasAddr addr = true := by
        rw [← sourceAddr_eq_some_iff, hfamily]
        exact haddr
      refine ⟨⟨i, hi, hlink⟩, ⟨j, hjmem, rfl⟩, ?_, ?_, ⟨j, hjmem, hown⟩, hfamily, rfl, rfl⟩
      · rw [← hlink]
        exact hne
      · have hadm := hadm.1
        simp only [admitted, Bool.and_eq_true, Bool.not_eq_true', List.any_eq_false] at hadm
        intro k hk
        simpa using hadm.1.2 k hk
  · exact ⟨List.nodup_nil, by simp⟩

end Repeats

/-! ### Networks in which nothing is held back -/

/-- Every daemon repeats what it hears from any source, over sockets of the family on all its
interfaces, and no two daemons share an address. -/
structure Net.Open {D L : Type} (net : Net D L) (family : IpFamily) : Prop where
  repeats : ∀ d, (net.config d).repeats = true
  admits : ∀ d ip, (net.config d).allowSource ip = true
  sockets : ∀ d, ∀ i ∈ net.ifaces d, i.hasSocket family = true
  addresses : ∀ d d', d ≠ d' → ∀ i ∈ net.ifaces d, ∀ i' ∈ net.ifaces d', ∀ addr : IpAddr,
    addr.family = family → i.hasAddr addr = true → i'.hasAddr addr = false

/-- A datagram of a host that is no daemon of the network. -/
structure Net.Foreign {D L : Type} (net : Net D L) (f : Frame L) : Prop where
  port : f.port = mdnsPort
  source : ∀ d, ∀ i ∈ net.ifaces d, i.hasAddr f.source = false

section Open

variable {D L : Type} {net : Net D L} {parse : List UInt8 → Option Message} {f : Frame L}

/-- A daemon that hears a frame can handle it, in one way or another. -/
theorem Net.exists_repeats (net : Net D L) (parse : List UInt8 → Option Message) {d : D}
    (hin : net.Attached d f.link) : ∃ frames, net.Repeats parse True d f frames := by
  obtain ⟨i, hi, hlink⟩ := hin
  exact ⟨_, @Net.Repeats.mk D L net parse True d f i _ (Engine.start (net.config d) (net.ifaces d))
    (IterOrder.id _ _) 0 0 ⟨⟨[], true⟩, [], [], []⟩ wireOk _ hi hlink (received_eq f i) rfl rfl
    fun _ => rfl⟩

/-- In an open network with reliable sends, a daemon passes on to all its other links what is not
its own. -/
theorem Net.Repeats.full (ho : net.Open f.source.family) {d : D} {frames : List (Frame L)}
    (h : net.Repeats parse True d f frames) (hport : f.port = mdnsPort)
    (hforeign : ∀ i ∈ net.ifaces d, i.hasAddr f.source = false) {l : L}
    (hout : net.Attached d l) (hne : l ≠ f.link) : l ∈ frames.map Frame.link := by
  obtain ⟨hi, hlink, hrecv, hconfig, hifaces, hsockets⟩ := h
  rename_i i pkt st σ now wake p wire sockets
  rw [received_eq] at hrecv
  cases hrecv
  set pkt : Datagram := ⟨f.data.take maxPacket, f.source, f.port, f.source.family,
    some i.ifindex⟩ with hpkt
  have hadm : admitted (net.config d) (net.ifaces d) pkt = true := by
    have hown : (net.ifaces d).any (fun k => k.hasAddr pkt.sourceIp) = false := by
      simpa [List.any_eq_false] using hforeign
    have hsource : isMdnsSource pkt = true := by simp [isMdnsSource, pkt, hport]
    simp [admitted, hown, hsource, ho.admits d]
  rw [atPositions_forwarded, hifaces, hconfig, if_pos ⟨hadm, ho.repeats d⟩,
    map_link_frames d pkt.family _ fun j hj => hasSocket_of_sendMdnsOn (List.mem_filter.1 hj).2]
  obtain ⟨j, hj, rfl⟩ := hout
  obtain ⟨-, hmem⟩ := net.forwardIfaces_links hi (rfl : pkt.recvIfindex = some i.ifindex)
  rw [← hlink] at hne
  refine List.mem_map.2 ⟨j, List.mem_filter.2 ⟨(hmem j).2 ⟨hj, hne⟩, ?_⟩, rfl⟩
  rw [hsockets trivial]
  simp [Iface.sendMdnsOn, pkt, ho.sockets d j hj]

end Open

/-! ### Whole floods -/

/-- What holds of every frame of a flood. -/
structure Net.IsCopy {D L : Type} (net : Net D L) (f : Frame L) (c : Copy D L) : Prop where
  link : c.frame.link = here f.link c.way
  origin : c.way = [] → c.frame = f
  own : ∀ hop ∈ c.way.head?, ∃ i ∈ net.ifaces hop.1, i.hasAddr c.frame.source = true
  family : c.frame.source.family = f.source.family
  data : c.way ≠ [] → c.frame.data = f.data.take maxPacket
  port : f.port = mdnsPort → c.frame.port = mdnsPort

section Floods

variable {D L : Type} {net : Net D L} {parse : List UInt8 → Option Message} {f g : Frame L}
  {reliable reliable' full : Prop} {sent : List (Copy D L)} {heard : List (ℕ × D)} {c : Copy D L}
  {d : D}

theorem Net.IsCopy.pass (hc : net.IsCopy f c) (h : net.Passes d c.frame g) :
    net.IsCopy f ⟨g, (d, g.link) :: c.way⟩ := by
  refine ⟨rfl, by simp, ?_, h.family.trans hc.family, fun _ => ?_, fun _ => h.port⟩
  · rintro hop ⟨⟩
    exact h.own
  · show g.data = _
    rw [h.data]
    by_cases hway : c.way = []
    · rw [hc.origin hway]
    · rw [hc.data hway, List.take_take, Nat.min_self]

/-- **Daemons pass frames on as bridges do**: what a daemon has sent it does not send again. -/
theorem Net.IsCopy.hop (hc : net.IsCopy f c) (h : net.Passes d c.frame g) :
    Hop net.Attached f.link c.way d g.link := by
  refine ⟨hc.link ▸ h.hears, h.sends, hc.link ▸ h.link, ?_⟩
  rintro hop hhop rfl
  obtain ⟨i, hi, hown⟩ := hc.own hop hhop
  rw [h.foreign i hi] at hown
  cases hown

theorem Net.Floods.isCopy (h : net.Floods parse reliable f sent heard) :
    ∀ c ∈ sent, net.IsCopy f c := by
  induction h with
  | start =>
    intro c hc
    rw [List.mem_singleton.1 hc]
    exact ⟨rfl, fun _ => rfl, by simp, rfl, by simp, id⟩
  | hear h hn hnew hframes ih =>
    intro c' hc'
    rcases List.mem_append.1 hc' with hc' | hc'
    · exact ih c' hc'
    · obtain ⟨g, hg, rfl⟩ := List.mem_map.1 hc'
      exact (ih _ (List.mem_of_getElem? hn)).pass (hframes.spec.2 g hg)

theorem Net.Repeats.mono {frames : List (Frame L)} (himp : reliable' → reliable)
    (h : net.Repeats parse reliable d f frames) : net.Repeats parse reliable' d f frames := by
  obtain ⟨hi, hlink, hrecv, hconfig, hifaces, hsockets⟩ := h
  exact .mk hi hlink hrecv hconfig hifaces fun h => hsockets (himp h)

theorem Net.Floods.mono (himp : reliable' → reliable)
    (h : net.Floods parse reliable f sent heard) : net.Floods parse reliable' f sent heard := by
  induction h with
  | start => exact .start
  | hear h hn hnew hframes ih => exact .hear ih hn hnew (hframes.mono himp)

/-- In an open network with reliable sends, every possible hop is made. -/
theorem Net.IsCopy.mem_links (hc : net.IsCopy f c) (ho : net.Open f.source.family)
    (hf : net.Foreign f) {frames : List (Frame L)}
    (hframes : net.Repeats parse True d c.frame frames) {l : L}
    (hhop : Hop net.Attached f.link c.way d l) : l ∈ frames.map Frame.link := by
  rw [← hc.family] at ho
  -- the source is the host, or a daemon other than this one
  have hsource : ∀ i ∈ net.ifaces d, i.hasAddr c.frame.source = false := by
    cases hway : c.way with
    | nil =>
      rw [hc.origin hway]
      exact hf.source d
    | cons hop way =>
      have hhead : hop ∈ c.way.head? := by rw [hway]; rfl
      obtain ⟨i, hi, hown⟩ := hc.own hop hhead
      intro i' hi'
      exact ho.addresses hop.1 d (hhop.foreign hop hhead) i hi i' hi' _ rfl hown
  exact hframes.full ho (hc.port hf.port) hsource hhop.sends (hc.link ▸ hhop.link)

/-- **A flood of frames is a flood through bridges**, in which nothing is lost if the network is
open and sends are reliable. -/
theorem Net.Floods.spread
    (hfull : full → reliable ∧ net.Open f.source.family ∧ net.Foreign f)
    (h : net.Floods parse reliable f sent heard) :
    Spread net.Attached full f.link (sent.map Copy.way) heard := by
  induction h with
  | start => exact .start
  | @hear sent heard n c d frames h hn hnew hframes ih =>
    have hc := h.isCopy c (List.mem_of_getElem? hn)
    obtain ⟨hnodup, hpasses⟩ := hframes.spec
    have hmap : (sent ++ frames.map fun g => (⟨g, (d, g.link) :: c.way⟩ : Copy D L)).map Copy.way =
        sent.map Copy.way ++ (frames.map Frame.link).map fun l => (d, l) :: c.way := by
      simp [Function.comp_def]
    rw [hmap]
    refine .hear ih (by rw [List.getElem?_map, hn]; rfl) hnew hnodup ?_ ?_
    · intro l hl
      obtain ⟨g, hg, rfl⟩ := List.mem_map.1 hl
      exact hc.hop (hpasses g hg)
    · intro hf l hhop
      obtain ⟨hreliable, ho, hforeign⟩ := hfull hf
      exact hc.mem_links ho hforeign (hframes.mono fun _ => hreliable) hhop

theorem Net.Floods.map_link (h : net.Floods parse reliable f sent heard) :
    (sent.map fun c => c.frame.link) = (sent.map Copy.way).map (here f.link) := by
  rw [List.map_map]
  exact List.map_congr_left fun c hc => (h.isCopy c hc).link

/-- Without cycles, a flood has no more frames than there are interfaces, and one. -/
theorem Net.Floods.length_le [Fintype D] (hG : net.graph.IsAcyclic)
    (h : net.Floods parse reliable f sent heard) :
    sent.length ≤ 1 + ∑ d, (net.ifaces d).length := by
  have hspread : Spread net.Attached False f.link (sent.map Copy.way) heard :=
    h.spread False.elim
  have hlinks : ∀ d l, net.Attached d l → l ∈ (net.ifaces d).map fun i => net.link d i.ifindex := by
    rintro d _ ⟨i, hi, rfl⟩
    exact List.mem_map_of_mem hi
  simpa using hspread.length_le hlinks hG

theorem Net.Floods.heard_length_le [Fintype D] (hG : net.graph.IsAcyclic)
    (h : net.Floods parse reliable f sent heard) :
    heard.length ≤ (1 + ∑ d, (net.ifaces d).length) * Fintype.card D := by
  have hspread : Spread net.Attached False f.link (sent.map Copy.way) heard :=
    h.spread False.elim
  have hheard := hspread.heard_length_le
  rw [List.length_map] at hheard
  exact hheard.trans (Nat.mul_le_mul_right _ (h.length_le hG))

/-- **Without cycles a flood repeats nothing, and ends.**  Whatever is lost, at most one frame is
put on each link, the first one included; the copies have the first octets of the original; there
are no more frames than interfaces, and one; and no more hearings than that for each daemon. -/
theorem flood_at_most_once [Fintype D] (hG : net.graph.IsAcyclic)
    (h : net.Floods parse reliable f sent heard) :
    (sent.map fun c => c.frame.link).Nodup ∧
      (∀ c ∈ sent, c.way ≠ [] → c.frame.data = f.data.take maxPacket) ∧
      sent.length ≤ 1 + ∑ d, (net.ifaces d).length ∧
      heard.length ≤ (1 + ∑ d, (net.ifaces d).length) * Fintype.card D := by
  refine ⟨?_, fun c hc => (h.isCopy c hc).data, h.length_le hG, h.heard_length_le hG⟩
  have hspread : Spread net.Attached False f.link (sent.map Copy.way) heard :=
    h.spread False.elim
  rw [h.map_link]
  exact hspread.nodup_links hG

/-- Without cycles, every flood can be completed. -/
theorem Net.Floods.exists_quiet [Fintype D] (hG : net.graph.IsAcyclic)
    (h : net.Floods parse True f sent heard) :
    ∃ more later, net.Floods parse True f (sent ++ more) (later ++ heard) ∧
      net.Quiet (sent ++ more) (later ++ heard) := by
  -- there are only so many hearings left
  induction hleft : (1 + ∑ d, (net.ifaces d).length) * Fintype.card D - heard.length using
    Nat.strong_induction_on generalizing sent heard with
  | _ left ih =>
    by_cases hquiet : net.Quiet sent heard
    · exact ⟨[], [], by simpa using h, by simpa using hquiet⟩
    · unfold Net.Quiet at hquiet
      push Not at hquiet
      obtain ⟨n, c, hn, d, hatt, hnew⟩ := hquiet
      obtain ⟨frames, hframes⟩ := net.exists_repeats parse hatt
      have hnext := Net.Floods.hear h hn hnew hframes
      have hbound := hnext.heard_length_le hG
      rw [List.length_cons] at hbound
      obtain ⟨more, later, hflood, hquiet⟩ := ih _ (by rw [List.length_cons]; omega) hnext rfl
      refine ⟨(frames.map fun g => ⟨g, (d, g.link) :: c.way⟩) ++ more, later ++ [(n, d)], ?_⟩
      rw [← List.append_assoc, List.append_assoc later]
      exact ⟨hflood, hquiet⟩

/-- **Every link gets exactly one frame.**  In an open network without cycles, and with reliable
sends, every flood of a datagram of a foreign host can be completed; and once every daemon has heard
the frames on its links, there is exactly one frame on each link that is connected to the first one,
with its first octets unchanged. -/
theorem flood_exactly_once [Fintype D] [DecidableEq L] (ho : net.Open f.source.family)
    (hf : net.Foreign f) (hG : net.graph.IsAcyclic) (h : net.Floods parse True f sent heard) :
    (∃ more later, net.Floods parse True f (sent ++ more) (later ++ heard) ∧
      net.Quiet (sent ++ more) (later ++ heard)) ∧
    (net.Quiet sent heard → ∀ l, net.graph.Reachable (.inl l) (.inl f.link) →
      (sent.map fun c => c.frame.link).count l = 1) ∧
    ∀ c ∈ sent, c.way ≠ [] → c.frame.data = f.data.take maxPacket := by
  refine ⟨h.exists_quiet hG, fun hquiet l hl => ?_, fun c hc => (h.isCopy c hc).data⟩
  have hspread : Spread net.Attached True f.link (sent.map Copy.way) heard :=
    h.spread fun _ => ⟨trivial, ho, hf⟩
  rw [h.map_link]
  refine List.count_eq_one_of_mem (hspread.nodup_links hG) ?_
  obtain ⟨t, ht, rfl⟩ := exists_trail hl
  refine List.mem_map_of_mem (hspread.mem_of_quiet ?_ ht)
  intro n way hn d hatt
  rw [List.getElem?_map] at hn
  obtain ⟨c, hc, rfl⟩ := Option.map_eq_some_iff.1 hn
  rw [← (h.isCopy c (List.mem_of_getElem? hc)).link] at hatt
  exact hquiet n c hc d hatt

/-- In an open network, there is a flood with a copy that has come along each trail. -/
theorem Net.Open.exists_flood (ho : net.Open f.source.family) (hf : net.Foreign f)
    {t : List (D × L)} (ht : Trail net.Attached f.link t) :
    ∃ sent heard n c, net.Floods parse True f sent heard ∧ sent[n]? = some c ∧ c.way = t ∧
      (∀ p ∈ heard, p.1 < n) ∧ t.length < sent.length := by
  induction ht with
  | nil => exact ⟨_, _, 0, _, .start, rfl, rfl, by simp, by simp⟩
  | @hop t d l ht hin hout hlink hnew ih =>
    obtain ⟨sent, heard, n, c, hflood, hn, rfl, hbefore, hlen⟩ := ih
    have hc := hflood.isCopy c (List.mem_of_getElem? hn)
    have hnot : (n, d) ∉ heard := fun hmem => Nat.lt_irrefl n (hbefore _ hmem)
    obtain ⟨frames, hframes⟩ := net.exists_repeats parse (hc.link.symm ▸ hin)
    have hmem := hc.mem_links ho hf hframes ⟨hin, hout, hlink, hnew⟩
    obtain ⟨g, hg, rfl⟩ := List.mem_map.1 hmem
    obtain ⟨m, hm⟩ := List.getElem?_of_mem hg
    refine ⟨_, _, sent.length + m, ⟨g, (d, g.link) :: c.way⟩, .hear hflood hn hnot hframes, ?_, rfl,
      ?_, ?_⟩
    · rw [List.getElem?_append_right (Nat.le_add_right _ _), Nat.add_sub_cancel_left,
        List.getElem?_map, hm]
      rfl
    · have hlt : n < sent.length := (List.getElem?_eq_some_iff.1 hn).1
      intro p hp
      rcases List.mem_cons.1 hp with rfl | hp
      · exact Nat.lt_add_right _ hlt
      · exact Nat.lt_add_right _ ((hbefore p hp).trans hlt)
    · have hpos := List.length_pos_of_mem hg
      simp only [List.length_cons, List.length_append, List.length_map]
      omega

/-- **Floods end exactly in networks without cycles.**  In an open network of finitely many daemons,
the floods of the datagrams of a foreign host are bounded exactly if the links and the daemons form
no cycle.  Two daemons that join the same two links already form one. -/
theorem flood_bounded_iff [Finite D] {source : IpAddr} (ho : net.Open source.family)
    (hsource : ∀ d, ∀ i ∈ net.ifaces d, i.hasAddr source = false) (data : List UInt8) :
    (∀ o : L, ∃ b, ∀ sent heard,
      net.Floods parse reliable ⟨o, data, source, mdnsPort⟩ sent heard → sent.length ≤ b) ↔
      net.graph.IsAcyclic := by
  constructor
  · intro hbounded
    refine bounded_iff_isAcyclic.1 fun o => ?_
    obtain ⟨b, hb⟩ := hbounded o
    refine ⟨b, fun t ht => ?_⟩
    have hf : net.Foreign ⟨o, data, source, mdnsPort⟩ := ⟨rfl, hsource⟩
    obtain ⟨sent, heard, -, -, hflood, -, -, -, hlen⟩ := Net.Open.exists_flood ho hf ht
    exact (hlen.le).trans (hb sent heard (hflood.mono fun _ => trivial))
  · intro hG o
    have := Fintype.ofFinite D
    exact ⟨_, fun sent heard hflood => hflood.length_le hG⟩

end Floods

/-! ### Two routers in a row, and two in parallel -/

/-- The interfaces of a router with the addresses `192.168.x.2` and `192.168.y.2`. -/
def routerPorts (x y : BitVec 32) : List Iface :=
  [⟨"eth0", 2, some ⟨x + 2, 0xFFFFFF00, x⟩, none⟩, ⟨"eth1", 3, some ⟨y + 2, 0xFFFFFF00, y⟩, none⟩]

/-- Two routers: `false` joins the links 0 and 1, and `true` the links 1 and 2. -/
def lineNet : Net Bool (Fin 3) where
  config _ := ⟨true, true, 4096, none, [], []⟩
  ifaces d := if d then routerPorts 0xC0A80200 0xC0A80300 else twoPorts
  link d ifindex := if d then if ifindex == 3 then 2 else 1 else if ifindex == 3 then 1 else 0
  distinct := by decide

/-- A datagram of the host `192.168.1.50` on the link 0. -/
def lineFrame : Frame (Fin 3) := ⟨0, [1, 2, 3], .v4 0xC0A80132, mdnsPort⟩

theorem lineNet_isAcyclic : lineNet.graph.IsAcyclic := by
  refine isAcyclic_of_two (by decide) ?_
  -- the link in common is the link 1
  have hone : ∀ d d', d ≠ d' → ∀ l, lineNet.Attached d l → lineNet.Attached d' l → l = 1 := by
    decide
  intro d d' hne l l' h₁ h₂ h₃ h₄
  rw [hone d d' hne l h₁ h₂, hone d d' hne l' h₃ h₄]

/-- A network is open for IPv4 if the addresses of its daemons are different. -/
theorem open_v4 {D L : Type} {net : Net D L}
    (hconfig : ∀ d, net.config d = ⟨true, true, 4096, none, [], []⟩)
    (hsockets : ∀ d, ∀ i ∈ net.ifaces d, i.hasSocket .v4 = true)
    (haddr : ∀ d d', d ≠ d' → ∀ i ∈ net.ifaces d, ∀ i' ∈ net.ifaces d', i.addrV4 ≠ i'.addrV4) :
    net.Open .v4 where
  repeats d := by rw [hconfig d]
  admits d ip := by rw [hconfig d]; rfl
  sockets := hsockets
  addresses := by
    intro d d' hne i hi i' hi' addr hfamily hown
    have hdiff := haddr d d' hne i hi i' hi'
    cases addr with
    | v6 a => cases hfamily
    | v4 a =>
      simp only [Iface.hasAddr, beq_iff_eq, beq_eq_false_iff_ne] at hown ⊢
      rw [← hown]
      exact hdiff.symm

theorem lineNet_open : lineNet.Open .v4 := open_v4 (fun _ => rfl) (by decide) (by decide)

theorem lineFrame_foreign : lineNet.Foreign lineFrame := ⟨rfl, by decide⟩

/-- The datagram, and its copies on the other two links. -/
def lineCopies : List (Copy Bool (Fin 3)) :=
  [⟨lineFrame, []⟩, ⟨⟨1, [1, 2, 3], .v4 0xC0A80201, mdnsPort⟩, [(false, 1)]⟩,
    ⟨⟨2, [1, 2, 3], .v4 0xC0A80302, mdnsPort⟩, [(true, 2), (false, 1)]⟩]

/-- The first router hears the datagram, and the second one the copy. -/
theorem lineNet_floods :
    lineNet.Floods (fun _ => none) True lineFrame lineCopies [(1, true), (0, false)] := by
  have hfirst : lineNet.Repeats (fun _ => none) True false lineFrame
      [⟨1, [1, 2, 3], .v4 0xC0A80201, mdnsPort⟩] :=
    @Net.Repeats.mk _ _ lineNet (fun _ => none) True false lineFrame _
      ⟨[1, 2, 3], .v4 0xC0A80132, mdnsPort, .v4, some 2⟩
      (Engine.start (lineNet.config false) (lineNet.ifaces false)) (IterOrder.id _ _) 0 0
      webPublished wireOk _ List.mem_cons_self rfl rfl rfl rfl fun _ => rfl
  have hsecond : lineNet.Repeats (fun _ => none) True true
      ⟨1, [1, 2, 3], .v4 0xC0A80201, mdnsPort⟩ [⟨2, [1, 2, 3], .v4 0xC0A80302, mdnsPort⟩] :=
    @Net.Repeats.mk _ _ lineNet (fun _ => none) True true ⟨1, [1, 2, 3], .v4 0xC0A80201, mdnsPort⟩ _
      ⟨[1, 2, 3], .v4 0xC0A80201, mdnsPort, .v4, some 2⟩
      (Engine.start (lineNet.config true) (lineNet.ifaces true)) (IterOrder.id _ _) 0 0
      webPublished wireOk _ List.mem_cons_self rfl rfl rfl rfl fun _ => rfl
  have hstart : lineNet.Floods (fun _ => none) True lineFrame [⟨lineFrame, []⟩] [] := .start
  have honce := hstart.hear (n := 0) (c := ⟨lineFrame, []⟩) rfl (by simp) hfirst
  exact honce.hear (n := 1) (c := ⟨⟨1, [1, 2, 3], .v4 0xC0A80201, mdnsPort⟩, [(false, 1)]⟩) rfl
    (by simp) hsecond

theorem flood_at_most_once_line :
    ∃ heard, lineNet.Floods (fun _ => none) True lineFrame lineCopies heard ∧
      (lineCopies.map fun c => c.frame.link) = [0, 1, 2] ∧
      (lineCopies.map fun c => c.frame.link).Nodup :=
  ⟨_, lineNet_floods, rfl, (flood_at_most_once lineNet_isAcyclic lineNet_floods).1⟩

/-- Once all have heard everything, there is one frame on the last link. -/
theorem flood_exactly_once_line :
    ∃ sent heard, lineNet.Floods (fun _ => none) True lineFrame sent heard ∧
      lineNet.Quiet sent heard ∧ (sent.map fun c => c.frame.link).count 2 = 1 := by
  obtain ⟨⟨more, later, hflood, hquiet⟩, -, -⟩ :=
    flood_exactly_once lineNet_open lineFrame_foreign lineNet_isAcyclic lineNet_floods
  obtain ⟨-, hcount, -⟩ :=
    flood_exactly_once lineNet_open lineFrame_foreign lineNet_isAcyclic hflood
  have hreach : lineNet.graph.Reachable (.inl 2) (.inl 0) := by
    have h₁ : lineNet.graph.Adj (.inl 2) (.inr true) := (by decide : lineNet.Attached true 2)
    have h₂ : lineNet.graph.Adj (.inr true) (.inl 1) := (by decide : lineNet.Attached true 1)
    have h₃ : lineNet.graph.Adj (.inl 1) (.inr false) := (by decide : lineNet.Attached false 1)
    have h₄ : lineNet.graph.Adj (.inr false) (.inl 0) := (by decide : lineNet.Attached false 0)
    exact h₁.reachable.trans (h₂.reachable.trans (h₃.reachable.trans h₄.reachable))
  exact ⟨_, _, hflood, hquiet, hcount hquiet 2 hreach⟩

/-- Two routers that join the same two links. -/
def parallelNet : Net Bool Bool where
  config _ := ⟨true, true, 4096, none, [], []⟩
  ifaces d := if d then twoPorts else routerPorts 0xC0A80100 0xC0A80200
  link _ ifindex := ifindex == 3
  distinct := by decide

theorem parallelNet_open : parallelNet.Open .v4 := open_v4 (fun _ => rfl) (by decide) (by decide)

/-- A datagram of a host is passed on without end. -/
theorem flood_bounded_iff_parallel :
    ¬ ∀ o : Bool, ∃ b, ∀ sent heard, parallelNet.Floods (fun _ => none) True
      ⟨o, [1, 2, 3], .v4 0xC0A80132, mdnsPort⟩ sent heard → sent.length ≤ b := by
  rw [flood_bounded_iff parallelNet_open (by decide)]
  have hatt : ∀ d l, parallelNet.Attached d l := by decide
  exact not_isAcyclic_of_parallel Bool.false_ne_true Bool.false_ne_true (hatt _ _) (hatt _ _)
    (hatt _ _) (hatt _ _)

end Nmdns
