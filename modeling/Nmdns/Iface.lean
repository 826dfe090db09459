import Nmdns.Message

/-!
# Interfaces, source filters and ingress attribution

* `Iface` and its address tests (`src/iface.rs`);
* `Subnet`, `Resolved.allowSource`: the source filters (`src/config.rs`);
* `Datagram`, `identifyRecvIface`, `forwardTargets` (`src/repeater.rs`).

Addresses are bit vectors.  A send socket is an address family of the interface that is present;
whether a send over it succeeds is an input of the send.
-/

namespace Nmdns

/-- An IP address. -/
inductive IpAddr
  | v4 (addr : BitVec 32)
  | v6 (addr : BitVec 128)
  deriving DecidableEq, Repr

/-- `IpFamily`. -/
inductive IpFamily
  | v4
  | v6
  deriving DecidableEq, Repr

/-- The IPv4 side of an interface. -/
structure IfaceV4 where
  addr : BitVec 32
  mask : BitVec 32
  net : BitVec 32
  deriving DecidableEq, Repr

/-- The IPv6 side of an interface. -/
structure IfaceV6 where
  addr : BitVec 128
  prefixLen : UInt8
  net : BitVec 128
  scopeId : UInt32
  deriving DecidableEq, Repr

/-- A monitored interface. -/
structure Iface where
  name : String
  ifindex : UInt32
  v4 : Option IfaceV4
  v6 : Option IfaceV6
  deriving DecidableEq, Repr

/-- `ipv6_net`: the first `prefixLen` bits of an address. -/
def ipv6Net (addr : BitVec 128) (prefixLen : UInt8) : BitVec 128 :=
  addr &&& (if prefixLen = 0 then 0 else BitVec.allOnes 128 <<< (128 - prefixLen.toNat))

/-- `Iface::addr_v4`. -/
def Iface.addrV4 (i : Iface) : Option (BitVec 32) := i.v4.map IfaceV4.addr

/-- `Iface::addr_v6`. -/
def Iface.addrV6 (i : Iface) : Option (BitVec 128) := i.v6.map IfaceV6.addr

/-- `Iface::has_addr`. -/
def Iface.hasAddr (i : Iface) : IpAddr → Bool
  | .v4 ip => i.addrV4 == some ip
  | .v6 ip => i.addrV6 == some ip

/-- `Iface::contains`. -/
def Iface.contains (i : Iface) : IpAddr → Bool
  | .v4 ip => i.v4.any fun v4 => ip &&& v4.mask == v4.net
  | .v6 ip => i.v6.any fun v6 => ipv6Net ip v6.prefixLen == v6.net

/-- Whether the interface has a send socket of a family. -/
def Iface.hasSocket (i : Iface) : IpFamily → Bool
  | .v4 => i.v4.isSome
  | .v6 => i.v6.isSome

/-- `Iface::send_mdns_on`: an error without a socket, else the outcome of the socket's send. -/
def Iface.sendMdnsOn (i : Iface) (family : IpFamily) (socketOk : IpFamily → Bool) : Bool :=
  i.hasSocket family && socketOk family

/-- `Iface::send_mdns`: some family's send succeeds. -/
def Iface.sendMdns (i : Iface) (socketOk : IpFamily → Bool) : Bool :=
  i.sendMdnsOn .v4 socketOk || i.sendMdnsOn .v6 socketOk

/-! ### Source filters -/

/-- `Subnet`. -/
inductive Subnet
  | v4 (addr : BitVec 32) (prefixLen : UInt8) (mask net : BitVec 32)
  | v6 (addr : BitVec 128) (prefixLen : UInt8) (net : BitVec 128)
  deriving DecidableEq, Repr

/-- `Subnet::matches`. -/
def Subnet.matches : Subnet → IpAddr → Bool
  | .v4 _ _ mask net, .v4 ip => ip &&& mask == net
  | .v6 _ prefixLen net, .v6 ip => ipv6Net ip prefixLen == net
  | _, _ => false

/-- The validated configuration, as far as the running daemon reads it. -/
structure Resolved where
  repeats : Bool
  answerFromCache : Bool
  maxCacheEntries : ℕ
  cacheMaxTtlSecs : Option UInt64
  blacklist : List Subnet
  whitelist : List Subnet
  deriving Repr

/-- `Resolved::allow_source`. -/
def Resolved.allowSource (cfg : Resolved) (ip : IpAddr) : Bool :=
  if cfg.whitelist ≠ [] then cfg.whitelist.any fun s => s.matches ip
  else !cfg.blacklist.any fun s => s.matches ip

/-! ### Attribution of a datagram -/

/-- A received datagram.  Its bytes are opaque. -/
structure Datagram where
  data : List UInt8
  sourceIp : IpAddr
  sourcePort : UInt16
  family : IpFamily
  recvIfindex : Option UInt32
  deriving DecidableEq, Repr

/-- `Ipv6Addr::is_unicast_link_local`: the prefix `fe80::/10`. -/
def isUnicastLinkLocal : IpAddr → Bool
  | .v4 _ => false
  | .v6 ip => ip.extractLsb' 118 10 == 0b1111111010

/-- `identify_recv_iface`: by the index the kernel reports, else by the subnet of the source. -/
def identifyRecvIface (pkt : Datagram) (ifaces : List Iface) : Option ℕ :=
  let bySubnet :=
    if isUnicastLinkLocal pkt.sourceIp then none
    else ifaces.findIdx? fun i => i.contains pkt.sourceIp
  match pkt.recvIfindex with
  | some idx => (ifaces.findIdx? fun i => i.ifindex == idx).or bySubnet
  | none => bySubnet

/-- `forward_targets`. -/
def forwardTargets (recvIdx : Option ℕ) (source : IpAddr) (ifaces : List Iface) : List ℕ :=
  match recvIdx with
  | some i => (List.range ifaces.length).filter fun j => j != i
  | none =>
    if ifaces.any fun i => i.contains source then
      (List.range ifaces.length).filter fun j => !(ifaces[j]?.any fun i => i.contains source)
    else []

end Nmdns
