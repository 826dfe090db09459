import Nmdns.Config

/-!
# Setting up the interfaces

`src/iface.rs`: from the configured interface names to the monitored interfaces.

* `ifaceAddrs`: the usable addresses of an interface, from the operating system's table;
* `setup`: one interface for each configured name, in the order of the names;
* `setup_ok`: each has the name and the operating system's index of its entry.

The operating system is a parameter: its name-to-index table, its address table and the outcome of
every socket call.
-/

namespace Nmdns

/-- A socket address of the interface table. -/
inductive SockAddr
  | v4 (ip : BitVec 32)
  | v6 (ip : BitVec 128) (scopeId : UInt32)
  | other
  deriving DecidableEq, Repr

/-- A row of the interface table. -/
structure InterfaceAddress where
  interfaceName : String
  address : Option SockAddr
  netmask : Option SockAddr
  deriving DecidableEq, Repr

/-- The calls of the operating system that `setup` makes.  `getifaddrs` is the table as it is read
for a name; the socket calls that open one side of an interface are one call here. -/
structure Os (ε : Type) where
  ifNametoindex : String → Except ε UInt32
  getifaddrs : String → Except ε (List InterfaceAddress)
  recvSocket : IpFamily → Except ε Unit
  openV4 : String → BitVec 32 → Except ε Unit
  openV6 : String → BitVec 128 → UInt32 → UInt32 → Except ε Unit
  registerRecv : IpFamily → Except ε Unit

/-- `io::Error` as `setup` returns it. -/
inductive SetupError (ε : Type)
  | os (e : ε)
  | noAddress (name : String)
  deriving DecidableEq, Repr

/-! ### Addresses of an interface -/

/-- `as_sockaddr_in`. -/
def SockAddr.asV4 : SockAddr → Option (BitVec 32)
  | .v4 ip => some ip
  | _ => none

/-- `as_sockaddr_in6`. -/
def SockAddr.asV6 : SockAddr → Option (BitVec 128 × UInt32)
  | .v6 ip scopeId => some (ip, scopeId)
  | _ => none

/-- `u8::leading_ones`. -/
def leadingOnes (byte : BitVec 8) : ℕ :=
  ((List.range 8).takeWhile fun i => byte.getMsbD i).length

/-- `Ipv6Addr::octets`. -/
def octets (ip : BitVec 128) : List (BitVec 8) :=
  (List.range 16).map fun i => ip.extractLsb' (8 * (15 - i)) 8

/-- The loop of `ipv6_prefix_len`: it stops at the first byte that is not all ones. -/
def prefixLenOf : List (BitVec 8) → UInt8 → UInt8
  | [], bits => bits
  | byte :: rest, bits =>
    if byte = 0xff then prefixLenOf rest (bits + 8) else bits + UInt8.ofNat (leadingOnes byte)

/-- `ipv6_prefix_len`. -/
def ipv6PrefixLen (mask : BitVec 128) : UInt8 := prefixLenOf (octets mask) 0

/-- The IPv4 address of a row; the mask defaults to `255.255.255.0`. -/
def InterfaceAddress.ifaceV4 (ifa : InterfaceAddress) : Option IfaceV4 :=
  (ifa.address.bind SockAddr.asV4).map fun ip =>
    let mask := (ifa.netmask.bind SockAddr.asV4).getD 0xFFFFFF00
    ⟨ip, mask, ip &&& mask⟩

/-- The link-local IPv6 address of a row; the prefix length defaults to 64 and the scope to the
interface. -/
def InterfaceAddress.ifaceV6 (ifa : InterfaceAddress) (ifindex : UInt32) : Option IfaceV6 :=
  (ifa.address.bind SockAddr.asV6).bind fun (ip, scopeId) =>
    if !isUnicastLinkLocal (.v6 ip) then none
    else
      let prefixLen := ((ifa.netmask.bind SockAddr.asV6).map fun m => ipv6PrefixLen m.1).getD 64
      some ⟨ip, prefixLen, ipv6Net ip prefixLen, if scopeId = 0 then ifindex else scopeId⟩

/-- The loop of `iface_addrs`: the first address of each family, until both are found. -/
def ifaceAddrsLoop (ifname : String) (ifindex : UInt32) :
    List InterfaceAddress → Option IfaceV4 → Option IfaceV6 → Option IfaceV4 × Option IfaceV6
  | [], foundV4, foundV6 => (foundV4, foundV6)
  | ifa :: addrs, foundV4, foundV6 =>
    if ifa.interfaceName ≠ ifname then ifaceAddrsLoop ifname ifindex addrs foundV4 foundV6
    else
      let foundV4 := foundV4.or ifa.ifaceV4
      let foundV6 := foundV6.or (ifa.ifaceV6 ifindex)
      if foundV4.isSome && foundV6.isSome then (foundV4, foundV6)
      else ifaceAddrsLoop ifname ifindex addrs foundV4 foundV6

/-! ### The interface list -/

section Setup

variable {ε : Type} (os : Os ε)

/-- `iface_addrs`. -/
def ifaceAddrs (ifname : String) (ifindex : UInt32) :
    Except (SetupError ε) (Option IfaceV4 × Option IfaceV6) := do
  let addrs ← (os.getifaddrs ifname).mapError .os
  return ifaceAddrsLoop ifname ifindex addrs none none

/-- The first loop of `setup`, for one name. -/
def discover (name : String) : Except (SetupError ε) Iface := do
  let ifindex ← (os.ifNametoindex name).mapError .os
  let (v4, v6) ← ifaceAddrs os name ifindex
  if v4.isNone && v6.isNone then .error (.noAddress name)
  else return ⟨name, ifindex, v4, v6⟩

/-- The second loop of `setup`, for one interface: its sockets are opened and its groups joined. -/
def openIface (i : Iface) : Except (SetupError ε) Iface := do
  match i.v4 with
  | some v4 => (os.openV4 i.name v4.addr).mapError .os
  | none => pure ()
  match i.v6 with
  | some v6 => (os.openV6 i.name v6.addr i.ifindex v6.scopeId).mapError .os
  | none => pure ()
  return i

/-- A call for each family that some interface has. -/
def forFamilies (call : IpFamily → Except ε Unit) (discovered : List Iface) :
    Except (SetupError ε) Unit := do
  if discovered.any fun i => i.v4.isSome then (call .v4).mapError .os else pure ()
  if discovered.any fun i => i.v6.isSome then (call .v6).mapError .os else pure ()

/-- `setup`. -/
def setup (ifnames : List String) : Except (SetupError ε) (List Iface) := do
  let discovered ← ifnames.mapM (discover os)
  forFamilies os.recvSocket discovered
  let ifaces ← discovered.mapM (openIface os)
  forFamilies os.registerRecv discovered
  return ifaces

/-! ### What a successful setup returns -/

variable {os}

/-- An interface that is found has the name and index asked for, and an address. -/
theorem discover_ok {name : String} {i : Iface} (h : discover os name = .ok i) :
    i.name = name ∧ os.ifNametoindex name = .ok i.ifindex ∧ (i.v4.isSome ∨ i.v6.isSome) := by
  obtain ⟨ifindex, hindex, h⟩ := Except.bind_eq_ok_iff.1 h
  obtain ⟨⟨v4, v6⟩, -, h⟩ := Except.bind_eq_ok_iff.1 h
  dsimp only at h
  split_ifs at h with hnone
  cases h
  refine ⟨rfl, Except.mapError_eq_ok_iff.1 hindex, ?_⟩
  cases v4 <;> cases v6 <;> simp_all

/-- Opening the sockets changes nothing in the description of the interface. -/
theorem openIface_ok {i i' : Iface} (h : openIface os i = .ok i') : i' = i := by
  obtain ⟨name, ifindex, v4, v6⟩ := i
  unfold openIface at h
  cases v4 <;> cases v6 <;> dsimp only at h
  · cases h
    rfl
  · obtain ⟨-, -, h⟩ := Except.bind_eq_ok_iff.1 h
    cases h
    rfl
  · obtain ⟨-, -, h⟩ := Except.bind_eq_ok_iff.1 h
    cases h
    rfl
  · obtain ⟨-, -, h⟩ := Except.bind_eq_ok_iff.1 h
    obtain ⟨-, -, h⟩ := Except.bind_eq_ok_iff.1 h
    cases h
    rfl

/-- **The interface list follows the configured names**, entry by entry, repeated names included. -/
theorem setup_ok {ifnames : List String} {ifaces : List Iface}
    (h : setup os ifnames = .ok ifaces) :
    List.Forall₂ (fun name i => i.name = name ∧ os.ifNametoindex name = .ok i.ifindex ∧
      (i.v4.isSome ∨ i.v6.isSome)) ifnames ifaces := by
  obtain ⟨discovered, hdisc, h⟩ := Except.bind_eq_ok_iff.1 h
  obtain ⟨-, -, h⟩ := Except.bind_eq_ok_iff.1 h
  obtain ⟨opened, hopen, h⟩ := Except.bind_eq_ok_iff.1 h
  obtain ⟨-, -, h⟩ := Except.bind_eq_ok_iff.1 h
  cases h
  rw [Except.mapM_eq_ok_iff] at hdisc hopen
  have hsame : discovered = ifaces := by
    rw [← List.forall₂_eq_eq_eq]
    exact hopen.imp fun _ _ hi => (openIface_ok hi).symm
  rw [← hsame]
  exact hdisc.imp fun _ _ hi => discover_ok hi

/-- The indices of the interfaces are those of the names. -/
theorem setup_ifindex {ifnames : List String} {ifaces : List Iface}
    (h : setup os ifnames = .ok ifaces) :
    ifnames.map os.ifNametoindex = ifaces.map fun i => .ok i.ifindex := by
  rw [← List.forall₂_eq_eq_eq, List.forall₂_map_left_iff, List.forall₂_map_right_iff]
  exact (setup_ok h).imp fun _ _ hi => hi.2.1

end Setup

end Nmdns
