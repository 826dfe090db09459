import Nmdns.Filter
import Nmdns.Setup

/-!
# The subnet of an interface

`src/iface.rs`: a netmask is read as a prefix length, the prefix length is turned into a mask again,
and the mask decides which addresses are on the link of an interface.

* `toNat_ipv6PrefixLen`: the loop over the octets counts the leading ones of the netmask;
* `checkedPrefixLen`, `checkedPrefixLen_eq`: its 8-bit accumulator does not overflow;
* `ifaceAddrsLoop_eq`: the first row of each family is the one that counts;
* `contains_iff_netmask`: an interface contains the addresses that agree with its own under the
  netmask.
-/

namespace Nmdns

/-! ### The prefix length of a netmask -/

/-- The loop of `ipv6_prefix_len` with additions that fail on overflow. -/
def checkedPrefixLen : List (BitVec 8) → ℕ → Option ℕ
  | [], bits => some bits
  | byte :: rest, bits =>
    if byte = 0xff then (BitVec.checkedAdd 8 bits 8).bind (checkedPrefixLen rest)
    else BitVec.checkedAdd 8 bits (leadingOnes byte)

/-- The leading ones of a sequence of bytes. -/
def leadingRunOf (bytes : List (BitVec 8)) : ℕ :=
  ((bytes.flatMap BitVec.msbs).takeWhile id).length

theorem leadingOnes_eq (byte : BitVec 8) : leadingOnes byte = byte.leadingRun := by
  unfold leadingOnes BitVec.leadingRun BitVec.msbs
  rw [List.takeWhile_map, List.length_map]
  rfl

/-- A byte of ones adds eight to the run. -/
theorem leadingRunOf_ones (rest : List (BitVec 8)) :
    leadingRunOf (0xff :: rest) = 8 + leadingRunOf rest := by
  have hones : (0xff : BitVec 8).msbs = List.replicate 8 true := by decide
  unfold leadingRunOf
  rw [List.flatMap_cons, hones, List.takeWhile_append_of_pos (by simp), List.length_append,
    List.length_replicate]

/-- Any other byte ends the run. -/
theorem leadingRunOf_of_ne {byte : BitVec 8} (h : byte ≠ 0xff) (rest : List (BitVec 8)) :
    leadingRunOf (byte :: rest) = leadingOnes byte := by
  have hshort : ¬ (byte.msbs.takeWhile id).length = byte.msbs.length := by
    intro hfull
    apply h
    -- all eight bits would be ones
    have hrun : byte.leadingRun = 8 := by
      rw [BitVec.leadingRun, hfull, BitVec.length_msbs]
    apply BitVec.eq_of_getMsbD_eq
    intro i hi
    rw [byte.getMsbD_of_lt_leadingRun (by omega)]
    revert i
    decide
  unfold leadingRunOf
  rw [List.flatMap_cons, List.takeWhile_append, if_neg hshort, leadingOnes_eq]
  rfl

theorem leadingOnes_le (byte : BitVec 8) : leadingOnes byte ≤ 8 := by
  rw [leadingOnes_eq]
  exact byte.leadingRun_le

/-- The loop counts the leading ones, as long as the accumulator has room for all bytes. -/
theorem toNat_prefixLenOf (bytes : List (BitVec 8)) {bits : UInt8}
    (hroom : bits.toNat + 8 * bytes.length < 256) :
    (prefixLenOf bytes bits).toNat = bits.toNat + leadingRunOf bytes := by
  induction bytes generalizing bits with
  | nil => rfl
  | cons byte rest ih =>
    rw [List.length_cons] at hroom
    unfold prefixLenOf
    split_ifs with hones
    · have hadd : (bits + 8).toNat = bits.toNat + 8 := by
        rw [UInt8.toNat_add]
        exact Nat.mod_eq_of_lt (by show bits.toNat + 8 < 256; omega)
      rw [ih (by omega), hadd, hones, leadingRunOf_ones]
      omega
    · have hle := leadingOnes_le byte
      have hcast : (UInt8.ofNat (leadingOnes byte)).toNat = leadingOnes byte :=
        UInt8.toNat_ofNat_of_lt' (by show leadingOnes byte < 256; omega)
      rw [leadingRunOf_of_ne hones, UInt8.toNat_add, hcast]
      exact Nat.mod_eq_of_lt (by omega)

/-- No addition of the loop overflows. -/
theorem checkedPrefixLen_eq (bytes : List (BitVec 8)) {bits : ℕ}
    (hroom : bits + 8 * bytes.length < 256) :
    checkedPrefixLen bytes bits = some (bits + leadingRunOf bytes) := by
  induction bytes generalizing bits with
  | nil => rfl
  | cons byte rest ih =>
    rw [List.length_cons] at hroom
    unfold checkedPrefixLen BitVec.checkedAdd
    split_ifs with hones hlt hlt
    · rw [Option.bind_some, ih (by omega), hones, leadingRunOf_ones, Nat.add_assoc]
    · omega
    · rw [leadingRunOf_of_ne hones]
    · have hle := leadingOnes_le byte
      omega

/-- The octets of an address are its bits, eight at a time. -/
theorem flatMap_octets (ip : BitVec 128) : (octets ip).flatMap BitVec.msbs = ip.msbs := by
  have hbits : ∀ i ∈ List.range 16, (ip.extractLsb' (8 * (15 - i)) 8).msbs =
      ((List.range 8).map fun j => 8 * i + j).map ip.getMsbD := by
    intro i hi
    rw [List.mem_range] at hi
    unfold BitVec.msbs
    rw [List.map_map]
    apply List.map_congr_left
    intro j hj
    rw [List.mem_range] at hj
    have hindex : 128 - (8 * (15 - i) + 8 - j) = 8 * i + j := by omega
    have hin : 8 * (15 - i) + 8 - j ≤ 128 := by omega
    simp [BitVec.getMsbD_extractLsb', hj, hindex, hin]
  have hrange : ((List.range 16).flatMap fun i => (List.range 8).map fun j => 8 * i + j) =
      List.range 128 := by
    decide
  calc (octets ip).flatMap BitVec.msbs
      = (List.range 16).flatMap fun i => (ip.extractLsb' (8 * (15 - i)) 8).msbs := by
        rw [octets, List.flatMap_map]
    _ = (List.range 16).flatMap fun i => ((List.range 8).map fun j => 8 * i + j).map ip.getMsbD :=
        List.flatMap_congr hbits
    _ = ((List.range 16).flatMap fun i => (List.range 8).map fun j => 8 * i + j).map
          ip.getMsbD := by
        rw [List.map_flatMap]
    _ = ip.msbs := by rw [hrange, BitVec.msbs]

theorem leadingRunOf_octets (mask : BitVec 128) : leadingRunOf (octets mask) = mask.leadingRun := by
  rw [leadingRunOf, flatMap_octets, BitVec.leadingRun]

theorem length_octets (ip : BitVec 128) : (octets ip).length = 16 := by
  simp [octets]

/-- **The prefix length of a netmask** is the number of its leading ones. -/
theorem toNat_ipv6PrefixLen (mask : BitVec 128) :
    (ipv6PrefixLen mask).toNat = mask.leadingRun := by
  unfold ipv6PrefixLen
  rw [toNat_prefixLenOf _ (by rw [length_octets]; decide), leadingRunOf_octets]
  exact Nat.zero_add _

/-! ### The rows of the interface table -/

/-- The IPv4 netmask of a row. -/
def InterfaceAddress.maskV4 (ifa : InterfaceAddress) : BitVec 32 :=
  (ifa.netmask.bind SockAddr.asV4).getD 0xFFFFFF00

/-- The IPv6 netmask of a row: without one, the first half of the address counts. -/
def InterfaceAddress.maskV6 (ifa : InterfaceAddress) : BitVec 128 :=
  ((ifa.netmask.bind SockAddr.asV6).map Prod.fst).getD (BitVec.leadingMask 128 64)

/-- Looking for a value goes on from what has been found. -/
theorem or_findSome?_cons {α β : Type} (found : Option β) (f : α → Option β) (a : α)
    (l : List α) : found.or ((a :: l).findSome? f) = (found.or (f a)).or (l.findSome? f) := by
  rw [List.findSome?_cons, Option.or_assoc]
  cases f a <;> rfl

/-- The loop takes the first usable row of each family. -/
theorem ifaceAddrsLoop_eq (ifname : String) (ifindex : UInt32) (addrs : List InterfaceAddress)
    (foundV4 : Option IfaceV4) (foundV6 : Option IfaceV6) :
    ifaceAddrsLoop ifname ifindex addrs foundV4 foundV6 =
      (foundV4.or ((addrs.filter fun ifa => ifa.interfaceName = ifname).findSome? fun ifa =>
          ifa.ifaceV4),
        foundV6.or ((addrs.filter fun ifa => ifa.interfaceName = ifname).findSome? fun ifa =>
          ifa.ifaceV6 ifindex)) := by
  induction addrs generalizing foundV4 foundV6 with
  | nil => simp [ifaceAddrsLoop]
  | cons ifa addrs ih =>
    unfold ifaceAddrsLoop
    by_cases hname : ifa.interfaceName = ifname
    · rw [if_neg (not_not.2 hname), List.filter_cons_of_pos (by simpa using hname),
        or_findSome?_cons, or_findSome?_cons]
      dsimp only
      split_ifs with hboth
      · -- both families are found: the rows that follow do not count
        obtain ⟨hv4, hv6⟩ := Bool.and_eq_true_iff.1 hboth
        rw [Option.or_of_isSome hv4, Option.or_of_isSome hv6]
      · exact ih _ _
    · rw [if_pos hname, ih, List.filter_cons_of_neg (by simpa using hname)]

section Rows

variable {ε : Type} {os : Os ε} {name : String} {ifindex : UInt32} {v4 : Option IfaceV4}
  {v6 : Option IfaceV6}

/-- What is found for an interface stems from a row of the interface. -/
theorem exists_row_of_findSome? {β : Type} {rows : List InterfaceAddress}
    {f : InterfaceAddress → Option β} {v : β}
    (h : (rows.filter fun ifa => ifa.interfaceName = name).findSome? f = some v) :
    ∃ ifa ∈ rows, ifa.interfaceName = name ∧ f ifa = some v := by
  obtain ⟨ifa, hmem, hifa⟩ := List.exists_of_findSome?_eq_some h
  obtain ⟨hrow, hname⟩ := List.mem_filter.1 hmem
  exact ⟨ifa, hrow, of_decide_eq_true hname, hifa⟩

/-- Where the addresses of an interface come from. -/
theorem ifaceAddrs_ok (h : ifaceAddrs os name ifindex = .ok (v4, v6)) :
    ∃ rows, os.getifaddrs name = .ok rows ∧
      (∀ v, v4 = some v → ∃ ifa ∈ rows, ifa.interfaceName = name ∧ ifa.ifaceV4 = some v) ∧
      ∀ v, v6 = some v → ∃ ifa ∈ rows, ifa.interfaceName = name ∧
        ifa.ifaceV6 ifindex = some v := by
  obtain ⟨rows, hrows, h⟩ := Except.bind_eq_ok_iff.1 h
  have hloop := Except.ok.inj h
  rw [ifaceAddrsLoop_eq, Option.none_or, Option.none_or] at hloop
  obtain ⟨rfl, rfl⟩ := Prod.mk.inj hloop
  exact ⟨rows, Except.mapError_eq_ok_iff.1 hrows, fun _ => exists_row_of_findSome?,
    fun _ => exists_row_of_findSome?⟩

end Rows

section Row

variable {ifa : InterfaceAddress} {ifindex : UInt32}

/-- The IPv4 side of a row. -/
theorem ifaceV4_eq_some {v : IfaceV4} (h : ifa.ifaceV4 = some v) :
    ifa.address = some (.v4 v.addr) ∧ v.mask = ifa.maskV4 ∧ v.net = v.addr &&& ifa.maskV4 := by
  obtain ⟨ip, hip, rfl⟩ := Option.map_eq_some_iff.1 h
  obtain ⟨a, ha, hv⟩ := Option.bind_eq_some_iff.1 hip
  cases a with
  | v4 ip' =>
    cases hv
    exact ⟨ha, rfl, rfl⟩
  | v6 _ _ => cases hv
  | other => cases hv

/-- The IPv6 side of a row: a link-local address, and a prefix as long as the run of ones with which
the netmask starts. -/
theorem ifaceV6_eq_some {v : IfaceV6} (h : ifa.ifaceV6 ifindex = some v) :
    (∃ scopeId, ifa.address = some (.v6 v.addr scopeId)) ∧ isUnicastLinkLocal (.v6 v.addr) = true ∧
      v.net = ipv6Net v.addr v.prefixLen ∧
      (ifa.maskV6.Contiguous → BitVec.leadingMask 128 v.prefixLen.toNat = ifa.maskV6) := by
  obtain ⟨⟨ip, scopeId⟩, hip, h⟩ := Option.bind_eq_some_iff.1 h
  obtain ⟨a, ha, hv⟩ := Option.bind_eq_some_iff.1 hip
  dsimp only at h
  split at h
  · cases h
  rename_i hlocal
  cases h
  have haddr : a = .v6 ip scopeId := by
    cases a <;> cases hv
    rfl
  refine ⟨⟨scopeId, haddr ▸ ha⟩, by simpa using hlocal, rfl, ?_⟩
  unfold InterfaceAddress.maskV6
  intro hcont
  cases hmask : ifa.netmask.bind SockAddr.asV6 with
  | none => rfl
  | some m =>
    rw [hmask] at hcont
    show BitVec.leadingMask 128 (ipv6PrefixLen m.1).toNat = m.1
    rw [toNat_ipv6PrefixLen]
    exact (BitVec.eq_leadingMask_of_contiguous hcont).symm

end Row

/-- **Subnet membership is mask membership.**  The prefix length of a netmask is the number of its
leading ones; it is at most 128 and is computed without overflow.  An interface found in the table
has the addresses of some of its rows, and contains exactly the addresses that agree with its own
under the netmask of the row: for IPv4 whatever the netmask is, for IPv6 if it is contiguous. -/
theorem contains_iff_netmask {ε : Type} {os : Os ε} {name : String} {ifindex : UInt32}
    {v4 : Option IfaceV4} {v6 : Option IfaceV6}
    (h : ifaceAddrs os name ifindex = .ok (v4, v6)) :
    (∀ mask : BitVec 128, (ipv6PrefixLen mask).toNat ≤ 128 ∧
      (∀ k < (ipv6PrefixLen mask).toNat, mask.getMsbD k = true) ∧
      mask.getMsbD (ipv6PrefixLen mask).toNat = false ∧
      checkedPrefixLen (octets mask) 0 = some (ipv6PrefixLen mask).toNat) ∧
    ∃ rows, os.getifaddrs name = .ok rows ∧
      (∀ v, v6 = some v → ∃ ifa ∈ rows, ifa.interfaceName = name ∧
        (∃ scopeId, ifa.address = some (.v6 v.addr scopeId)) ∧
        isUnicastLinkLocal (.v6 v.addr) = true ∧
        (ifa.maskV6.Contiguous → ∀ ip,
          Iface.contains ⟨name, ifindex, v4, v6⟩ (.v6 ip) = true ↔
            ip &&& ifa.maskV6 = v.addr &&& ifa.maskV6)) ∧
      ∀ v, v4 = some v → ∃ ifa ∈ rows, ifa.interfaceName = name ∧
        ifa.address = some (.v4 v.addr) ∧
        ∀ ip, Iface.contains ⟨name, ifindex, v4, v6⟩ (.v4 ip) = true ↔
          ip &&& ifa.maskV4 = v.addr &&& ifa.maskV4 := by
  refine ⟨?_, ?_⟩
  · intro mask
    have hchecked : checkedPrefixLen (octets mask) 0 = some (0 + leadingRunOf (octets mask)) :=
      checkedPrefixLen_eq _ (by rw [length_octets]; decide)
    rw [leadingRunOf_octets, Nat.zero_add] at hchecked
    rw [toNat_ipv6PrefixLen]
    exact ⟨mask.leadingRun_le, fun k => mask.getMsbD_of_lt_leadingRun, mask.getMsbD_leadingRun,
      hchecked⟩
  · obtain ⟨rows, hrows, hv4, hv6⟩ := ifaceAddrs_ok h
    refine ⟨rows, hrows, ?_, ?_⟩
    · rintro v rfl
      obtain ⟨ifa, hrow, hname, hifa⟩ := hv6 v rfl
      obtain ⟨haddr, hlocal, hnet, hmask⟩ := ifaceV6_eq_some hifa
      refine ⟨ifa, hrow, hname, haddr, hlocal, ?_⟩
      intro hcont ip
      rw [← hmask hcont, ← ipv6Net_eq, ← ipv6Net_eq, ← hnet]
      exact beq_iff_eq
    · rintro v rfl
      obtain ⟨ifa, hrow, hname, hifa⟩ := hv4 v rfl
      obtain ⟨haddr, hmask, hnet⟩ := ifaceV4_eq_some hifa
      refine ⟨ifa, hrow, hname, haddr, ?_⟩
      intro ip
      rw [← hnet, ← hmask]
      exact beq_iff_eq

/-- An operating system with one interface of the address `fe80::1/10`. -/
def loneOs : Os Unit where
  ifNametoindex _ := .ok 2
  getifaddrs name := .ok [⟨name, some (.v6 0xfe800000000000000000000000000001 0),
    some (.v6 0xffc00000000000000000000000000000 0)⟩]
  recvSocket _ := .ok ()
  openV4 _ _ := .ok ()
  openV6 _ _ _ _ := .ok ()
  registerRecv _ := .ok ()

/-- The interface has an IPv6 side, and its only row decides what it contains. -/
theorem contains_iff_netmask_lone :
    ∃ v4 v6, ifaceAddrs loneOs "eth0" 2 = .ok (v4, v6) ∧ v6.isSome = true ∧
      ∀ v, v6 = some v → ∀ ip, Iface.contains ⟨"eth0", 2, v4, v6⟩ (.v6 ip) = true ↔
        ip &&& 0xffc00000000000000000000000000000 =
          v.addr &&& 0xffc00000000000000000000000000000 := by
  refine ⟨_, _, rfl, rfl, ?_⟩
  obtain ⟨-, rows, hrows, hv6, -⟩ := contains_iff_netmask
    (rfl : ifaceAddrs loneOs "eth0" 2 = .ok (_, _))
  intro v hv ip
  obtain ⟨ifa, hifa, -, -, -, hiff⟩ := hv6 v hv
  cases hrows
  obtain rfl := List.mem_singleton.1 hifa
  have hten : (0xffc00000000000000000000000000000 : BitVec 128) = BitVec.leadingMask 128 10 := by
    decide
  refine hiff ?_ ip
  show (0xffc00000000000000000000000000000 : BitVec 128).Contiguous
  rw [hten]
  exact BitVec.contiguous_leadingMask 128 10

end Nmdns
