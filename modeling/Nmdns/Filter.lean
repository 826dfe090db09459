import Mathlib.Data.List.TakeWhile
import Nmdns.Config
import Nmdns.Lib.Prefix

/-!
# The source filters

`src/config.rs`: what an entry `A/p` of `blacklist` or `whitelist` stands for.

* `Cidr std s addr p`: the text `s` reads as the address `addr`, a slash and the number `p`;
* `InPrefix addr p ip`: `ip` is of the family of `addr` and has the same first `p` bits;
* `parseSubnet_of_cidr`: the result of `parse_subnet` on such a text, in every case;
* `matches_subnetOf`: the stored mask and the prefix that is recomputed at match time mean the same;
* `cidr_filter`: the filters of an accepted configuration, in terms of its texts.
-/

namespace Nmdns

/-- The number of bits of an address. -/
def IpAddr.width : IpAddr → ℕ
  | .v4 _ => 32
  | .v6 _ => 128

/-- `ip` is of the family of `addr` and has the same first `p` bits. -/
def InPrefix : IpAddr → ℕ → IpAddr → Prop
  | .v4 addr, p, .v4 ip => BitVec.SamePrefix p ip addr
  | .v6 addr, p, .v6 ip => BitVec.SamePrefix p ip addr
  | _, _, _ => False

/-- The text is an address, for the parser of its family. -/
def StdParse.Reads (std : StdParse) (s : String) : IpAddr → Prop
  | .v4 addr => std.ipv4 s = some addr
  | .v6 addr => std.ipv6 s = some addr

/-- What the address parsers of the standard library are documented to accept: an IPv6 address is
written with colons, an IPv4 address without. -/
structure StdParse.Lawful (std : StdParse) : Prop where
  ipv4_colon : ∀ s addr, std.ipv4 s = some addr → s.toList.contains ':' = false
  ipv6_colon : ∀ s addr, std.ipv6 s = some addr → s.toList.contains ':' = true

/-- The text is `A/p`, the address and the number around its first slash. -/
def Cidr (std : StdParse) (s : String) (addr : IpAddr) (p : UInt32) : Prop :=
  ∃ addrS maskS, s = addrS ++ "/" ++ maskS ∧ '/' ∉ addrS.toList ∧ std.Reads addrS addr ∧
    std.u32 maskS = some p

/-- The subnet that `parse_subnet` makes of an address and a prefix length. -/
def subnetOf : IpAddr → UInt32 → Subnet
  | .v4 addr, p => .v4 addr p.toUInt8 (ipv4Mask p) (addr &&& ipv4Mask p)
  | .v6 addr, p => .v6 addr p.toUInt8 (ipv6Net addr p.toUInt8)

/-- The complaint about a prefix that is too long. -/
def tooLong : IpAddr → String
  | .v4 _ => "mask > 32"
  | .v6 _ => "mask > 128"

/-! ### Reading an entry -/

theorem splitOnce_eq_some_iff {c : Char} {s a b : String} :
    splitOnce c s = some (a, b) ↔ s.toList = a.toList ++ c :: b.toList ∧ c ∉ a.toList := by
  unfold splitOnce
  rw [List.span_eq_takeWhile_dropWhile]
  constructor
  · intro h
    split at h
    · cases h
    · rename_i before d after heq
      obtain ⟨htake, hdrop⟩ := Prod.mk.inj heq
      obtain ⟨rfl, rfl⟩ := Prod.mk.inj (Option.some.inj h)
      have hd : d = c := by
        have hhead := List.head?_dropWhile_not (fun d => d != c) s.toList
        rw [hdrop] at hhead
        simpa using hhead
      have hsplit := List.takeWhile_append_dropWhile (p := fun d => d != c) (l := s.toList)
      rw [htake, hdrop, hd] at hsplit
      rw [String.toList_ofList, String.toList_ofList, hsplit]
      refine ⟨rfl, fun hmem => ?_⟩
      rw [← htake] at hmem
      simpa using List.mem_takeWhile_imp hmem
  · rintro ⟨hs, hc⟩
    have hpos : ∀ d ∈ a.toList, (d != c) = true := fun d hd =>
      bne_iff_ne.2 fun heq => hc (heq ▸ hd)
    rw [hs, List.takeWhile_append_of_pos hpos, List.dropWhile_append_of_pos hpos]
    simp

section Parse

variable {ε : Type} {std : StdParse} {s : String}

/-- **What `parse_subnet` makes of `A/p`**: the subnet, unless the prefix is longer than the
address. -/
theorem parseSubnet_of_cidr (hstd : std.Lawful) {addr : IpAddr} {p : UInt32}
    (h : Cidr std s addr p) :
    (parseSubnet std s : Except (ConfigError ε) Subnet) =
      if addr.width < p.toNat then .error (.badSubnet s (tooLong addr))
      else .ok (subnetOf addr p) := by
  obtain ⟨addrS, maskS, hs, hslash, haddr, hmask⟩ := h
  have hsplit : splitOnce '/' s = some (addrS, maskS) := by
    rw [splitOnce_eq_some_iff, hs]
    exact ⟨by simp, hslash⟩
  unfold parseSubnet
  rw [hsplit]
  dsimp only
  rw [hmask]
  dsimp only
  cases addr with
  | v4 a =>
    have haddr' : std.ipv4 addrS = some a := haddr
    rw [hstd.ipv4_colon addrS a haddr', if_neg Bool.false_ne_true, haddr']
    rfl
  | v6 a =>
    have haddr' : std.ipv6 addrS = some a := haddr
    rw [hstd.ipv6_colon addrS a haddr', if_pos rfl, haddr']
    rfl

/-- Whatever `parse_subnet` accepts is of this form. -/
theorem exists_cidr_of_parseSubnet {sub : Subnet}
    (h : (parseSubnet std s : Except (ConfigError ε) Subnet) = .ok sub) :
    ∃ addr p, Cidr std s addr p := by
  unfold parseSubnet at h
  split at h
  · cases h
  · rename_i addrS maskS hsplit
    obtain ⟨hs, hslash⟩ := splitOnce_eq_some_iff.1 hsplit
    have hs' : s = addrS ++ "/" ++ maskS := by
      rw [← String.toList_inj, hs]
      simp
    split at h
    · cases h
    · rename_i p hmask
      split at h
      · split at h
        · cases h
        · rename_i a haddr
          exact ⟨.v6 a, p, addrS, maskS, hs', hslash, haddr, hmask⟩
      · split at h
        · cases h
        · rename_i a haddr
          exact ⟨.v4 a, p, addrS, maskS, hs', hslash, haddr, hmask⟩

end Parse

/-! ### Matching -/

theorem ipv4Mask_eq (p : UInt32) : ipv4Mask p = BitVec.leadingMask 32 p.toNat := by
  unfold ipv4Mask BitVec.leadingMask
  simp only [← UInt32.toNat_inj, UInt32.toNat_zero]

theorem ipv6Net_eq (addr : BitVec 128) (p : UInt8) :
    ipv6Net addr p = addr &&& BitVec.leadingMask 128 p.toNat := by
  unfold ipv6Net BitVec.leadingMask
  simp only [← UInt8.toNat_inj, UInt8.toNat_zero]

/-- The prefix length survives the cast to eight bits. -/
theorem toUInt8_toNat {p : UInt32} (hp : p.toNat ≤ 128) : p.toUInt8.toNat = p.toNat := by
  rw [UInt32.toNat_toUInt8]
  exact Nat.mod_eq_of_lt (by omega)

/-- **A subnet matches the addresses with its prefix**; host bits of its own address do not
matter. -/
theorem matches_subnetOf {addr : IpAddr} {p : UInt32} (hp : p.toNat ≤ addr.width) (ip : IpAddr) :
    (subnetOf addr p).matches ip = true ↔ InPrefix addr p.toNat ip := by
  cases addr with
  | v4 a =>
    cases ip with
    | v4 b =>
      show (b &&& ipv4Mask p == a &&& ipv4Mask p) = true ↔ _
      rw [beq_iff_eq, ipv4Mask_eq]
      exact BitVec.and_leadingMask_eq_iff hp b a
    | v6 b => exact iff_of_false Bool.false_ne_true id
  | v6 a =>
    cases ip with
    | v4 b => exact iff_of_false Bool.false_ne_true id
    | v6 b =>
      show (ipv6Net b p.toUInt8 == ipv6Net a p.toUInt8) = true ↔ _
      rw [beq_iff_eq, ipv6Net_eq, ipv6Net_eq, toUInt8_toNat hp]
      exact BitVec.and_leadingMask_eq_iff hp b a

/-- The masks of a subnet come from shifts within the word: the one that was stored, or the one that
`ipv6_net` computes for it at match time. -/
def Subnet.ShiftsInRange : Subnet → Prop
  | .v4 _ prefixLen mask _ => BitVec.checkedMask 32 prefixLen.toNat = some mask
  | .v6 _ prefixLen _ => ∃ mask, BitVec.checkedMask 128 prefixLen.toNat = some mask ∧
      ∀ ip, ipv6Net ip prefixLen = ip &&& mask

theorem shiftsInRange_subnetOf {addr : IpAddr} {p : UInt32} (hp : p.toNat ≤ addr.width) :
    (subnetOf addr p).ShiftsInRange := by
  cases addr with
  | v4 a =>
    have hp' : p.toNat ≤ 32 := hp
    show BitVec.checkedMask 32 p.toUInt8.toNat = some (ipv4Mask p)
    rw [toUInt8_toNat (by omega), BitVec.checkedMask_eq hp', ipv4Mask_eq]
  | v6 a =>
    have hp' : p.toUInt8.toNat ≤ 128 := (toUInt8_toNat hp).trans_le hp
    exact ⟨_, BitVec.checkedMask_eq hp', fun ip => ipv6Net_eq ip _⟩

/-! ### The filters -/

/-- `ip` lies in the prefix that the text stands for. -/
def Covers (std : StdParse) (s : String) (ip : IpAddr) : Prop :=
  ∃ addr p, Cidr std s addr p ∧ InPrefix addr p.toNat ip

section Filter

variable {ε : Type} {std : StdParse}

/-- An accepted entry, in terms of its text. -/
theorem parseSubnet_ok (hstd : std.Lawful) {s : String} {sub : Subnet}
    (h : (parseSubnet std s : Except (ConfigError ε) Subnet) = .ok sub) {addr : IpAddr}
    {p : UInt32} (hc : Cidr std s addr p) : p.toNat ≤ addr.width ∧ sub = subnetOf addr p := by
  rw [parseSubnet_of_cidr hstd hc] at h
  split_ifs at h with hlong
  exact ⟨Nat.le_of_not_lt hlong, (Except.ok.inj h).symm⟩

theorem matches_iff_covers (hstd : std.Lawful) {s : String} {sub : Subnet}
    (h : (parseSubnet std s : Except (ConfigError ε) Subnet) = .ok sub) (ip : IpAddr) :
    sub.matches ip = true ↔ Covers std s ip := by
  constructor
  · intro hm
    obtain ⟨addr, p, hc⟩ := exists_cidr_of_parseSubnet h
    obtain ⟨hp, rfl⟩ := parseSubnet_ok hstd h hc
    exact ⟨addr, p, hc, (matches_subnetOf hp ip).1 hm⟩
  · rintro ⟨addr, p, hc, hin⟩
    obtain ⟨hp, rfl⟩ := parseSubnet_ok hstd h hc
    exact (matches_subnetOf hp ip).2 hin

/-- A list of entries matches what one of its texts covers. -/
theorem any_matches_iff (hstd : std.Lawful) {texts : List String} {subs : List Subnet}
    (h : List.Forall₂ (fun s sub => parseSubnet std s = (.ok sub : Except (ConfigError ε) Subnet))
      texts subs) (ip : IpAddr) :
    (subs.any fun sub => sub.matches ip) = true ↔ ∃ s ∈ texts, Covers std s ip := by
  induction h with
  | nil => simp
  | cons hs _ ih =>
    rw [List.any_cons, Bool.or_eq_true, ih, matches_iff_covers hstd hs]
    simp

end Filter

/-- **The source filters.**  An entry `A/p` that is accepted matches exactly the addresses of the
family of `A` with the same first `p` bits, and its masks come from shifts within the word; it is
rejected exactly when `p` exceeds the width of the address.  So an accepted configuration admits a
source if it lies in a prefix of the whitelist, or, with an empty whitelist, in no prefix of the
blacklist. -/
theorem cidr_filter {std : StdParse} (hstd : std.Lawful) (ε : Type) :
    (∀ (s : String) (sub : Subnet), parseSubnet std s = (.ok sub : Except (ConfigError ε) Subnet) →
      ∃ addr p, Cidr std s addr p ∧ sub.ShiftsInRange ∧
        ∀ ip, sub.matches ip = true ↔ InPrefix addr p.toNat ip) ∧
    (∀ (s : String) (addr : IpAddr) (p : UInt32), Cidr std s addr p →
      (parseSubnet std s = (.error (.badSubnet s (tooLong addr)) : Except (ConfigError ε) Subnet) ↔
        addr.width < p.toNat) ∧
      ((∃ sub, parseSubnet std s = (.ok sub : Except (ConfigError ε) Subnet)) ↔
        p.toNat ≤ addr.width)) ∧
    ∀ (toml : String → Except ε RawConfig) (body : String) (cfg : Config),
      Config.parse std toml body = .ok cfg → ∃ raw, toml body = .ok raw ∧
        ∀ ip, cfg.allowSource ip = true ↔ (∃ s ∈ raw.whitelist, Covers std s ip) ∨
          (raw.whitelist = [] ∧ ¬ ∃ s ∈ raw.blacklist, Covers std s ip) := by
  refine ⟨fun s sub h => ?_, fun s addr p hc => ?_, fun toml body cfg h => ?_⟩
  · obtain ⟨addr, p, hc⟩ := exists_cidr_of_parseSubnet h
    obtain ⟨hp, rfl⟩ := parseSubnet_ok hstd h hc
    exact ⟨addr, p, hc, shiftsInRange_subnetOf hp, matches_subnetOf hp⟩
  · rw [parseSubnet_of_cidr hstd hc]
    by_cases hlong : addr.width < p.toNat
    · simp [hlong]
    · simp [hlong, Nat.le_of_not_lt hlong]
  · obtain ⟨raw, hraw, -, -, -, hblack, hwhite, -⟩ := parse_inv h
    refine ⟨raw, hraw, fun ip => ?_⟩
    have hnil : cfg.whitelist = [] ↔ raw.whitelist = [] := by
      rw [← List.length_eq_zero_iff, ← hwhite.length_eq, List.length_eq_zero_iff]
    unfold Resolved.allowSource
    by_cases hw : raw.whitelist = []
    · rw [if_neg fun hne => hne (hnil.2 hw), Bool.not_eq_true', ← Bool.not_eq_true,
        any_matches_iff hstd hblack]
      simp [hw]
    · rw [if_pos fun hne => hw (hnil.1 hne), any_matches_iff hstd hwhite]
      simp [hw]

/-- The standard library on the address `10.1.2.3` and two numbers. -/
def tenParse : StdParse where
  u32 s := if s = "8" then some 8 else if s = "33" then some 33 else none
  ipv4 s := if s = "10.1.2.3" then some 0x0A010203 else none
  ipv6 _ := none

theorem tenParse_lawful : tenParse.Lawful where
  ipv4_colon := by
    intro s addr h
    simp only [tenParse] at h
    split_ifs at h with hs
    rw [hs]
    decide
  ipv6_colon := by
    intro s addr h
    cases h

theorem cidr_filter_ten :
    (∃ sub, parseSubnet tenParse "10.1.2.3/8" = (.ok sub : Except (ConfigError Unit) Subnet)) ∧
      parseSubnet tenParse "10.1.2.3/33" =
        (.error (.badSubnet "10.1.2.3/33" "mask > 32") : Except (ConfigError Unit) Subnet) := by
  obtain ⟨-, haccept, -⟩ := cidr_filter tenParse_lawful Unit
  have h8 : Cidr tenParse "10.1.2.3/8" (.v4 0x0A010203) 8 :=
    ⟨"10.1.2.3", "8", by decide, by decide, rfl, by decide⟩
  have h33 : Cidr tenParse "10.1.2.3/33" (.v4 0x0A010203) 33 :=
    ⟨"10.1.2.3", "33", by decide, by decide, rfl, by decide⟩
  exact ⟨(haccept _ _ _ h8).2.2 (by decide), (haccept _ _ _ h33).1.2 (by decide)⟩

end Nmdns
