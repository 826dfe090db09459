import Nmdns.Services

/-!
# The configuration file

`src/config.rs`: from the deserialized TOML document to the validated configuration.

* `parseSubnet`: an entry of `blacklist` or `whitelist`;
* `RawConfig`, `Config`, `Config.parse`;
* `parse_ok`: the lifetime cap that is let through fits in 32 bits and is not zero.

The TOML library and the number and address parsers of the standard library are parameters.
-/

namespace Nmdns

/-- `MAX_CACHE_TTL_SECS`: `u32::MAX`. -/
def maxCacheTtlSecs : UInt64 := 0xFFFFFFFF

/-- `ConfigError`, without the error of reading the file. -/
inductive ConfigError (ε : Type)
  | parse (e : ε)
  | badSubnet (subnet reason : String)
  | noInterfaces
  | blackAndWhite
  | badCacheMaxTtl (value max : UInt64)
  deriving DecidableEq, Repr

/-- The parsers of the standard library that `parse_subnet` calls. -/
structure StdParse where
  u32 : String → Option UInt32
  ipv4 : String → Option (BitVec 32)
  ipv6 : String → Option (BitVec 128)

/-- `str::split_once`: around the first occurrence of `c`. -/
def splitOnce (c : Char) (s : String) : Option (String × String) :=
  match s.toList.span fun d => d != c with
  | (_, []) => none
  | (before, _ :: after) => some (String.ofList before, String.ofList after)

/-- The network mask of `bits` leading ones. -/
def ipv4Mask (bits : UInt32) : BitVec 32 :=
  if bits = 0 then 0 else BitVec.allOnes 32 <<< (32 - bits.toNat)

section Parse

variable {ε : Type} (std : StdParse)

/-- `parse_subnet`. -/
def parseSubnet (s : String) : Except (ConfigError ε) Subnet :=
  match splitOnce '/' s with
  | none => .error (.badSubnet s "missing /")
  | some (addrS, maskS) =>
    match std.u32 maskS with
    | none => .error (.badSubnet s "bad mask")
    | some bits =>
      if addrS.toList.contains ':' then
        match std.ipv6 addrS with
        | none => .error (.badSubnet s "bad IPv6 address")
        | some addr =>
          if 128 < bits then .error (.badSubnet s "mask > 128")
          else .ok (.v6 addr bits.toUInt8 (ipv6Net addr bits.toUInt8))
      else
        match std.ipv4 addrS with
        | none => .error (.badSubnet s "bad IPv4 address")
        | some addr =>
          if 32 < bits then .error (.badSubnet s "mask > 32")
          else .ok (.v4 addr bits.toUInt8 (ipv4Mask bits) (addr &&& ipv4Mask bits))

/-- The deserialized document.  The keys of the browser and the sweep period are left out. -/
structure RawConfig where
  interfaces : List String
  repeats : Bool
  answerFromCache : Bool
  blacklist : List String
  whitelist : List String
  hostname : Option String
  maxCacheEntries : ℕ
  cacheMaxTtlSecs : Option UInt64
  services : List ServiceConfig
  deriving DecidableEq, Repr

/-- The validated configuration: what the running daemon reads, and what it is set up from. -/
structure Config extends Resolved where
  interfaces : List String
  hostname : Option String
  services : List ServiceConfig
  deriving Repr

/-- The validation of `cache_max_ttl_secs`: zero means no cap. -/
def validateMaxTtl : Option UInt64 → Except (ConfigError ε) (Option UInt64)
  | none => .ok none
  | some ttl =>
    if ttl = 0 then .ok none
    else if maxCacheTtlSecs < ttl then .error (.badCacheMaxTtl ttl maxCacheTtlSecs)
    else .ok (some ttl)

/-- `Resolved::parse`. -/
def Config.parse (toml : String → Except ε RawConfig) (body : String) :
    Except (ConfigError ε) Config := do
  let raw ← (toml body).mapError .parse
  if raw.interfaces.isEmpty then .error .noInterfaces
  else if !raw.blacklist.isEmpty && !raw.whitelist.isEmpty then .error .blackAndWhite
  else do
    let blacklist ← raw.blacklist.mapM (parseSubnet std)
    let whitelist ← raw.whitelist.mapM (parseSubnet std)
    let cacheMaxTtlSecs ← validateMaxTtl raw.cacheMaxTtlSecs
    return {
      repeats := raw.repeats
      answerFromCache := raw.answerFromCache
      maxCacheEntries := raw.maxCacheEntries
      cacheMaxTtlSecs := cacheMaxTtlSecs
      blacklist := blacklist
      whitelist := whitelist
      interfaces := raw.interfaces
      hostname := raw.hostname
      services := raw.services }

end Parse

section ParseSpec

variable {ε : Type} {std : StdParse} {toml : String → Except ε RawConfig} {body : String}

theorem validateMaxTtl_ok {raw cap : Option UInt64}
    (h : (validateMaxTtl raw : Except (ConfigError ε) _) = .ok cap) : CapOk cap := by
  cases raw with
  | none =>
    cases h
    exact capOk_none
  | some ttl =>
    simp only [validateMaxTtl] at h
    split_ifs at h with hzero hmax
    · cases h
      exact capOk_none
    · cases h
      intro cap hcap
      cases hcap
      rw [← UInt64.toNat_inj] at hzero
      rw [UInt64.lt_iff_toNat_lt] at hmax
      have hval : maxCacheTtlSecs.toNat = 2 ^ 32 - 1 := rfl
      simp only [UInt64.toNat_zero] at hzero
      omega

/-- What a configuration that is accepted was made from. -/
theorem parse_inv {cfg : Config} (h : Config.parse std toml body = .ok cfg) :
    ∃ raw, toml body = .ok raw ∧ raw.interfaces ≠ [] ∧
      (raw.blacklist = [] ∨ raw.whitelist = []) ∧ cfg.interfaces = raw.interfaces ∧
      List.Forall₂ (fun s sub => parseSubnet std s = (.ok sub : Except (ConfigError ε) Subnet))
        raw.blacklist cfg.blacklist ∧
      List.Forall₂ (fun s sub => parseSubnet std s = (.ok sub : Except (ConfigError ε) Subnet))
        raw.whitelist cfg.whitelist ∧
      validateMaxTtl raw.cacheMaxTtlSecs =
        (.ok cfg.cacheMaxTtlSecs : Except (ConfigError ε) (Option UInt64)) := by
  obtain ⟨raw, hraw, h⟩ := Except.bind_eq_ok_iff.1 h
  split_ifs at h with hif hbw
  obtain ⟨blacklist, hblack, h⟩ := Except.bind_eq_ok_iff.1 h
  obtain ⟨whitelist, hwhite, h⟩ := Except.bind_eq_ok_iff.1 h
  obtain ⟨cap, hcap, h⟩ := Except.bind_eq_ok_iff.1 h
  cases h
  have hone : raw.blacklist = [] ∨ raw.whitelist = [] := by
    by_cases hb : raw.blacklist = []
    · exact Or.inl hb
    · exact Or.inr (by simpa [hb] using hbw)
  exact ⟨raw, Except.mapError_eq_ok_iff.1 hraw, fun hnil => hif (List.isEmpty_iff.2 hnil), hone,
    rfl, Except.mapM_eq_ok_iff.1 hblack, Except.mapM_eq_ok_iff.1 hwhite, hcap⟩

/-- **What the validation guarantees**: an interface, at most one of the filters, and a lifetime cap
that fits in 32 bits and is not zero. -/
theorem parse_ok {cfg : Config} (h : Config.parse std toml body = .ok cfg) :
    cfg.interfaces ≠ [] ∧ (cfg.blacklist = [] ∨ cfg.whitelist = []) ∧
      CapOk cfg.cacheMaxTtlSecs := by
  obtain ⟨raw, -, hif, hone, hifaces, hblack, hwhite, hcap⟩ := parse_inv h
  rw [hifaces]
  refine ⟨hif, hone.imp (fun hnil => ?_) (fun hnil => ?_), validateMaxTtl_ok hcap⟩
  · rw [hnil, List.forall₂_nil_left_iff] at hblack
    exact hblack
  · rw [hnil, List.forall₂_nil_left_iff] at hwhite
    exact hwhite

end ParseSpec

end Nmdns
