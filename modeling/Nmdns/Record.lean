import Nmdns.Lib.KeyedMap

/-!
# Resource records and their identity

The record types of `hickory-proto` as far as the daemon looks at them, and `RecordKey`
(`src/record_key.rs`), the identity under which the cache and the rate limiter store a record.

* `Name`: labels and the fully-qualified flag; equality ignores ASCII case in the labels and
  distinguishes a fully-qualified name from a relative one;
* `RData`: the five kinds of data the daemon inspects, and `other` for the rest;
* `Record`, `RecordKey`, `RecordKey.of`;
* `RecordKey.sibling`: same name, type and class, other data.

Equality of names, data and keys is not structural.  Each has a canonical form `fold`, and two
values are equal exactly when their canonical forms coincide (`Name.beq_iff`, `RData.beq_iff`,
`RecordKey.beq_iff`).
-/

namespace Nmdns

/-- A domain name: its labels from the left, and whether it is fully qualified. -/
structure Name where
  labels : List (List UInt8)
  isFqdn : Bool
  deriving DecidableEq, Repr

/-- ASCII lower case of one octet. -/
def lowerOctet (b : UInt8) : UInt8 := if 65 ≤ b ∧ b ≤ 90 then b + 32 else b

/-- A name with its labels in lower case. -/
def Name.fold (n : Name) : Name := { n with labels := n.labels.map (List.map lowerOctet) }

instance : BEq Name := ⟨fun m n => decide (m.fold = n.fold)⟩

/-- The record types the daemon asks for by name, and all others by their code. -/
inductive RecordType
  | a
  | aaaa
  | ptr
  | srv
  | txt
  | any
  | other (code : UInt16)
  deriving DecidableEq, Repr

/-- The DNS class of a record, without the cache-flush bit. -/
inductive DNSClass
  | in
  | ch
  | hs
  | none
  | any
  | opt (size : UInt16)
  | unknown (code : UInt16)
  deriving DecidableEq, Repr

/-- Record data.  `other` is any further variant of the library: its type, the names in it
(compared as names) and its remaining fields. -/
inductive RData
  | a (addr : BitVec 32)
  | aaaa (addr : BitVec 128)
  | ptr (target : Name)
  | srv (priority weight port : UInt16) (target : Name)
  | txt (strings : List (List UInt8))
  | other (rtype : RecordType) (names : List Name) (octets : List UInt8)
  deriving DecidableEq, Repr

/-- Record data with every name in it in lower case. -/
def RData.fold : RData → RData
  | .a addr => .a addr
  | .aaaa addr => .aaaa addr
  | .ptr target => .ptr target.fold
  | .srv priority weight port target => .srv priority weight port target.fold
  | .txt strings => .txt strings
  | .other rtype names octets => .other rtype (names.map Name.fold) octets

instance : BEq RData := ⟨fun d e => decide (d.fold = e.fold)⟩

/-- The type of a record is the type of its data. -/
def RData.recordType : RData → RecordType
  | .a _ => .a
  | .aaaa _ => .aaaa
  | .ptr _ => .ptr
  | .srv .. => .srv
  | .txt _ => .txt
  | .other rtype _ _ => rtype

/-- A resource record. -/
structure Record where
  name : Name
  dnsClass : DNSClass
  ttl : UInt32
  data : RData
  mdnsCacheFlush : Bool
  deriving DecidableEq, Repr

/-- `Record::record_type`. -/
def Record.recordType (r : Record) : RecordType := r.data.recordType

/-- `Record::from_rdata`: class IN, cache-flush bit clear. -/
def Record.fromRdata (name : Name) (ttl : UInt32) (data : RData) : Record :=
  ⟨name, .in, ttl, data, false⟩

/-- The identity of a record. -/
structure RecordKey where
  name : Name
  rtype : RecordType
  dnsClass : DNSClass
  rdata : RData
  deriving DecidableEq, Repr

/-- `RecordKey::of`. -/
def RecordKey.of (r : Record) : RecordKey := ⟨r.name, r.recordType, r.dnsClass, r.data⟩

instance : BEq RecordKey :=
  ⟨fun k l => k.name == l.name && k.rtype == l.rtype && k.dnsClass == l.dnsClass &&
    k.rdata == l.rdata⟩

/-- Records are equal up to their TTL and cache-flush bit (RFC 2136 equality). -/
instance : BEq Record :=
  ⟨fun r s => r.name == s.name && r.dnsClass == s.dnsClass && r.data == s.data⟩

/-- A key in canonical form. -/
def RecordKey.fold (k : RecordKey) : RecordKey := ⟨k.name.fold, k.rtype, k.dnsClass, k.rdata.fold⟩

/-- `k` and `l` have the same name, type and class, but different data. -/
def RecordKey.sibling (k l : RecordKey) : Bool :=
  k.name == l.name && k.rtype == l.rtype && k.dnsClass == l.dnsClass && k.rdata != l.rdata

/-- A cache-flush record with a positive TTL replaces the records of its name, type and class that
have other data (RFC 6762, section 10.2). -/
def Record.flushes (r : Record) (k : RecordKey) : Bool :=
  decide (0 < r.ttl) && r.mdnsCacheFlush && k.sibling (RecordKey.of r)

@[simp] theorem RecordKey.of_ttl (r : Record) (t : UInt32) :
    RecordKey.of { r with ttl := t } = RecordKey.of r := rfl

@[simp] theorem RecordKey.of_mdnsCacheFlush (r : Record) (b : Bool) :
    RecordKey.of { r with mdnsCacheFlush := b } = RecordKey.of r := rfl

/-! ### Equality through canonical forms -/

theorem Name.beq_iff {m n : Name} : (m == n) = true ↔ m.fold = n.fold := decide_eq_true_iff

theorem RData.beq_iff {d e : RData} : (d == e) = true ↔ d.fold = e.fold := decide_eq_true_iff

theorem RecordKey.beq_iff {k l : RecordKey} : (k == l) = true ↔ k.fold = l.fold := by
  show (k.name == l.name && k.rtype == l.rtype && k.dnsClass == l.dnsClass &&
    k.rdata == l.rdata) = true ↔ _
  simp only [Bool.and_eq_true, Name.beq_iff, RData.beq_iff, beq_iff_eq, RecordKey.fold,
    RecordKey.mk.injEq, and_assoc]

instance : EquivBEq Name := equivBEq_of_fold Name.fold fun _ _ => Name.beq_iff
instance : EquivBEq RData := equivBEq_of_fold RData.fold fun _ _ => RData.beq_iff
instance : EquivBEq RecordKey := equivBEq_of_fold RecordKey.fold fun _ _ => RecordKey.beq_iff

@[simp] theorem RData.recordType_fold (d : RData) : d.fold.recordType = d.recordType := by
  cases d <;> rfl

/-- Equal data have the same type. -/
theorem RData.recordType_congr {d e : RData} (h : d == e) : d.recordType = e.recordType := by
  rw [← recordType_fold d, RData.beq_iff.1 h, recordType_fold]

/-- Equality of records is equality of their keys. -/
theorem Record.beq_eq (r s : Record) : (r == s) = (RecordKey.of r == RecordKey.of s) := by
  show (r.name == s.name && r.dnsClass == s.dnsClass && r.data == s.data) =
    (r.name == s.name && r.recordType == s.recordType && r.dnsClass == s.dnsClass &&
      r.data == s.data)
  cases hd : r.data == s.data
  · simp
  · simp [Record.recordType, RData.recordType_congr hd]

/-- Two records have equal keys when they agree in name, type, class and data. -/
theorem RecordKey.of_beq_iff {r s : Record} :
    RecordKey.of r == RecordKey.of s ↔ r.name == s.name ∧ r.recordType = s.recordType ∧
      r.dnsClass = s.dnsClass ∧ r.data == s.data := by
  rw [RecordKey.beq_iff, Name.beq_iff, RData.beq_iff]
  simp [RecordKey.fold, RecordKey.of]

/-- Siblings in terms of canonical forms. -/
theorem RecordKey.sibling_iff {k l : RecordKey} :
    k.sibling l = true ↔ k.name.fold = l.name.fold ∧ k.rtype = l.rtype ∧ k.dnsClass = l.dnsClass ∧
      k.rdata.fold ≠ l.rdata.fold := by
  simp only [RecordKey.sibling, bne, Bool.and_eq_true, Name.beq_iff, beq_iff_eq, and_assoc,
    Bool.not_eq_true', ← Bool.not_eq_true, RData.beq_iff, ne_eq]

theorem RecordKey.sibling_congr_left {k k' l : RecordKey} (h : k == k') :
    k.sibling l = k'.sibling l := by
  rw [RecordKey.beq_iff] at h
  simp only [RecordKey.fold, RecordKey.mk.injEq] at h
  rw [Bool.eq_iff_iff, sibling_iff, sibling_iff, h.1, h.2.1, h.2.2.1, h.2.2.2]

/-- A key is not its own sibling. -/
theorem RecordKey.sibling_of_beq {k l : RecordKey} (h : k == l) : k.sibling l = false := by
  rw [RecordKey.beq_iff] at h
  rw [← Bool.not_eq_true, sibling_iff]
  rintro ⟨-, -, -, hne⟩
  exact hne (congrArg RecordKey.rdata h)

/-- Keys of one name, type and class that are no siblings are equal. -/
theorem RecordKey.beq_of_not_sibling {k l : RecordKey} (hname : k.name == l.name)
    (htype : k.rtype = l.rtype) (hclass : k.dnsClass = l.dnsClass) (h : k.sibling l = false) :
    k == l := by
  rw [← Bool.not_eq_true, sibling_iff] at h
  rw [RecordKey.beq_iff]
  have hrdata : k.rdata.fold = l.rdata.fold := by
    by_contra hne
    exact h ⟨Name.beq_iff.1 hname, htype, hclass, hne⟩
  simp only [RecordKey.fold, Name.beq_iff.1 hname, htype, hclass, hrdata]

theorem Record.flushes_congr (r : Record) {k k' : RecordKey} (h : k == k') :
    r.flushes k = r.flushes k' := by
  unfold Record.flushes
  rw [RecordKey.sibling_congr_left h]

/-- A record does not flush its own key. -/
theorem Record.flushes_of_beq {r : Record} {k : RecordKey} (h : k == RecordKey.of r) :
    r.flushes k = false := by
  unfold Record.flushes
  rw [RecordKey.sibling_of_beq h, Bool.and_false]

/-! ### Time

Readings of the monotonic clock and lengths of time are natural numbers of nanoseconds. -/

/-- `Duration::from_secs`. -/
def fromSecs (s : ℕ) : ℕ := s * 1000000000

/-- `Duration::from_millis`. -/
def fromMillis (ms : ℕ) : ℕ := ms * 1000000

end Nmdns
