import Nmdns.Cache

/-!
# Messages, and what a response message does to the cache

* `Message`, `Question`: a parsed DNS message as the daemon reads it;
* `Cache.ingest`: the loop of `handle_response_msg` (`src/engine.rs`) over the records of a message;
* `ingest_live_iff`: which records of one message are in the cache after the loop.
-/

namespace Nmdns

/-- `MessageType`. -/
inductive MessageType
  | query
  | response
  deriving DecidableEq, Repr

/-- An entry of the question section. -/
structure Question where
  name : Name
  queryType : RecordType
  queryClass : DNSClass
  deriving DecidableEq, Repr

/-- A parsed message. -/
structure Message where
  id : UInt16
  messageType : MessageType
  truncation : Bool
  queries : List Question
  answers : List Record
  authorities : List Record
  additionals : List Record
  deriving DecidableEq, Repr

/-- The records of a message in the order in which they are ingested. -/
def Message.records (msg : Message) : List Record :=
  msg.answers ++ msg.authorities ++ msg.additionals

/-- The insertions of `handle_response_msg`, all at one reading of the clock. -/
def Cache.ingest (c : Cache) (σ : CacheOrder) (now : ℕ) (src : Option UInt32) (rs : List Record) :
    Cache :=
  rs.foldl (fun c r => (c.insertFrom σ now r src).1) c

/-- No insertion of the loop has to evict. -/
def Cache.Fits (c : Cache) (σ : CacheOrder) (now : ℕ) (src : Option UInt32) : List Record → Prop
  | [] => True
  | r :: rs => c.Room r ∧ (c.insertFrom σ now r src).1.Fits σ now src rs

/-- `record` is live: `lookup` returns it for its name and type. -/
def Cache.Live (c : Cache) (σ : CacheOrder) (now : ℕ) (record : Record) : Prop :=
  ∃ s ∈ c.lookup σ now record.name record.recordType, s == record

instance Cache.decidableFits (c : Cache) (σ : CacheOrder) (now : ℕ) (src : Option UInt32) :
    (rs : List Record) → Decidable (c.Fits σ now src rs)
  | [] => inferInstanceAs (Decidable True)
  | r :: rs =>
    have := decidableFits (c.insertFrom σ now r src).1 σ now src rs
    inferInstanceAs (Decidable (_ ∧ _))

instance (c : Cache) (σ : CacheOrder) (now : ℕ) (record : Record) :
    Decidable (c.Live σ now record) :=
  inferInstanceAs (Decidable (∃ s ∈ _, _))

section Ingest

variable {σ : CacheOrder} {now : ℕ} {src : Option UInt32}

@[simp] theorem ingest_nil (c : Cache) : c.ingest σ now src [] = c := rfl

theorem ingest_cons (c : Cache) (r : Record) (rs : List Record) :
    c.ingest σ now src (r :: rs) = (c.insertFrom σ now r src).1.ingest σ now src rs := rfl

theorem ingest_append (c : Cache) (rs rs' : List Record) :
    c.ingest σ now src (rs ++ rs') = (c.ingest σ now src rs).ingest σ now src rs' := by
  simp [Cache.ingest, List.foldl_append]

@[simp] theorem ingest_maxTtl (c : Cache) (rs : List Record) :
    (c.ingest σ now src rs).maxTtl = c.maxTtl := by
  induction rs generalizing c with
  | nil => rfl
  | cons r rs ih => rw [ingest_cons, ih, insertFrom_maxTtl]

theorem fits_append {c : Cache} {rs rs' : List Record} :
    c.Fits σ now src (rs ++ rs') ↔
      c.Fits σ now src rs ∧ (c.ingest σ now src rs).Fits σ now src rs' := by
  induction rs generalizing c with
  | nil => simp [Cache.Fits]
  | cons r rs ih =>
    rw [List.cons_append, Cache.Fits, Cache.Fits, ih, ingest_cons, and_assoc]

/-- The binding of a key that the loop does not insert: it stays unless a record flushes it. -/
theorem ingest_find?_of_not_inserted {c : Cache} (hcap : CapOk c.maxTtl) {rs : List Record}
    (hfits : c.Fits σ now src rs) {k : RecordKey} (hne : ∀ s ∈ rs, ¬ k == RecordKey.of s) :
    (c.ingest σ now src rs).byKey.find? k =
      if rs.any fun s => s.flushes k then none else c.byKey.find? k := by
  induction rs generalizing c with
  | nil => rfl
  | cons s rs ih =>
    obtain ⟨hroom, hfits⟩ := hfits
    have hone : (c.insertFrom σ now s src).1.byKey.find? k =
        if s.flushes k then none else c.byKey.find? k :=
      insertFrom_find?_ne hcap hroom (hne s List.mem_cons_self)
    rw [ingest_cons, ih (by rw [insertFrom_maxTtl]; exact hcap) hfits
      fun s' hs' => hne s' (List.mem_cons_of_mem _ hs'), hone, List.any_cons]
    cases s.flushes k <;> cases rs.any fun s => s.flushes k <;> rfl

/-- A stored record is live at the instant of its insertion, and only a stored one is. -/
theorem live_iff_find? {c : Cache} {r : Record} :
    c.Live σ now r ↔ ∃ e, c.byKey.find? (RecordKey.of r) = some e ∧ now < e.deadline := by
  unfold Cache.Live Cache.lookup
  constructor
  · rintro ⟨s, hs, hsr⟩
    obtain ⟨k, e, hfind, -, -, he⟩ := mem_lookupInner.1 hs
    rw [Record.beq_eq, recordWithRemainingTtl_key he] at hsr
    refine ⟨e, ?_, (recordWithRemainingTtl_eq_some.1 he).1⟩
    rw [KeyedMap.find?_congr _ (BEq.trans (BEq.symm hsr) (c.keyed k e hfind))]
    exact hfind
  · rintro ⟨e, hfind, hlt⟩
    have hkey := c.keyed _ e hfind
    refine ⟨_, mem_lookupInner.2 ⟨_, e, hfind, ?_, rfl,
      recordWithRemainingTtl_eq_some.2 ⟨hlt, rfl⟩⟩, ?_⟩
    · obtain ⟨hname, htype, -⟩ := RecordKey.of_beq_iff.1 hkey
      simp [recordMatches, hname, htype]
    · rw [Record.beq_eq, RecordKey.of_ttl]
      exact hkey

/-- A record with a positive TTL is live after the loop exactly when no later one flushes it. -/
theorem live_ingest_iff {c : Cache} (hcap : CapOk c.maxTtl) {pre post : List Record} {r : Record}
    (hdistinct : (pre ++ r :: post).Pairwise fun r s => (RecordKey.of r == RecordKey.of s) = false)
    (hfits : c.Fits σ now src (pre ++ r :: post)) (hpos : 0 < r.ttl) (τ : CacheOrder) :
    (c.ingest σ now src (pre ++ r :: post)).Live τ now r ↔
      ∀ s ∈ post, ¬ s.flushes (RecordKey.of r) := by
  rw [List.pairwise_append, List.pairwise_cons] at hdistinct
  rw [fits_append] at hfits
  obtain ⟨-, -, hfits⟩ := hfits
  rw [ingest_append, ingest_cons]
  set c₀ := c.ingest σ now src pre with hc₀
  set c₁ := (c₀.insertFrom σ now r src).1 with hc₁
  have hcap₀ : CapOk c₀.maxTtl := by rw [hc₀, ingest_maxTtl]; exact hcap
  have hcap₁ : CapOk c₁.maxTtl := by rw [hc₁, insertFrom_maxTtl]; exact hcap₀
  have hself : c₁.byKey.find? (RecordKey.of r) = some (c₀.entryOf now r
      (src.or ((c₀.byKey.find? (RecordKey.of r)).bind Entry.sourceIfindex))) :=
    insertFrom_find?_self (capTtl_ne_zero hcap₀ hpos) BEq.rfl
  rw [live_iff_find?, ingest_find?_of_not_inserted hcap₁ hfits (k := RecordKey.of r)
    fun s hs => by simpa using hdistinct.2.1.1 s hs, hself]
  by_cases hany : (post.any fun s => s.flushes (RecordKey.of r)) = true
  · rw [if_pos hany]
    obtain ⟨s, hs, hf⟩ := List.any_eq_true.1 hany
    simp only [reduceCtorEq, false_and, exists_false, false_iff, not_forall]
    exact ⟨s, hs, not_not.2 hf⟩
  · rw [if_neg hany]
    exact iff_of_true ⟨_, rfl, lt_deadline_entryOf (capTtl_ne_zero hcap₀ hpos) now _⟩ fun s hs hf =>
      hany (List.any_eq_true.2 ⟨s, hs, hf⟩)

/-- A relation holds pairwise if it holds between each element and those after it. -/
theorem pairwise_iff_of_split {α : Type*} {R : α → α → Prop} {l : List α} :
    l.Pairwise R ↔ ∀ pre a post, l = pre ++ a :: post → ∀ b ∈ post, R a b := by
  constructor
  · rintro h pre a post rfl
    exact (List.pairwise_cons.1 (List.pairwise_append.1 h).2.1).1
  · intro h
    induction l with
    | nil => exact List.Pairwise.nil
    | cons a l ih =>
      refine List.pairwise_cons.2 ⟨h [] a l rfl, ih fun pre b post hl => ?_⟩
      exact h (a :: pre) b post (by rw [hl, List.cons_append])

/-- **What one message leaves in the cache.**  For a message whose records have distinct keys and
fit without an eviction, a record with a positive TTL is live after the loop exactly when no later
record of the message flushes it.  So nothing is lost exactly if no cache-flush record has an
earlier sibling. -/
theorem ingest_live_iff {c : Cache} (hcap : CapOk c.maxTtl) {msg : Message}
    (hdistinct : msg.records.Pairwise fun r s => (RecordKey.of r == RecordKey.of s) = false)
    (hfits : c.Fits σ now src msg.records) (τ : CacheOrder) :
    (∀ pre r post, msg.records = pre ++ r :: post → 0 < r.ttl →
      ((c.ingest σ now src msg.records).Live τ now r ↔
        ∀ s ∈ post, ¬ s.flushes (RecordKey.of r))) ∧
    ((∀ r ∈ msg.records, 0 < r.ttl → (c.ingest σ now src msg.records).Live τ now r) ↔
      msg.records.Pairwise fun r s => 0 < r.ttl → ¬ s.flushes (RecordKey.of r)) := by
  have hlive : ∀ pre r post, msg.records = pre ++ r :: post → 0 < r.ttl →
      ((c.ingest σ now src msg.records).Live τ now r ↔
        ∀ s ∈ post, ¬ s.flushes (RecordKey.of r)) := by
    intro pre r post hr hpos
    rw [hr] at hdistinct hfits ⊢
    exact live_ingest_iff hcap hdistinct hfits hpos τ
  refine ⟨hlive, ?_⟩
  rw [pairwise_iff_of_split]
  constructor
  · intro hall pre r post hr s hs hpos
    have hmem : r ∈ msg.records := by
      rw [hr]
      exact List.mem_append_right _ List.mem_cons_self
    exact (hlive pre r post hr hpos).1 (hall r hmem hpos) s hs
  · intro hall r hmem hpos
    obtain ⟨pre, post, hr⟩ := List.append_of_mem hmem
    exact (hlive pre r post hr hpos).2 fun s hs => hall pre r post hr s hs hpos

end Ingest

/-- An address record of the host `h.local.` with the cache-flush bit. -/
def hostAddress (addr : BitVec 32) : Record :=
  ⟨⟨[[104], [108, 111, 99, 97, 108]], true⟩, .in, 120, .a addr, true⟩

/-- The announcement of a host with two IPv4 addresses. -/
def twoAddresses : Message :=
  ⟨0, .response, false, [], [hostAddress 1, hostAddress 2], [], []⟩

/-- A cache-flush address, then one without the bit, and a goodbye for a third. -/
def mixedAddresses : Message :=
  ⟨0, .response, false, [], [hostAddress 1, { hostAddress 2 with mdnsCacheFlush := false },
    { hostAddress 3 with ttl := 0 }], [], []⟩

/-- A host that announces two addresses keeps only the second. -/
theorem ingest_twoAddresses_not_live :
    (twoAddresses.records.Pairwise fun r s => (RecordKey.of r == RecordKey.of s) = false) ∧
      (Cache.withCapacityAndMaxTtl 4096 none).Fits (IterOrder.id _ _) 0 (some 2)
        twoAddresses.records ∧
      hostAddress 1 ∈ twoAddresses.records ∧ 0 < (hostAddress 1).ttl ∧
      ¬ ((Cache.withCapacityAndMaxTtl 4096 none).ingest (IterOrder.id _ _) 0 (some 2)
        twoAddresses.records).Live (IterOrder.id _ _) 0 (hostAddress 1) :=
  ⟨by decide, by decide, List.mem_cons_self, by decide, by decide⟩

/-- Of the two addresses the second is kept, and of the mixed ones all. -/
theorem ingest_live_iff_twoAddresses :
    ((Cache.withCapacityAndMaxTtl 1 (some 300)).ingest (IterOrder.id _ _) 0 (some 2)
        twoAddresses.records).Live (IterOrder.id _ _) 0 (hostAddress 2) ∧
      ∀ r ∈ mixedAddresses.records, 0 < r.ttl →
        ((Cache.withCapacityAndMaxTtl 2 (some 300)).ingest (IterOrder.id _ _) 0 (some 2)
          mixedAddresses.records).Live (IterOrder.id _ _) 0 r := by
  have hcap : CapOk (some 300) := by
    intro cap hc
    cases hc
    decide
  have hfits : (Cache.withCapacityAndMaxTtl 1 (some 300)).Fits (IterOrder.id _ _) 0 (some 2)
      twoAddresses.records := by decide
  have hfits' : (Cache.withCapacityAndMaxTtl 2 (some 300)).Fits (IterOrder.id _ _) 0 (some 2)
      mixedAddresses.records := by decide
  constructor
  · obtain ⟨hlive, -⟩ := ingest_live_iff hcap (by decide) hfits (IterOrder.id _ _)
    exact (hlive [hostAddress 1] (hostAddress 2) [] rfl (by decide)).2 (by simp)
  · obtain ⟨-, hall⟩ := ingest_live_iff hcap (by decide) hfits' (IterOrder.id _ _)
    exact hall.2 (by decide)

end Nmdns
