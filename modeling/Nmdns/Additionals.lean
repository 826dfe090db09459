import Nmdns.Questions

/-!
# The additional section of a response

A browser that asks for a service type gets pointers to instances.  To save it further questions the
daemon adds what it has heard on other interfaces: the SRV and TXT records of the instances, and the
addresses of the hosts.

* `State.InstanceAdditional`, `State.AddressAdditional`: the two kinds of additionals;
* `cachedAdditionals_exact`: the additionals are exactly these, each key once.
-/

namespace Nmdns

section Kinds

variable (st : State) (now : ℕ) (i : Iface) (answers : List Record)

/-- `r` is a live record known from an interface other than `i`, and no answer. -/
def State.NewlyRelayed (r : Record) : Prop :=
  st.cache.Relayable now i.ifindex r ∧ ∀ a ∈ answers, (RecordKey.of a == RecordKey.of r) = false

/-- The SRV and TXT records at the target of a PTR answer. -/
def State.InstanceAdditional (r : Record) : Prop :=
  st.NewlyRelayed now i answers r ∧ (r.recordType = .srv ∨ r.recordType = .txt) ∧
    ∃ a ∈ answers, a.PointsTo r

/-- The addresses at the target of an SRV record that is an answer or an additional. -/
def State.AddressAdditional (r : Record) : Prop :=
  st.NewlyRelayed now i answers r ∧ (r.recordType = .a ∨ r.recordType = .aaaa) ∧
    ∃ s, (s ∈ answers ∨ st.InstanceAdditional now i answers s) ∧ s.Serves r

end Kinds

/-- A cache relays a key in one form only. -/
theorem Cache.Relayable.eq_of_key {c : Cache} {now : ℕ} {i : UInt32} {r s : Record}
    (hr : c.Relayable now i r) (hs : c.Relayable now i s)
    (hk : RecordKey.of r == RecordKey.of s) : r = s := by
  obtain ⟨k, e, r', hfind, -, hr', rfl⟩ := hr
  obtain ⟨l, d, s', hfind', -, hs', rfl⟩ := hs
  have hek : RecordKey.of r' == k := by
    rw [recordWithRemainingTtl_key hr']
    exact c.keyed k e hfind
  have hdl : RecordKey.of s' == l := by
    rw [recordWithRemainingTtl_key hs']
    exact c.keyed l d hfind'
  have hkl : k == l := BEq.trans (BEq.symm hek) (BEq.trans hk hdl)
  rw [KeyedMap.find?_congr _ hkl, hfind'] at hfind
  cases hfind
  rw [hr'] at hs'
  cases hs'
  rfl

section Exact

variable {st : State} {σ : CacheOrder} {now : ℕ} {i : Iface} {answers : List Record} {r : Record}

/-- Collecting relayable records with the answers as seeds keeps those that are no answers. -/
theorem mem_pushAll_answers {offers : List Record}
    (hoffers : ∀ s ∈ offers, st.cache.Relayable now i.ifindex s) :
    r ∈ (Unique.pushAll RecordKey.of ([], answers.map RecordKey.of) offers).1 ↔
      r ∈ offers ∧ st.NewlyRelayed now i answers r := by
  rw [Unique.mem_pushAll_iff fun a ha b hb => (hoffers a ha).eq_of_key (hoffers b hb)]
  refine and_congr_right fun hr => ?_
  rw [State.NewlyRelayed, and_iff_right (hoffers r hr), List.any_map, List.any_eq_false]
  simp

/-- The first loop adds the records of the instances. -/
theorem mem_firstLoop :
    r ∈ (answers.foldl (addPointerTarget st σ now i) ([], answers.map RecordKey.of)).1 ↔
      st.InstanceAdditional now i answers r := by
  rw [addPointerTarget_eq, Unique.foldl_pushAll, mem_pushAll_answers relayable_of_pointerOffers]
  constructor
  · rintro ⟨hr, hnew⟩
    obtain ⟨a, ha, hr⟩ := List.mem_flatMap.1 hr
    obtain ⟨-, htype, hpoints⟩ := mem_pointerOffers.1 hr
    exact ⟨hnew, htype, a, ha, hpoints⟩
  · rintro ⟨hnew, htype, a, ha, hpoints⟩
    exact ⟨List.mem_flatMap.2 ⟨a, ha, mem_pointerOffers.2 ⟨hnew.1, htype, hpoints⟩⟩, hnew⟩

/-- The second loop adds the addresses for the SRV records of the list it is given. -/
theorem mem_secondLoop {records : List Record} :
    r ∈ ((records.filter fun s => s.recordType == .srv).foldl (addServiceTarget st σ now i)
        (answers.foldl (addPointerTarget st σ now i) ([], answers.map RecordKey.of))).1 ↔
      st.InstanceAdditional now i answers r ∨
        (st.NewlyRelayed now i answers r ∧ (r.recordType = .a ∨ r.recordType = .aaaa) ∧
          ∃ s ∈ records, s.Serves r) := by
  rw [← mem_firstLoop (σ := σ), addPointerTarget_eq, addServiceTarget_eq, Unique.foldl_pushAll,
    Unique.foldl_pushAll, ← Unique.pushAll_append, mem_pushAll_answers,
    mem_pushAll_answers relayable_of_pointerOffers, List.mem_append, or_and_right]
  · refine or_congr_right ?_
    constructor
    · rintro ⟨hr, hnew⟩
      obtain ⟨s, hs, hr⟩ := List.mem_flatMap.1 hr
      obtain ⟨-, htype, hserves⟩ := mem_serviceOffers.1 hr
      exact ⟨hnew, htype, s, (List.mem_filter.1 hs).1, hserves⟩
    · rintro ⟨hnew, htype, s, hs, hserves⟩
      -- a record with a target has type SRV
      have hsrv : s.recordType = .srv := by
        obtain ⟨priority, weight, port, target, hdata, -⟩ := hserves
        rw [Record.recordType, hdata]
        rfl
      have hmem : s ∈ records.filter fun s => s.recordType == .srv :=
        List.mem_filter.2 ⟨hs, beq_iff_eq.2 hsrv⟩
      exact ⟨List.mem_flatMap.2 ⟨s, hmem, mem_serviceOffers.2 ⟨hnew.1, htype, hserves⟩⟩, hnew⟩
  · intro s hs
    rcases List.mem_append.1 hs with hs | hs
    · exact relayable_of_pointerOffers s hs
    · exact relayable_of_serviceOffers s hs

/-- **The additionals are the closure of the answers** under pointers to instances and services on
hosts, over the live records known from other interfaces: each key once, and none of them an
answer's. -/
theorem cachedAdditionals_exact (st : State) (σ : CacheOrder) (now : ℕ) (i : Iface)
    (answers : List Record) (hcfg : st.config.answerFromCache = true) :
    ((cachedAdditionals st σ now answers i).Pairwise fun r s =>
      (RecordKey.of r == RecordKey.of s) = false) ∧
    (∀ a ∈ answers, ∀ s ∈ cachedAdditionals st σ now answers i,
      (RecordKey.of a == RecordKey.of s) = false) ∧
    ∀ r, r ∈ cachedAdditionals st σ now answers i ↔
      st.InstanceAdditional now i answers r ∨ st.AddressAdditional now i answers r := by
  obtain ⟨hdistinct, hfresh⟩ := cachedAdditionals_distinct st σ now i answers
  refine ⟨hdistinct, hfresh, ?_⟩
  intro r
  unfold cachedAdditionals
  rw [hcfg, Bool.not_true, if_neg Bool.false_ne_true]
  dsimp only
  rw [mem_secondLoop]
  simp only [List.mem_append, mem_firstLoop]
  rfl

end Exact

/-- The printer's service instance, `P.local.` -/
def printerInstance : Name := ⟨[[80], [108, 111, 99, 97, 108]], true⟩

/-- A pointer to the printer's instance. -/
def printerPointer : Record :=
  ⟨⟨[[116], [108, 111, 99, 97, 108]], true⟩, .in, 4500, .ptr printerInstance, false⟩

/-- The printer's service, without the cache-flush bit. -/
def printerService : Record :=
  ⟨printerInstance, .in, 120, .srv 0 0 631 printerAddress.name, false⟩

/-- The router has heard the service and the address of the printer on its second interface. -/
def browsedState : State :=
  { crossedState with
    cache := (Cache.withCapacityAndMaxTtl 4096 none).ingest (IterOrder.id _ _) 0 (some 3)
      [printerService, printerAddress] }

/-- For the pointer alone, the address of the printer is added: it is two steps away. -/
theorem cachedAdditionals_exact_printer :
    { printerAddress with mdnsCacheFlush := false } ∈
      cachedAdditionals browsedState (IterOrder.id _ _) 0 [printerPointer] routerIface := by
  have hservice : cachedRecords browsedState (IterOrder.id _ _) 0 printerInstance .srv routerIface =
      [printerService] := by
    decide +kernel
  have haddress : cachedRecords browsedState (IterOrder.id _ _) 0 printerAddress.name .a
      routerIface = [{ printerAddress with mdnsCacheFlush := false }] := by
    decide +kernel
  have hs : printerService ∈
      cachedRecords browsedState (IterOrder.id _ _) 0 printerInstance .srv routerIface := by
    rw [hservice]
    exact List.mem_cons_self
  have ha : { printerAddress with mdnsCacheFlush := false } ∈
      cachedRecords browsedState (IterOrder.id _ _) 0 printerAddress.name .a routerIface := by
    rw [haddress]
    exact List.mem_cons_self
  have hnew : browsedState.NewlyRelayed 0 routerIface [printerPointer] printerService :=
    ⟨(mem_cachedRecords.1 hs).1, by decide⟩
  refine ((cachedAdditionals_exact browsedState (IterOrder.id _ _) 0 routerIface [printerPointer]
    rfl).2.2 _).2 (Or.inr ⟨⟨(mem_cachedRecords.1 ha).1, by decide⟩, Or.inl rfl, printerService, ?_,
      0, 0, 631, printerAddress.name, rfl, BEq.rfl⟩)
  exact Or.inr ⟨hnew, Or.inl rfl, printerPointer, List.mem_cons_self, printerInstance, rfl, BEq.rfl⟩

end Nmdns
