import Nmdns.Outgoing

/-!
# Probes and announcements

Before it announces its records on an interface, the daemon probes for those that must be unique.
Three places list the records of an interface: the probe, the announcement and the marks in the rate
limiter.

* `probed`: the records of a probe, as `announced` are those of an announcement;
* `filter_recordsFor`: the unique records are the announced ones with the cache-flush bit;
* `probeNames_distinct`, `mem_probeNames`: the names asked for, each once;
* `probed_exactly`: the three lists agree.
-/

namespace Nmdns

/-- The records that a probe on `i` proposes. -/
def probed (p : Published) (i : Iface) (id : UInt16) : List Record :=
  ((probeMessage p i id).map Outgoing.authorities).getD []

section Lists

variable {p : Published} {i : Iface}

theorem probed_eq (p : Published) (i : Iface) (id : UInt16) :
    probed p i id = p.uniqueForIface i := by
  unfold probed probeMessage
  dsimp only
  split_ifs with hempty
  · exact (List.isEmpty_iff.1 hempty).symm
  · rfl

/-- The unique records are the announced ones with the cache-flush bit, in the same order. -/
theorem filter_recordsFor (hw : p.WellFormed) :
    (p.recordsFor i).filter Record.mdnsCacheFlush = p.uniqueForIface i := by
  unfold Published.recordsFor Published.uniqueForIface Published.uniqueServiceRecords
  rw [List.filter_append, List.filter_flatMap]
  congr 1
  · refine List.filter_eq_self.2 fun r hr => ?_
    exact (Published.unique_of_mem_uniqueForIface hw (List.mem_append_left _ hr)).1
  · refine List.flatMap_congr fun s hs => ?_
    obtain ⟨sc, metaName, svcType, instanceName, target, rfl⟩ := hw.services s hs
    rfl

/-- An announcement that goes out marks the unique records. -/
theorem announce_of_sent (d : Daemon) (now : ℕ) {wire : Wire} (hne : p.recordsFor i ≠ [])
    (hencode : wire.encodeOk = true) (hsend : i.sendMdns wire.socketOk = true) :
    (d.announce p now i wire).state.mcTracker =
      d.state.mcTracker.markAll now i.ifindex (p.uniqueForIface i) := by
  have hann := buildAnnounce_eq_some.2 ⟨hne, hencode, rfl⟩
  unfold Daemon.announce
  rw [hann]
  simp only [hsend, if_true]

end Lists

/-! ### The names of a probe -/

/-- The loop of `probe_all` collects the names without repetition. -/
theorem probeNames_eq (unique : List Record) :
    probeNames unique = (Unique.pushAll id ([], []) (unique.map Record.name)).1 := by
  have hloop : ∀ (l : List Record) (names : List Name),
      l.foldl (fun names r => if names.any fun n => n == r.name then names else names ++ [r.name])
          names =
        (Unique.pushAll id (names, names.reverse) (l.map Record.name)).1 := by
    intro l
    induction l with
    | nil => exact fun names => rfl
    | cons r l ih =>
      intro names
      rw [List.foldl_cons, ih, List.map_cons, Unique.pushAll_cons]
      unfold Unique.push
      rw [List.any_reverse]
      simp only [id]
      split_ifs
      · rfl
      · rw [List.reverse_append]
        rfl
  exact hloop unique []

theorem probeNames_distinct (unique : List Record) :
    (probeNames unique).Pairwise fun m n => (m == n) = false := by
  rw [probeNames_eq]
  exact ((Unique.coherent_seed id []).pushAll _).distinct

/-- The names asked for are those of the records. -/
theorem mem_probeNames {unique : List Record} {n : Name} (h : n ∈ probeNames unique) :
    ∃ r ∈ unique, r.name = n := by
  rw [probeNames_eq] at h
  rcases Unique.mem_pushAll h with h | ⟨h, -⟩
  · cases h
  · exact List.mem_map.1 h

theorem exists_mem_probeNames {unique : List Record} {r : Record} (hr : r ∈ unique) :
    ∃ n ∈ probeNames unique, n == r.name := by
  have hmem : r.name ∈ unique.map Record.name := List.mem_map_of_mem hr
  rw [probeNames_eq]
  rcases Unique.exists_mem_pushAll (Unique.coherent_seed (id : Name → Name) []) hmem with h | h
  · cases h
  · exact h

/-- **What is probed is what is unique.**  On every interface a probe proposes exactly the announced
records that carry the cache-flush bit; these are the records that an announcement marks; and a
probe asks for the name of each of them, every name once. -/
theorem probed_exactly {p : Published} {ifaces : List Iface} (hb : p.BuiltFor ifaces) (i : Iface)
    (id : UInt16) :
    probed p i id = (announced p i).filter Record.mdnsCacheFlush ∧
    (∀ (d : Daemon) (now : ℕ) (wire : Wire), announced p i ≠ [] → wire.encodeOk = true →
      i.sendMdns wire.socketOk = true → ∀ j k,
        (d.announce p now i wire).state.mcTracker.stamp? j k =
          if j = i.ifindex ∧ ∃ r ∈ probed p i id, k == RecordKey.of r then some now
          else d.state.mcTracker.stamp? j k) ∧
    ∀ m, probeMessage p i id = some m →
      (m.queries.Pairwise fun q q' => (q.name == q'.name) = false) ∧
      (∀ q ∈ m.queries, ∃ r ∈ probed p i id, r.name = q.name) ∧
      ∀ r ∈ probed p i id, ∃ q ∈ m.queries, q.name == r.name := by
  rw [probed_eq, announced_eq, filter_recordsFor hb.wellFormed]
  refine ⟨rfl, ?_, ?_⟩
  · intro d now wire hne hencode hsend j k
    rw [announce_of_sent d now hne hencode hsend]
    exact MulticastTracker.stamp?_markAll d.state.mcTracker now i.ifindex _ j k
  · intro m hm
    unfold probeMessage at hm
    dsimp only at hm
    split_ifs at hm
    cases hm
    refine ⟨?_, ?_, ?_⟩
    · rw [List.pairwise_map]
      exact probeNames_distinct _
    · intro q hq
      obtain ⟨n, hn, rfl⟩ := List.mem_map.1 hq
      exact mem_probeNames hn
    · intro r hr
      obtain ⟨n, hn, hnr⟩ := exists_mem_probeNames hr
      exact ⟨_, List.mem_map_of_mem hn, hnr⟩

/-- The router with a web interface proposes its address and the SRV and TXT records. -/
theorem probed_exactly_web :
    probed webPublished routerIface 0 =
      (announced webPublished routerIface).filter Record.mdnsCacheFlush :=
  (probed_exactly webPublished_builtFor routerIface 0).1

end Nmdns
