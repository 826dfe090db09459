import Nmdns.Answers
import Nmdns.History
import Nmdns.Lib.RateLog

/-!
# The running daemon

The daemon as a transition system: handlers that sleep, the shared cache and rate limiter, and the
messages that went out.  An `Action` is what happens between two suspension points:

* `announce`: one announcement of `announce_all`;
* `query`: `handle_query` up to its sleep; the prepared response becomes pending;
* `wake`: `handle_query` after its sleep, for any of the pending responses;
* `response`: `handle_response_msg`;
* `sweep`: one tick of `cache_evictor`.

`Daemon.run` takes any sequence of actions, so every interleaving is a run.
-/

namespace Nmdns

/-- What kind of message went out. -/
inductive SentKind
  | announcement
  | response (probeDefense : Bool)
  deriving DecidableEq, Repr

/-- A transmitted message. -/
structure Sent where
  time : ℕ
  ifindex : UInt32
  records : List Record
  kind : SentKind
  deriving DecidableEq, Repr

/-- The daemon: its shared state, the responses waiting for their delay, the messages sent. -/
structure Daemon where
  state : State
  pending : List Pending
  log : List Sent

/-- The daemon before its first announcement. -/
def Daemon.start (config : Resolved) (ifaces : List Iface) : Daemon where
  state := ⟨config, ifaces,
    Cache.withCapacityAndMaxTtl config.maxCacheEntries config.cacheMaxTtlSecs, MulticastTracker.new⟩
  pending := []
  log := []

/-- What happens between two suspension points. -/
inductive Action
  | announce (iface : Iface) (wire : Wire)
  | query (σ : CacheOrder) (msg : Message) (arrival : Iface) (family : IpFamily)
  | wake (n : ℕ) (wire : Wire)
  | response (σ : CacheOrder) (src : Option UInt32) (records : List Record)
  | sweep

/-- An action and the reading of the clock it makes. -/
structure Timed where
  time : ℕ
  action : Action

/-- The body of the loop of `announce_all`. -/
def Daemon.announce (d : Daemon) (p : Published) (now : ℕ) (iface : Iface) (wire : Wire) : Daemon :=
  match buildAnnounce p iface wire.encodeOk with
  | none => d
  | some rs =>
    if iface.sendMdns wire.socketOk then
      { d with
        state := { d.state with
          mcTracker := d.state.mcTracker.markAll now iface.ifindex (p.uniqueForIface iface) }
        log := d.log ++ [⟨now, iface.ifindex, rs, .announcement⟩] }
    else d

/-- The rest of `handle_query` for the `n`-th pending response. -/
def Daemon.wake (d : Daemon) (now n : ℕ) (wire : Wire) : Daemon :=
  match d.pending[n]? with
  | none => d
  | some pd =>
    let (t, resp) := pd.respond d.state.mcTracker now wire
    { state := { d.state with mcTracker := t }
      pending := d.pending.eraseIdx n
      log := d.log ++ resp.toList.map fun resp =>
        ⟨now, pd.arrival.ifindex, resp.records, .response pd.probeDefense⟩ }

/-- One action. -/
def Daemon.step (p : Published) (d : Daemon) (ev : Timed) : Daemon :=
  match ev.action with
  | .announce iface wire => d.announce p ev.time iface wire
  | .query σ msg arrival family =>
    { d with
      pending := d.pending ++ (prepareResponse d.state σ ev.time msg arrival family p).toList }
  | .wake n wire => d.wake ev.time n wire
  | .response σ src records =>
    { d with state := { d.state with cache := d.state.cache.ingest σ ev.time src records } }
  | .sweep =>
    { d with
      state := { d.state with
        cache := (d.state.cache.evictExpired ev.time).1
        mcTracker := d.state.mcTracker.pruneOlderThan ev.time minMulticastInterval } }

/-- A sequence of actions. -/
def Daemon.run (p : Published) (d : Daemon) (evs : List Timed) : Daemon :=
  evs.foldl (Daemon.step p) d

@[simp] theorem daemon_run_nil (p : Published) (d : Daemon) : d.run p [] = d := rfl

theorem daemon_run_cons (p : Published) (d : Daemon) (ev : Timed) (evs : List Timed) :
    d.run p (ev :: evs) = (d.step p ev).run p evs := rfl

theorem daemon_run_append (p : Published) (d : Daemon) (evs evs' : List Timed) :
    d.run p (evs ++ evs') = (d.run p evs).run p evs' := by
  simp [Daemon.run, List.foldl_append]

/-! ### One step -/

section Step

variable {p : Published} {d : Daemon} {now : ℕ}

/-- An announcement goes out and its unique records are marked, or nothing happens. -/
theorem announce_cases (p : Published) (d : Daemon) (now : ℕ) (iface : Iface) (wire : Wire) :
    d.announce p now iface wire = d ∨
      d.announce p now iface wire =
        { d with
          state := { d.state with
            mcTracker := d.state.mcTracker.markAll now iface.ifindex (p.uniqueForIface iface) }
          log := d.log ++ [⟨now, iface.ifindex, p.recordsFor iface, .announcement⟩] } := by
  unfold Daemon.announce
  cases hb : buildAnnounce p iface wire.encodeOk with
  | none => exact Or.inl rfl
  | some rs =>
    obtain ⟨-, -, hrs⟩ := buildAnnounce_eq_some.1 hb
    dsimp only
    by_cases hsend : iface.sendMdns wire.socketOk = true
    · rw [if_pos hsend, ← hrs]
      exact Or.inr rfl
    · rw [if_neg hsend]
      exact Or.inl rfl

/-- The ways a wake-up ends: there is no such response, or the tracker marks the records that were
allowed and they are in the log exactly if the wire delivers. -/
theorem wake_cases (d : Daemon) (now n : ℕ) (wire : Wire) :
    ((d.wake now n wire).state.mcTracker = d.state.mcTracker ∧ (d.wake now n wire).log = d.log) ∨
    ∃ pd records, d.pending[n]? = some pd ∧ records ⊆ pd.answers ++ pd.additionals ∧
      (∃ a ∈ pd.answers,
        d.state.mcTracker.allows now pd.arrival.ifindex a pd.minInterval = true) ∧
      (∀ r ∈ records,
        d.state.mcTracker.allows now pd.arrival.ifindex r pd.minInterval = true) ∧
      (∀ i k, (d.wake now n wire).state.mcTracker.stamp? i k =
        if i = pd.arrival.ifindex ∧ ∃ r ∈ records, k == RecordKey.of r then some now
        else d.state.mcTracker.stamp? i k) ∧
      (d.wake now n wire).log = d.log ++ if wire.delivers pd.arrival pd.family
        then [⟨now, pd.arrival.ifindex, records, .response pd.probeDefense⟩] else [] := by
  unfold Daemon.wake
  cases hpd : d.pending[n]? with
  | none => exact Or.inl ⟨rfl, rfl⟩
  | some pd =>
    dsimp only
    rcases pd.respond_cases d.state.mcTracker now wire with
      ⟨hout, -⟩ | ⟨answers, extra, hne, hsub, hsub', hallow, hstamp, hout⟩
    · left
      rw [hout]
      exact ⟨rfl, List.append_nil _⟩
    · refine Or.inr ⟨pd, answers ++ extra, rfl, ?_, ?_, hallow, hstamp, ?_⟩
      · intro r hr
        rcases List.mem_append.1 hr with hr | hr
        · exact List.mem_append_left _ (hsub.subset hr)
        · exact List.mem_append_right _ (hsub'.subset hr)
      · obtain ⟨a, ha⟩ := List.exists_mem_of_ne_nil _ hne
        exact ⟨a, hsub.subset ha, hallow a (List.mem_append_left _ ha)⟩
      · rw [hout]
        split_ifs <;> rfl

/-- What an action adds to the log: nothing, the announcement of an interface, or a response. -/
theorem log_step_cases (p : Published) (d : Daemon) (ev : Timed) :
    (d.step p ev).log = d.log ∨
      (∃ iface : Iface, (d.step p ev).log =
        d.log ++ [⟨ev.time, iface.ifindex, p.recordsFor iface, .announcement⟩]) ∨
      ∃ ifindex records probeDefense, (d.step p ev).log =
        d.log ++ [⟨ev.time, ifindex, records, .response probeDefense⟩] := by
  obtain ⟨now, action⟩ := ev
  cases action with
  | announce iface wire =>
    rcases announce_cases p d now iface wire with heq | heq
    · exact Or.inl (congrArg Daemon.log heq)
    · exact Or.inr (Or.inl ⟨iface, congrArg Daemon.log heq⟩)
  | wake n wire =>
    rcases wake_cases d now n wire with ⟨-, hlog⟩ | ⟨pd, records, -, -, -, -, -, hlog⟩
    · exact Or.inl hlog
    · split_ifs at hlog
      · exact Or.inr (Or.inr ⟨_, _, _, hlog⟩)
      · rw [List.append_nil] at hlog
        exact Or.inl hlog
  | query σ msg arrival family => exact Or.inl rfl
  | response σ src records => exact Or.inl rfl
  | sweep => exact Or.inl rfl

/-- An action only adds to the log. -/
theorem log_prefix_step (p : Published) (d : Daemon) (ev : Timed) :
    d.log <+: (d.step p ev).log := by
  rcases log_step_cases p d ev with heq | ⟨_, heq⟩ | ⟨_, _, _, heq⟩
  · rw [heq]
  all_goals
    rw [heq]
    exact List.prefix_append _ _

theorem log_prefix_run (p : Published) (d : Daemon) (evs : List Timed) :
    d.log <+: (d.run p evs).log := by
  induction evs generalizing d with
  | nil => exact List.prefix_refl _
  | cons ev evs ih => exact (log_prefix_step p d ev).trans (ih (d.step p ev))

end Step

end Nmdns
