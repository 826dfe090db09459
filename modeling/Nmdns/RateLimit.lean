import Nmdns.Daemon

/-!
# The rate limit over whole runs

A run is `announce_all` followed by any interleaving of queries, wake-ups, responses and sweeps.

* `RateLimited`: messages on one interface that share a record keep the gap of the later one;
* `AnnounceAll`: the two rounds of announcements;
* `Clashes`: a wake-up that sends a published pointer too early after an announcement of it.
  Announcements carry the pointers but only the unique records are marked, so the rate limiter lets
  such a response through;
* `run_rateLimited_iff`: with one interface for each index, a run is rate limited exactly if no
  wake-up clashes.
-/

namespace Nmdns

/-- The gap that a message has to keep. -/
def Sent.gap (m : Sent) : ℕ :=
  match m.kind with
  | .announcement => minMulticastInterval
  | .response probeDefense => if probeDefense then probeDefenseInterval else minMulticastInterval

/-- Messages on one interface that both carry a record are spaced by the gap of the later one. -/
def RateLimited (log : List Sent) : Prop :=
  log.Pairwise fun a b => a.ifindex = b.ifindex →
    (∃ r ∈ a.records, ∃ s ∈ b.records, RecordKey.of r == RecordKey.of s) →
    a.time + b.gap ≤ b.time

instance (log : List Sent) : Decidable (RateLimited log) :=
  inferInstanceAs (Decidable (log.Pairwise _))

/-- The messages of the daemon as traffic: a key is an interface and a record. -/
def traffic : Traffic Sent (UInt32 × RecordKey) where
  time := Sent.time
  gap := Sent.gap
  carries m k := k.1 = m.ifindex ∧ ∃ r ∈ m.records, k.2 == RecordKey.of r

/-- The pointers of an announcement are not marked. -/
def exempt (p : Published) (m : Sent) (k : UInt32 × RecordKey) : Prop :=
  m.kind = .announcement ∧ ∃ v ∈ p.sharedRecords, k.2 == RecordKey.of v

theorem rateLimited_of_spaced {log : List Sent} (h : traffic.Spaced log) : RateLimited log := by
  refine List.Pairwise.imp ?_ h
  intro a b hab hi hrec
  obtain ⟨r, hr, s, hs, hrs⟩ := hrec
  exact hab ⟨(a.ifindex, RecordKey.of r), ⟨rfl, r, hr, BEq.rfl⟩, hi, s, hs, hrs⟩

theorem Sent.gap_pos (m : Sent) : 0 < m.gap := by
  have h₁ : 0 < minMulticastInterval := by decide
  have h₂ : 0 < probeDefenseInterval := by decide
  unfold gap
  split
  · exact h₁
  · split_ifs
    · exact h₂
    · exact h₁

theorem Sent.gap_le (m : Sent) : m.gap ≤ minMulticastInterval := by
  have h : probeDefenseInterval ≤ minMulticastInterval := by decide
  unfold gap
  split
  · exact le_rfl
  · split_ifs
    · exact h
    · exact le_rfl

/-- The daemon's log is spaced, and at time `t` the rate limiter accounts for it. -/
structure Paced (p : Published) (t : ℕ) (d : Daemon) : Prop where
  spaced : traffic.Spaced d.log
  covered : traffic.Covered minMulticastInterval (exempt p)
    (fun k => d.state.mcTracker.stamp? k.1 k.2) t d.log

/-! ### Announcements -/

/-- One announcement of `announce_all`. -/
structure Announcement where
  time : ℕ
  iface : Iface
  wire : Wire

/-- An announcement as an action. -/
def Announcement.timed (a : Announcement) : Timed := ⟨a.time, .announce a.iface a.wire⟩

/-- A run of `announce_all`: a first round over the interfaces and, unless the daemon is stopped, a
second one after the gap. -/
structure AnnounceAll (ifaces : List Iface) where
  first : List Announcement
  second : List Announcement
  first_ifaces : first.map Announcement.iface = ifaces
  second_ifaces : second = [] ∨ second.map Announcement.iface = ifaces
  gap : ∀ a ∈ first, ∀ b ∈ second, a.time + announceGap ≤ b.time

/-- The actions of `announce_all`. -/
def AnnounceAll.actions {ifaces : List Iface} (ann : AnnounceAll ifaces) : List Timed :=
  (ann.first ++ ann.second).map Announcement.timed

section Announce

variable {p : Published} {d : Daemon} {t : ℕ}

/-- An announcement keeps the daemon paced if earlier messages on its interface are old enough. -/
theorem paced_announce (h : Paced p t d) (a : Announcement) (hle : t ≤ a.time)
    (hold : ∀ m ∈ d.log, m.ifindex = a.iface.ifindex →
      m.time + minMulticastInterval ≤ a.time) :
    Paced p a.time (d.step p a.timed) := by
  show Paced p a.time (d.announce p a.time a.iface a.wire)
  rcases announce_cases p d a.time a.iface a.wire with heq | heq
  · rw [heq]
    exact ⟨h.spaced, h.covered.stamps hle fun k => Or.inl rfl⟩
  · rw [heq]
    let b : Sent := ⟨a.time, a.iface.ifindex, p.recordsFor a.iface, .announcement⟩
    have hstamp : ∀ k : UInt32 × RecordKey,
        (d.state.mcTracker.markAll a.time a.iface.ifindex (p.uniqueForIface a.iface)).stamp?
          k.1 k.2 = if k.1 = a.iface.ifindex ∧ ∃ r ∈ p.uniqueForIface a.iface,
            k.2 == RecordKey.of r then some a.time else d.state.mcTracker.stamp? k.1 k.2 :=
      fun k => MulticastTracker.stamp?_markAll _ _ _ _ _ _
    refine ⟨h.spaced.append_of_gap ?_, Traffic.Covered.append (b := b) ?_ ?_⟩
    · intro m hm k hmk hbk
      exact hold m hm (hmk.1.symm.trans hbk.1)
    · refine h.covered.stamps hle fun k => ?_
      rw [hstamp]
      split_ifs
      · exact Or.inr rfl
      · exact Or.inl rfl
    · -- the unique records are stamped, and the others are pointers
      rintro k ⟨hi, r, hr, hkr⟩
      rcases Published.mem_recordsFor.1 hr with hu | hsh
      · left
        rw [hstamp, if_pos ⟨hi, r, hu, hkr⟩]
        rfl
      · exact Or.inr ⟨rfl, r, hsh, hkr⟩

/-- What a round adds to the log. -/
theorem mem_log_announcements (l : List Announcement) {m : Sent}
    (hm : m ∈ (d.run p (l.map Announcement.timed)).log) :
    m ∈ d.log ∨ ∃ a ∈ l, m.time = a.time ∧ m.ifindex = a.iface.ifindex := by
  induction l generalizing d with
  | nil => exact Or.inl hm
  | cons a l ih =>
    rw [List.map_cons, daemon_run_cons] at hm
    rcases ih hm with hm | ⟨b, hb, hmb⟩
    · have hstep : d.step p a.timed = d.announce p a.time a.iface a.wire := rfl
      rw [hstep] at hm
      rcases announce_cases p d a.time a.iface a.wire with heq | heq
      · rw [heq] at hm
        exact Or.inl hm
      · rw [heq] at hm
        rcases List.mem_append.1 hm with hm | hm
        · exact Or.inl hm
        · rw [List.mem_singleton.1 hm]
          exact Or.inr ⟨a, List.mem_cons_self, rfl, rfl⟩
    · exact Or.inr ⟨b, List.mem_cons_of_mem _ hb, hmb⟩

/-- A round over interfaces with distinct indices keeps the daemon paced. -/
theorem paced_announcements (h : Paced p t d) {l : List Announcement}
    (htime : (l.map Announcement.time).Pairwise (· ≤ ·)) (hle : ∀ a ∈ l, t ≤ a.time)
    (hnodup : (l.map fun a => a.iface.ifindex).Nodup)
    (hold : ∀ m ∈ d.log, ∀ a ∈ l, m.ifindex = a.iface.ifindex →
      m.time + minMulticastInterval ≤ a.time) :
    ∃ t', Paced p t' (d.run p (l.map Announcement.timed)) ∧ ∀ u, t ≤ u →
      (∀ a ∈ l, a.time ≤ u) → t' ≤ u := by
  induction l generalizing d t with
  | nil => exact ⟨t, h, fun u hu _ => hu⟩
  | cons a l ih =>
    rw [List.map_cons, List.pairwise_cons] at htime
    rw [List.map_cons, List.nodup_cons] at hnodup
    have hstep := paced_announce h a (hle a List.mem_cons_self)
      fun m hm => hold m hm a List.mem_cons_self
    have hlater : ∀ b ∈ l, a.time ≤ b.time := fun b hb =>
      htime.1 b.time (List.mem_map_of_mem hb)
    obtain ⟨t', hpaced, hbound⟩ := ih hstep htime.2 hlater hnodup.2 (by
      -- a message of this round is on another interface than the rest of the round
      intro m hm b hb hmb
      rcases mem_log_announcements [a] hm with hm | ⟨a', ha', -, hi⟩
      · exact hold m hm b (List.mem_cons_of_mem _ hb) hmb
      · rw [List.mem_singleton.1 ha'] at hi
        exact absurd (List.mem_map.2 ⟨b, hb, hmb.symm.trans hi⟩) hnodup.1)
    refine ⟨t', hpaced, fun u _ hu' => hbound u (hu' a List.mem_cons_self) fun b hb =>
      hu' b (List.mem_cons_of_mem _ hb)⟩

end Announce

/-! ### Queries, responses and sweeps -/

/-- The action is an announcement. -/
def Action.isAnnounce : Action → Bool
  | .announce .. => true
  | _ => false

/-- The wake-up sends a response and in it a published pointer that the rate limiter allows although
an announcement on the same interface carried it less than the gap ago. -/
def Clashes (p : Published) (d : Daemon) (ev : Timed) : Prop :=
  match ev.action with
  | .wake n wire => ∃ pd ∈ d.pending[n]?, wire.delivers pd.arrival pd.family = true ∧
      (∃ a ∈ pd.answers,
        d.state.mcTracker.allows ev.time pd.arrival.ifindex a pd.minInterval = true) ∧
      (∃ r ∈ pd.answers ++ pd.additionals,
        (∃ v ∈ p.sharedRecords, RecordKey.of r == RecordKey.of v) ∧
        d.state.mcTracker.allows ev.time pd.arrival.ifindex r pd.minInterval = true) ∧
      ∃ m ∈ d.log, m.kind = .announcement ∧ m.ifindex = pd.arrival.ifindex ∧
        ev.time < m.time + pd.minInterval
  | _ => False

instance (p : Published) (d : Daemon) : (ev : Timed) → Decidable (Clashes p d ev)
  | ⟨_, .wake _ _⟩ => inferInstanceAs (Decidable
      (∃ pd ∈ _, _ ∧ (∃ a ∈ _, _) ∧ (∃ r ∈ _, _) ∧ ∃ m ∈ _, _))
  | ⟨_, .announce ..⟩ => inferInstanceAs (Decidable False)
  | ⟨_, .query ..⟩ => inferInstanceAs (Decidable False)
  | ⟨_, .response ..⟩ => inferInstanceAs (Decidable False)
  | ⟨_, .sweep⟩ => inferInstanceAs (Decidable False)

/-- No action of the run clashes. -/
def NoClash (p : Published) : Daemon → List Timed → Prop
  | _, [] => True
  | d, ev :: evs => ¬ Clashes p d ev ∧ NoClash p (d.step p ev) evs

section Run

variable {p : Published} {d : Daemon} {t : ℕ}

/-- A response that the rate limiter allows and that does not clash is spaced from the log. -/
theorem spaced_response (h : Paced p t d) {now n : ℕ} {wire : Wire} (hle : t ≤ now)
    (hclash : ¬ Clashes p d ⟨now, .wake n wire⟩) {pd : Pending} (hpd : d.pending[n]? = some pd)
    (hdel : wire.delivers pd.arrival pd.family = true) {records : List Record}
    (hsub : records ⊆ pd.answers ++ pd.additionals)
    (hsome : ∃ a ∈ pd.answers,
      d.state.mcTracker.allows now pd.arrival.ifindex a pd.minInterval = true)
    (hallow : ∀ r ∈ records,
      d.state.mcTracker.allows now pd.arrival.ifindex r pd.minInterval = true) :
    traffic.Spaced (d.log ++ [⟨now, pd.arrival.ifindex, records, .response pd.probeDefense⟩]) := by
  let b : Sent := ⟨now, pd.arrival.ifindex, records, .response pd.probeDefense⟩
  have hgap : b.gap = pd.minInterval := rfl
  refine h.spaced.append h.covered (b := b) hle b.gap_pos b.gap_le ?_ ?_
  · rintro ⟨i, k⟩ ⟨hi, r, hr, hkr⟩ s hs
    have hi' : i = pd.arrival.ifindex := hi
    dsimp only at hs
    rw [hi', MulticastTracker.stamp?_congr _ _ hkr] at hs
    exact MulticastTracker.allows_iff.1 (hallow r hr) s hs
  · -- an exempt key is a pointer of an announcement: too early would be a clash
    rintro m hm ⟨i, k⟩ ⟨hmi, -⟩ ⟨hi, r, hr, hkr⟩ ⟨hkind, v, hv, hkv⟩
    by_contra hearly
    refine hclash ⟨pd, hpd, hdel, hsome, ⟨r, hsub hr, ⟨v, hv, ?_⟩, hallow r hr⟩, m, hm, hkind,
      hmi.symm.trans hi, ?_⟩
    · exact BEq.trans (BEq.symm hkr) hkv
    · rw [← hgap]
      exact Nat.lt_of_not_le hearly

/-- A wake-up that does not clash keeps the daemon paced. -/
theorem paced_wake (h : Paced p t d) {now n : ℕ} {wire : Wire} (hle : t ≤ now)
    (hclash : ¬ Clashes p d ⟨now, .wake n wire⟩) : Paced p now (d.wake now n wire) := by
  rcases wake_cases d now n wire with ⟨htracker, hlog⟩ |
    ⟨pd, records, hpd, hsub, hsome, hallow, hstamp, hlog⟩
  · refine ⟨by rw [hlog]; exact h.spaced, ?_⟩
    rw [hlog, htracker]
    exact h.covered.stamps hle fun k => Or.inl rfl
  · have hcov : traffic.Covered minMulticastInterval (exempt p)
        (fun k => (d.wake now n wire).state.mcTracker.stamp? k.1 k.2) now d.log := by
      refine h.covered.stamps hle fun k => ?_
      rw [hstamp]
      split_ifs
      · exact Or.inr rfl
      · exact Or.inl rfl
    by_cases hdel : wire.delivers pd.arrival pd.family = true
    · rw [if_pos hdel] at hlog
      refine ⟨by rw [hlog]; exact spaced_response h hle hclash hpd hdel hsub hsome hallow, ?_⟩
      rw [hlog]
      refine Traffic.Covered.append hcov ?_
      rintro ⟨i, k⟩ ⟨hi, r, hr, hkr⟩
      left
      show (d.wake now n wire).state.mcTracker.stamp? i k = some now
      rw [hstamp, if_pos ⟨hi, r, hr, hkr⟩]
    · rw [if_neg hdel, List.append_nil] at hlog
      exact ⟨by rw [hlog]; exact h.spaced, by rw [hlog]; exact hcov⟩

/-- One action that is no announcement and does not clash keeps the daemon paced. -/
theorem paced_step (h : Paced p t d) {ev : Timed} (hle : t ≤ ev.time)
    (hann : ev.action.isAnnounce = false) (hclash : ¬ Clashes p d ev) :
    Paced p ev.time (d.step p ev) := by
  obtain ⟨now, action⟩ := ev
  cases action with
  | announce iface wire => cases hann
  | query σ msg arrival family => exact ⟨h.spaced, h.covered.stamps hle fun k => Or.inl rfl⟩
  | wake n wire => exact paced_wake h hle hclash
  | response σ src records => exact ⟨h.spaced, h.covered.stamps hle fun k => Or.inl rfl⟩
  | sweep =>
    refine ⟨h.spaced, h.covered.prune hle fun k => ?_⟩
    exact MulticastTracker.stamp?_pruneOlderThan _ _ _ _ _

theorem paced_run (h : Paced p t d) {evs : List Timed}
    (htime : evs.Pairwise fun a b => a.time ≤ b.time) (hle : ∀ ev ∈ evs, t ≤ ev.time)
    (hann : ∀ ev ∈ evs, ev.action.isAnnounce = false) (hclash : NoClash p d evs) :
    ∃ t', Paced p t' (d.run p evs) := by
  induction evs generalizing d t with
  | nil => exact ⟨t, h⟩
  | cons ev evs ih =>
    rw [List.pairwise_cons] at htime
    obtain ⟨hnow, hrest⟩ := hclash
    have hstep := paced_step h (hle ev List.mem_cons_self) (hann ev List.mem_cons_self) hnow
    exact ih hstep htime.2 htime.1 (fun e he => hann e (List.mem_cons_of_mem _ he)) hrest

/-- After `announce_all` over interfaces with distinct indices the daemon is paced. -/
theorem paced_announceAll (config : Resolved) {ifaces : List Iface}
    (hdistinct : (ifaces.map Iface.ifindex).Nodup) (ann : AnnounceAll ifaces)
    (htime : ann.actions.Pairwise fun a b => a.time ≤ b.time) :
    ∃ t, Paced p t ((Daemon.start config ifaces).run p ann.actions) ∧
      ∀ u, (∀ ev ∈ ann.actions, ev.time ≤ u) → t ≤ u := by
  have hstart : Paced p 0 (Daemon.start config ifaces) :=
    ⟨Traffic.spaced_nil, Traffic.covered_nil⟩
  unfold AnnounceAll.actions at htime ⊢
  rw [List.pairwise_map] at htime
  rw [List.pairwise_append] at htime
  obtain ⟨htime₁, htime₂, hcross⟩ := htime
  have hnodup : ∀ l : List Announcement, l.map Announcement.iface = ifaces →
      (l.map fun a => a.iface.ifindex).Nodup := by
    intro l hl
    rw [← hl, List.map_map] at hdistinct
    exact hdistinct
  obtain ⟨t₁, hp₁, hb₁⟩ := paced_announcements hstart (List.pairwise_map.2 htime₁)
    (fun a _ => Nat.zero_le _) (hnodup _ ann.first_ifaces) (fun m hm => by cases hm)
  have hnodup₂ : (ann.second.map fun a => a.iface.ifindex).Nodup := by
    rcases ann.second_ifaces with h | h
    · rw [h]
      exact List.nodup_nil
    · exact hnodup _ h
  obtain ⟨t₂, hp₂, hb₂⟩ := paced_announcements hp₁ (List.pairwise_map.2 htime₂)
    (fun b hb => hb₁ b.time (Nat.zero_le _) fun a ha => hcross a ha b hb) hnodup₂ (by
      -- the messages of the first round are a gap older than the second round
      intro m hm b hb _
      rcases mem_log_announcements ann.first hm with hm | ⟨a, ha, hma, -⟩
      · cases hm
      · have hgap := ann.gap a ha b hb
        rw [hma]
        exact hgap)
  rw [List.map_append, daemon_run_append]
  refine ⟨t₂, hp₂, fun u hu => ?_⟩
  have hu' : ∀ a ∈ ann.first ++ ann.second, a.time ≤ u := fun a ha =>
    hu a.timed (by rw [← List.map_append]; exact List.mem_map_of_mem ha)
  exact hb₂ u (hb₁ u (Nat.zero_le _) fun a ha => hu' a (List.mem_append_left _ ha))
    fun b hb => hu' b (List.mem_append_right _ hb)

/-- The announcements of the log carry the published pointers. -/
def AnnouncesPointers (p : Published) (log : List Sent) : Prop :=
  ∀ m ∈ log, m.kind = .announcement → p.sharedRecords ⊆ m.records

theorem announcesPointers_step (ev : Timed) (h : AnnouncesPointers p d.log) :
    AnnouncesPointers p (d.step p ev).log := by
  intro m hm hkind
  rcases log_step_cases p d ev with heq | ⟨iface, heq⟩ | ⟨_, _, _, heq⟩
  · rw [heq] at hm
    exact h m hm hkind
  · rw [heq] at hm
    rcases List.mem_append.1 hm with hm | hm
    · exact h m hm hkind
    · rw [List.mem_singleton.1 hm]
      exact fun r hr => Published.mem_recordsFor.2 (Or.inr hr)
  · rw [heq] at hm
    rcases List.mem_append.1 hm with hm | hm
    · exact h m hm hkind
    · rw [List.mem_singleton.1 hm] at hkind
      cases hkind

theorem announcesPointers_run (evs : List Timed) (h : AnnouncesPointers p d.log) :
    AnnouncesPointers p (d.run p evs).log := by
  induction evs generalizing d with
  | nil => exact h
  | cons ev evs ih => exact ih (announcesPointers_step ev h)

/-- A clash breaks the rate limit at once. -/
theorem not_rateLimited_of_clashes {ev : Timed} (h : AnnouncesPointers p d.log)
    (hclash : Clashes p d ev) : ¬ RateLimited (d.step p ev).log := by
  obtain ⟨now, action⟩ := ev
  cases action with
  | wake n wire =>
    obtain ⟨pd, hpd, hdel, hsome, ⟨r, hr, ⟨v, hv, hrv⟩, hok⟩, m, hm, hkind, hi, hearly⟩ := hclash
    obtain ⟨resp, hresp, s, hs, hrs⟩ := Pending.exists_mem_respond hdel hsome hr hok
    have hlog : (d.step p ⟨now, .wake n wire⟩).log =
        d.log ++ [⟨now, pd.arrival.ifindex, resp.records, .response pd.probeDefense⟩] := by
      show (d.wake now n wire).log = _
      unfold Daemon.wake
      rw [Option.mem_def.1 hpd]
      dsimp only
      rw [hresp]
      rfl
    intro hlimited
    rw [hlog] at hlimited
    have hgap := (List.pairwise_append.1 hlimited).2.2 m hm _ List.mem_cons_self hi
      ⟨v, h m hm hkind hv, s, hs, BEq.trans (BEq.symm hrv) hrs⟩
    exact absurd hearly (Nat.not_lt.2 hgap)
  | announce iface wire => exact hclash.elim
  | query σ msg arrival family => exact hclash.elim
  | response σ src records => exact hclash.elim
  | sweep => exact hclash.elim

/-- A run that is rate limited to its end has no clash on the way. -/
theorem noClash_of_rateLimited {evs : List Timed} (h : AnnouncesPointers p d.log)
    (hlimited : RateLimited (d.run p evs).log) : NoClash p d evs := by
  induction evs generalizing d with
  | nil => trivial
  | cons ev evs ih =>
    refine ⟨fun hclash => ?_, ih (announcesPointers_step ev h) hlimited⟩
    refine not_rateLimited_of_clashes h hclash ?_
    exact hlimited.sublist (log_prefix_run p (d.step p ev) evs).sublist

/-- **The rate limit over whole runs.**  Let the interfaces have distinct indices, and take a run of
`announce_all` followed by queries, wake-ups, responses and sweeps.  Any two messages on one
interface that share a record are spaced by one second, or by 250 ms if the later one is a probe
defense, exactly if no wake-up clashes with an announcement. -/
theorem run_rateLimited_iff (config : Resolved) {ifaces : List Iface}
    (hdistinct : (ifaces.map Iface.ifindex).Nodup) (ann : AnnounceAll ifaces) {evs : List Timed}
    (hann : ∀ ev ∈ evs, ev.action.isAnnounce = false)
    (htime : (ann.actions ++ evs).Pairwise fun a b => a.time ≤ b.time) :
    RateLimited ((Daemon.start config ifaces).run p (ann.actions ++ evs)).log ↔
      NoClash p ((Daemon.start config ifaces).run p ann.actions) evs := by
  rw [List.pairwise_append] at htime
  obtain ⟨htime₁, htime₂, hcross⟩ := htime
  rw [daemon_run_append]
  constructor
  · apply noClash_of_rateLimited
    apply announcesPointers_run
    exact fun m hm => by cases hm
  · intro hclash
    obtain ⟨t, hpaced, hbound⟩ := paced_announceAll (p := p) config hdistinct ann htime₁
    obtain ⟨t', hpaced'⟩ := paced_run hpaced htime₂
      (fun ev hev => hbound ev.time fun a ha => hcross a ha ev hev) hann hclash
    exact rateLimited_of_spaced hpaced'.spaced

end Run

/-! ### A web server that is asked for right after its announcement -/

/-- The two announcements of the web server, at 0 s and at 1 s. -/
def webAnnounce : AnnounceAll [routerIface] where
  first := [⟨0, routerIface, wireOk⟩]
  second := [⟨fromSecs 1, routerIface, wireOk⟩]
  first_ifaces := rfl
  second_ifaces := Or.inr rfl
  gap := by
    intro a ha b hb
    rw [List.mem_singleton.1 ha, List.mem_singleton.1 hb]
    decide

/-- A query for the service type that is read at `t` and answered 50 ms later. -/
def webQuery (t : ℕ) : List Timed :=
  [⟨t, .query (IterOrder.id _ _) ⟨0, .query, false, [⟨webType, .ptr, .in⟩], [], [], []⟩
      routerIface .v4⟩,
    ⟨t + fromMillis 50, .wake 0 wireOk⟩]

/-- A pointer is sent 100 ms after the second announcement of it. -/
theorem run_not_rateLimited :
    webPublished.BuiltFor [routerIface] ∧
      ((webAnnounce.actions ++ webQuery (fromMillis 1050)).Pairwise fun a b => a.time ≤ b.time) ∧
      (∀ ev ∈ webQuery (fromMillis 1050), ev.action.isAnnounce = false) ∧
      ¬ RateLimited ((Daemon.start routerState.config [routerIface]).run webPublished
        (webAnnounce.actions ++ webQuery (fromMillis 1050))).log :=
  ⟨webPublished_builtFor, by decide, by decide, by decide⟩

theorem run_rateLimited_iff_web :
    RateLimited ((Daemon.start routerState.config [routerIface]).run webPublished
        (webAnnounce.actions ++ webQuery (fromSecs 2))).log ∧
      ¬ NoClash webPublished ((Daemon.start routerState.config [routerIface]).run webPublished
        webAnnounce.actions) (webQuery (fromMillis 1050)) := by
  have hiff (t : ℕ) (hann : ∀ ev ∈ webQuery t, ev.action.isAnnounce = false)
      (htime : (webAnnounce.actions ++ webQuery t).Pairwise fun a b => a.time ≤ b.time) :=
    run_rateLimited_iff (p := webPublished) routerState.config (by decide) webAnnounce hann htime
  constructor
  · exact (hiff (fromSecs 2) (by decide) (by decide)).2 ⟨by decide, by decide, trivial⟩
  · intro hno
    have hlimited := (hiff (fromMillis 1050) (by decide) (by decide)).2 hno
    revert hlimited
    decide

end Nmdns
