import Nmdns.Process
import Nmdns.RateLimit

/-!
# The process refines the daemon

The model of the daemon (`Daemon.run`) takes announcements, queries, wake-ups, responses and sweeps
in any order.  Here a run of the process, with its tasks and their sleeps, is shown to be such a
run.

* `Process.toDaemon`: what the daemon's model keeps of a process;
* `beginDatagram_run`, `wake_run`, `mainEffect_run`: what the events amount to;
* `MainPc.Announced`, `announced_moves`: how far `announce_all` has come;
* `process_refines_daemon`: every run of the process is `announce_all`, to its end, and then a run
  without further announcements.
-/

namespace Nmdns

open Async

/-- A transmission as the log of the daemon has it. -/
def Emission.sent? (e : Emission) : Option Sent :=
  match e.output with
  | .announcement _ m => some ⟨e.time, e.iface.ifindex, m.answers, .announcement⟩
  | .response probeDefense resp =>
    some ⟨e.time, e.iface.ifindex, resp.records, .response probeDefense⟩
  | _ => none

/-- The daemon of a process. -/
def Process.toDaemon (s : Process) : Daemon where
  state := s.shared
  pending := s.handlers.filterMap Inflight.pending?
  log := s.wire.filterMap Emission.sent?

/-! ### What the events amount to -/

theorem rest_pending (config : Resolved) (now : ℕ) (pkt : Datagram) :
    (Inflight.rest config now pkt).filterMap Inflight.pending? = [] := by
  unfold Inflight.rest
  split_ifs <;> rfl

/-- Beginning with a datagram is a query, a response or nothing. -/
theorem beginDatagram_run (parse : List UInt8 → Option Message) (p : Published) (st : State)
    (σ : CacheOrder) (rand now : ℕ) (pkt : Datagram) :
    ∃ acts : List Timed, (∀ a ∈ acts, a.time = now ∧ a.action.isAnnounce = false) ∧
      acts.length ≤ 1 ∧ ∀ pending log,
        (⟨(beginDatagram parse p st σ rand now pkt).1,
          pending ++ (beginDatagram parse p st σ rand now pkt).2.filterMap Inflight.pending?,
          log⟩ : Daemon) = (⟨st, pending, log⟩ : Daemon).run p acts := by
  have hidle : ∀ hs : List Inflight, hs.filterMap Inflight.pending? = [] →
      ∃ acts : List Timed, (∀ a ∈ acts, a.time = now ∧ a.action.isAnnounce = false) ∧
        acts.length ≤ 1 ∧ ∀ pending log, (⟨st, pending ++ hs.filterMap Inflight.pending?, log⟩ :
          Daemon) = (⟨st, pending, log⟩ : Daemon).run p acts := by
    intro hs hnil
    refine ⟨[], by simp, by simp, ?_⟩
    intro pending log
    rw [hnil, List.append_nil, daemon_run_nil]
  rcases beginDatagram_cases parse p st σ rand now pkt with
    heq | ⟨-, ⟨-, heq⟩ | ⟨msg, arrival, pd, -, -, -, hprep, heq⟩ | ⟨msg, -, -, heq⟩⟩
  · rw [heq]
    exact hidle [] rfl
  · rw [heq]
    exact hidle _ (rest_pending _ _ _)
  · rw [heq]
    refine ⟨[⟨now, .query σ msg arrival pkt.family⟩], by simp [Action.isAnnounce], by simp, ?_⟩
    intro pending log
    rw [daemon_run_cons, daemon_run_nil]
    simp only [Daemon.step, hprep]
    rfl
  · rw [heq]
    refine ⟨[⟨now, .response σ (sourceIfindex st.ifaces (identifyRecvIface pkt st.ifaces))
      msg.records⟩], by simp [Action.isAnnounce], by simp, ?_⟩
    intro pending log
    rw [rest_pending, List.append_nil]
    rfl

/-- A wake-up of a handler is one of its pending response. -/
theorem wake_run {p : Published} {s : Process} {n time delay : ℕ} {pkt : Datagram} {pd : Pending}
    (hn : s.handlers[n]? = some (.asleep time pkt pd delay)) (now : ℕ) (wire : Wire) :
    ∃ m, (⟨{ s.shared with mcTracker := (pd.respond s.shared.mcTracker now wire).1 },
        (s.handlers.eraseIdx n ++ Inflight.rest s.shared.config now pkt).filterMap
          Inflight.pending?,
        (s.wire ++ (pd.respond s.shared.mcTracker now wire).2.toList.map fun resp =>
          (⟨now, pd.arrival, .response pd.probeDefense resp⟩ : Emission)).filterMap
            Emission.sent?⟩ : Daemon) = s.toDaemon.run p [⟨now, .wake m wire⟩] := by
  obtain ⟨m, hm, herase⟩ := List.exists_filterMap_eraseIdx (f := Inflight.pending?) hn rfl
  refine ⟨m, ?_⟩
  have hstep : s.toDaemon.run p [⟨now, .wake m wire⟩] = s.toDaemon.wake now m wire := rfl
  have hpending : s.toDaemon.pending[m]? = some pd := hm
  have hlog : ∀ resps : List Response, (resps.map fun resp =>
      (⟨now, pd.arrival, .response pd.probeDefense resp⟩ : Emission)).filterMap Emission.sent? =
        resps.map fun resp =>
          ⟨now, pd.arrival.ifindex, resp.records, .response pd.probeDefense⟩ := by
    intro resps
    rw [List.filterMap_map, ← List.filterMap_eq_map]
    rfl
  rw [hstep, Daemon.wake, hpending, List.filterMap_append, List.filterMap_append, rest_pending,
    List.append_nil, herase, hlog]
  rfl

/-- The announcement of an effect of the main task. -/
def MainEffect.actions (now : ℕ) (wire : Wire) : MainEffect → List Timed
  | .announce iface _ => [⟨now, .announce iface wire⟩]
  | _ => []

theorem emit_sent? {now : ℕ} {iface : Iface} {wire : Wire} {make : Outgoing → Output}
    (hmake : ∀ m, Emission.sent? ⟨now, iface, make m⟩ = none) (m : Option Outgoing) :
    (emit now iface wire make m).filterMap Emission.sent? = [] := by
  unfold emit
  split_ifs
  · cases m with
    | none => rfl
    | some m => simp [hmake]
  · rfl

/-- An announcement of the main task is one of the daemon; its other effects do not concern the
daemon. -/
theorem mainEffect_run (p : Published) (s : Process) (now : ℕ) (wire : Wire) (id : UInt16)
    (e : MainEffect) :
    (⟨{ s.shared with mcTracker := e.marks p now wire s.shared.mcTracker },
        s.handlers.filterMap Inflight.pending?,
        (s.wire ++ e.emissions p now wire id).filterMap Emission.sent?⟩ : Daemon) =
      s.toDaemon.run p (e.actions now wire) := by
  have hidle : ∀ es : List Emission, es.filterMap Emission.sent? = [] →
      (⟨s.shared, s.handlers.filterMap Inflight.pending?,
        (s.wire ++ es).filterMap Emission.sent?⟩ : Daemon) = s.toDaemon := by
    intro es hnil
    rw [List.filterMap_append, hnil, List.append_nil]
    rfl
  cases e with
  | probe iface attempt => exact hidle _ (emit_sent? (fun _ => rfl) _)
  | spawn => exact hidle _ rfl
  | goodbye iface round => exact hidle _ (emit_sent? (fun _ => rfl) _)
  | announce iface round =>
    show _ = s.toDaemon.announce p now iface wire
    unfold Daemon.announce MainEffect.marks MainEffect.emissions emit
    rw [buildAnnounce_eq]
    cases hm : announceMessage p iface with
    | none => simp [Process.toDaemon, hm]
    | some m =>
      unfold Wire.sends
      cases wire.encodeOk with
      | false => simp [Process.toDaemon]
      | true =>
        cases hsend : iface.sendMdns wire.socketOk with
        | false => simp [Process.toDaemon, hsend]
        | true => simp [Process.toDaemon, hm, hsend, Emission.sent?]

/-- No action changes the interfaces or the configuration. -/
theorem daemon_run_frame (p : Published) (d : Daemon) (evs : List Timed) :
    (d.run p evs).state.ifaces = d.state.ifaces ∧
      (d.run p evs).state.config = d.state.config := by
  induction evs generalizing d with
  | nil => exact ⟨rfl, rfl⟩
  | cons ev evs ih =>
    rw [daemon_run_cons, (ih _).1, (ih _).2]
    obtain ⟨t, action⟩ := ev
    cases action with
    | announce iface wire =>
      show (d.announce p t iface wire).state.ifaces = _ ∧
        (d.announce p t iface wire).state.config = _
      rcases announce_cases p d t iface wire with heq | heq <;> rw [heq] <;> exact ⟨rfl, rfl⟩
    | query σ msg arrival family => exact ⟨rfl, rfl⟩
    | wake n wire =>
      show (d.wake t n wire).state.ifaces = _ ∧ (d.wake t n wire).state.config = _
      unfold Daemon.wake
      cases d.pending[n]? <;> exact ⟨rfl, rfl⟩
    | response σ src records => exact ⟨rfl, rfl⟩
    | sweep => exact ⟨rfl, rfl⟩

/-! ### How far the announcements have come -/

/-- The announcements made so far, in the first and in the second round. -/
def MainPc.Announced (ifaces : List Iface) (first second : List Announcement) : MainPc → Prop
  | .probeAll _ | .probeDelay _ _ _ | .probe _ _ _ | .probePause _ _ _ => first = [] ∧ second = []
  | .announceAll round todo =>
    round = 0 ∧ first.map Announcement.iface ++ todo = ifaces ∧ second = [] ∨
      round = 1 ∧ first.map Announcement.iface = ifaces ∧
        second.map Announcement.iface ++ todo = ifaces
  | .announceGap => first.map Announcement.iface = ifaces ∧ second = []
  | _ => first.map Announcement.iface = ifaces ∧ second.map Announcement.iface = ifaces

/-- A move of the main task that is not an announcement leaves `Announced` as it is; one that is
adds it to its round. -/
theorem announced_moves {p : Published} {ifaces : List Iface} {first second : List Announcement}
    {stopped : Bool} {pc pc' : MainPc} {since d : ℕ} {e : Option MainEffect}
    (h : pc.Announced ifaces first second) (hstop : stopped = true → pc.serving)
    (hmoves : (mainProgram p ifaces pc since).Moves stopped d pc' e) :
    ((∀ iface round, e ≠ some (.announce iface round)) ∧ pc'.Announced ifaces first second) ∨
      ∃ iface, ¬ pc.serving ∧
        ((e = some (.announce iface 0) ∧ second = [] ∧ mainClock pc' = 0 ∧
            ∀ a : Announcement, a.iface = iface → pc'.Announced ifaces (first ++ [a]) []) ∨
          (e = some (.announce iface 1) ∧ mainClock pc = announceGap ∧
            ∀ a : Announcement, a.iface = iface → pc'.Announced ifaces first (second ++ [a]))) := by
  by_cases hserving : pc.serving
  · -- from the main loop on, the announcements are over
    left
    have hann : ∀ q : MainPc, q.serving → (q.Announced ifaces first second ↔
        first.map Announcement.iface = ifaces ∧ second.map Announcement.iface = ifaces) := by
      intro q hq
      cases q <;> first | exact Iff.rfl | cases hq
    refine ⟨?_, (hann pc' (serving_closed p ifaces hserving hmoves)).2 ((hann pc hserving).1 h)⟩
    rcases serving_moves hserving hmoves with ⟨-, -, rfl, -⟩ | ⟨_, _, _, -, -, rfl⟩ | ⟨-, -, rfl⟩ |
      ⟨_, -, -, -, rfl⟩ | ⟨-, -, rfl⟩ | ⟨-, -, rfl⟩ <;> simp
  · have hrun : stopped = false := Bool.eq_false_iff.2 fun hs => hserving (hstop hs)
    rcases startup_moves hserving hrun hmoves with ⟨hpc, hpc', he⟩ | ⟨rfl, rfl, rfl⟩ |
      ⟨round, i, todo, rfl, rfl, rfl⟩ | ⟨rfl, rfl, rfl⟩ | ⟨rfl, rfl, rfl⟩ |
      ⟨round, hround, rfl, rfl, rfl⟩ | ⟨rfl, rfl, rfl⟩
    · left
      have hann : ∀ q : MainPc, q.probing →
          (q.Announced ifaces first second ↔ first = [] ∧ second = []) := by
        intro q hq
        cases q <;> first | exact Iff.rfl | cases hq
      refine ⟨?_, (hann pc' hpc').2 ((hann pc hpc).1 h)⟩
      rcases he with rfl | ⟨_, _, _, -, rfl⟩ <;> simp
    · exact Or.inl ⟨by simp, Or.inl ⟨rfl, by rw [h.1]; rfl, h.2⟩⟩
    · refine Or.inr ⟨i, hserving, ?_⟩
      rcases h with ⟨rfl, hfirst, hsecond⟩ | ⟨rfl, hfirst, hsecond⟩
      · refine Or.inl ⟨rfl, hsecond, by simp [mainClock], ?_⟩
        rintro a rfl
        exact Or.inl ⟨rfl, by simpa using hfirst, rfl⟩
      · refine Or.inr ⟨rfl, by simp [mainClock], ?_⟩
        rintro a rfl
        exact Or.inr ⟨rfl, hfirst, by simpa using hsecond⟩
    · rcases h with ⟨-, hfirst, hsecond⟩ | ⟨hround, -⟩
      · exact Or.inl ⟨by simp, by simpa using hfirst, hsecond⟩
      · cases hround
    · exact Or.inl ⟨by simp, Or.inr ⟨rfl, h.1, by rw [h.2]; rfl⟩⟩
    · rcases h with ⟨hzero, -⟩ | ⟨-, hfirst, hsecond⟩
      · exact absurd hzero hround
      · exact Or.inl ⟨by simp, hfirst, by simpa using hsecond⟩
    · exact Or.inl ⟨by simp, h⟩

/-- The background tasks are spawned on entry to the main loop. -/
theorem serving_iff_of_moves {p : Published} {ifaces : List Iface} {stopped : Bool}
    {pc pc' : MainPc} {since d : ℕ} {e : Option MainEffect}
    (hmoves : (mainProgram p ifaces pc since).Moves stopped d pc' e)
    (hstop : stopped = true → pc.serving) :
    pc'.serving ↔ pc.serving ∨ e = some .spawn := by
  by_cases hserving : pc.serving
  · exact iff_of_true (serving_closed p ifaces hserving hmoves) (Or.inl hserving)
  · have hrun : stopped = false := Bool.eq_false_iff.2 fun hs => hserving (hstop hs)
    rw [or_iff_right hserving]
    rcases startup_moves hserving hrun hmoves with ⟨-, hpc', he⟩ | ⟨-, rfl, rfl⟩ |
      ⟨_, _, _, -, rfl, rfl⟩ | ⟨-, rfl, rfl⟩ | ⟨-, rfl, rfl⟩ | ⟨_, -, -, rfl, rfl⟩ | ⟨-, rfl, rfl⟩
    · refine iff_of_false ?_ ?_
      · cases pc' <;> first | exact id | cases hpc'
      · rcases he with rfl | ⟨_, _, _, -, rfl⟩ <;> simp
    · exact iff_of_false id (by simp)
    · exact iff_of_false id (by simp)
    · exact iff_of_false id (by simp)
    · exact iff_of_false id (by simp)
    · exact iff_of_false id (by simp)
    · exact iff_of_true trivial rfl

/-! ### Runs -/

/-- The history of a process: its announcements, and then other actions, in the order of time. -/
structure Process.History (config : Resolved) (ifaces : List Iface) (p : Published) (s : Process)
    (now : ℕ) (first second : List Announcement) (acts : List Timed) : Prop where
  announced : s.main.pc.Announced ifaces first second
  clock : ∀ a ∈ first, a.time + mainClock s.main.pc ≤ s.main.since
  gap : ∀ a ∈ first, ∀ b ∈ second, a.time + announceGap ≤ b.time
  others : ∀ a ∈ acts, a.action.isAnnounce = false
  quiet : ¬ s.main.pc.serving → acts = []
  sorted : ((first ++ second).map Announcement.timed ++ acts).Pairwise fun a b => a.time ≤ b.time
  past : ∀ a ∈ (first ++ second).map Announcement.timed ++ acts, a.time ≤ now
  daemon : s.toDaemon = (Daemon.start config ifaces).run p
    ((first ++ second).map Announcement.timed ++ acts)

/-- The background tasks and the handlers run only once the announcements are over. -/
structure Process.Refines (config : Resolved) (ifaces : List Iface) (p : Published) (s : Process)
    (now : ℕ) : Prop where
  serving : s.background.isSome = true ↔ s.main.pc.serving
  quiet : s.background = none → s.handlers = [] ∧ s.stop = none
  history : ∃ first second acts, s.History config ifaces p now first second acts

section Run

variable {launch : Launch} {config : Resolved} {ifaces : List Iface} {s s' : Process}
  {now now' : ℕ}

theorem Process.Refines.mono {p : Published} (h : s.Refines config ifaces p now)
    (hle : now ≤ now') : s.Refines config ifaces p now' := by
  obtain ⟨first, second, acts, hh⟩ := h.history
  exact ⟨h.serving, h.quiet, first, second, acts, hh.announced, hh.clock, hh.gap, hh.others,
    hh.quiet, hh.sorted, fun a ha => (hh.past a ha).trans hle, hh.daemon⟩

theorem Process.Refines.ifaces_eq {p : Published} (h : s.Refines config ifaces p now) :
    s.shared.ifaces = ifaces := by
  obtain ⟨first, second, acts, hh⟩ := h.history
  have hstate : s.shared = s.toDaemon.state := rfl
  rw [hstate, hh.daemon, (daemon_run_frame _ _ _).1]
  rfl

/-- Actions at the present, in the order of time. -/
theorem sorted_append {past : List Timed} (hsorted : past.Pairwise fun a b => a.time ≤ b.time)
    (hpast : ∀ a ∈ past, a.time ≤ now) (acts : List Timed) (hnow : ∀ a ∈ acts, a.time = now) :
    (past ++ acts).Pairwise (fun a b => a.time ≤ b.time) ∧ ∀ a ∈ past ++ acts, a.time ≤ now := by
  constructor
  · rw [List.pairwise_append]
    refine ⟨hsorted, List.pairwise_of_forall_mem_list fun a ha b hb => ?_, fun a ha b hb => ?_⟩
    · rw [hnow a ha, hnow b hb]
    · rw [hnow b hb]
      exact hpast a ha
  · intro a ha
    rcases List.mem_append.1 ha with ha | ha
    · exact hpast a ha
    · exact (hnow a ha).le

/-- An event of another task than the main one. -/
theorem Process.Refines.other (h : s.Refines config ifaces launch.published now)
    (hserving : s.main.pc.serving) (hmain : s'.main = s.main)
    (hbg : s'.background.isSome = true) (acts : List Timed)
    (hacts : ∀ a ∈ acts, a.time = now ∧ a.action.isAnnounce = false)
    (hrun : s'.toDaemon = s.toDaemon.run launch.published acts) :
    s'.Refines config ifaces launch.published now := by
  obtain ⟨first, second, acts₀, hh⟩ := h.history
  refine ⟨by rw [hmain, hbg]; exact iff_of_true rfl hserving, ?_, first, second, acts₀ ++ acts, ?_⟩
  · intro hnone
    rw [hnone] at hbg
    cases hbg
  · obtain ⟨hsorted, hpast⟩ := sorted_append hh.sorted hh.past acts fun a ha => (hacts a ha).1
    rw [List.append_assoc] at hsorted hpast
    refine ⟨by rw [hmain]; exact hh.announced, by rw [hmain]; exact hh.clock, hh.gap, ?_, ?_,
      hsorted, hpast, ?_⟩
    · intro a ha
      rcases List.mem_append.1 ha with ha | ha
      · exact hh.others a ha
      · exact (hacts a ha).2
    · intro hn
      rw [hmain] at hn
      exact absurd hserving hn
    · rw [hrun, hh.daemon, ← daemon_run_append, List.append_assoc]

/-- The token is cancelled only while the background tasks run. -/
theorem Process.Refines.serving_of_stop {p : Published} (h : s.Refines config ifaces p now)
    (hstop : s.stop.isSome = true) : s.main.pc.serving := by
  rw [← h.serving, ← Bool.not_eq_false, Option.isSome_eq_false_iff, Option.isNone_iff_eq_none]
  intro hnone
  rw [(h.quiet hnone).2] at hstop
  cases hstop

/-- So are datagrams handled. -/
theorem Process.Refines.serving_of_handler {p : Published} (h : s.Refines config ifaces p now)
    {n : ℕ} {x : Inflight} (hn : s.handlers[n]? = some x) : s.main.pc.serving := by
  rw [← h.serving, ← Bool.not_eq_false, Option.isSome_eq_false_iff, Option.isNone_iff_eq_none]
  intro hnone
  rw [(h.quiet hnone).1] at hn
  cases hn

/-- An event of the main task. -/
theorem Process.Refines.main (h : s.Refines config ifaces launch.published now)
    {wire : Wire} {id : UInt16} {d : ℕ} {pc : MainPc} {e : Option MainEffect}
    (hmoves : (mainProgram launch.published s.shared.ifaces s.main.pc s.main.since).Moves
      s.stop.isSome d pc e) (hd : s.main.since + d ≤ now) :
    Process.Refines config ifaces launch.published { s with
      main := ⟨pc, now⟩
      shared := { s.shared with
        mcTracker := e.elim s.shared.mcTracker
          (MainEffect.marks launch.published now wire s.shared.mcTracker) }
      background := if e = some .spawn then some ⟨⟨.run, now⟩, ⟨.tick now, now⟩⟩ else s.background
      wire := s.wire ++ e.toList.flatMap (MainEffect.emissions launch.published now wire id) }
      now := by
  rw [h.ifaces_eq] at hmoves
  have hserving := serving_iff_of_moves hmoves h.serving_of_stop
  have hahead := (mainClock_virtual launch.published ifaces).moves trivial hmoves hd
  obtain ⟨first, second, acts, hh⟩ := h.history
  have hclock : ∀ a ∈ first, a.time + mainClock pc ≤ now := by
    intro a ha
    have := hh.clock a ha
    omega
  have hrun : ∀ acts' : List Timed, (e.toList.flatMap (MainEffect.actions now wire) = acts') →
      (⟨{ s.shared with
          mcTracker := e.elim s.shared.mcTracker
            (MainEffect.marks launch.published now wire s.shared.mcTracker) },
        s.handlers.filterMap Inflight.pending?,
        (s.wire ++ e.toList.flatMap
          (MainEffect.emissions launch.published now wire id)).filterMap Emission.sent?⟩ : Daemon) =
        s.toDaemon.run launch.published acts' := by
    rintro acts' rfl
    cases e with
    | none => simp [Process.toDaemon]
    | some e => simpa using mainEffect_run launch.published s now wire id e
  refine ⟨?_, ?_, ?_⟩
  · show _ ↔ pc.serving
    rw [hserving, ← h.serving]
    split_ifs with hspawn
    · simp [hspawn]
    · simp [hspawn]
  · intro hnone
    dsimp only at hnone ⊢
    split_ifs at hnone
    exact h.quiet hnone
  · rcases announced_moves hh.announced h.serving_of_stop hmoves with
      ⟨hother, hann⟩ | ⟨iface, hns, ⟨rfl, hsecond, hzero, hann⟩ | ⟨rfl, hgap, hann⟩⟩
    · refine ⟨first, second, acts, hann, hclock, hh.gap, hh.others, ?_, hh.sorted, hh.past, ?_⟩
      · intro hns
        exact hh.quiet fun hs => hns (hserving.2 (Or.inl hs))
      · rw [← hh.daemon]
        refine hrun [] ?_
        cases e with
        | none => rfl
        | some e =>
          cases e with
          | announce iface round => exact absurd rfl (hother iface round)
          | probe _ _ | spawn | goodbye _ _ => rfl
    · -- the first round
      have hacts := hh.quiet hns
      subst hacts hsecond
      refine ⟨first ++ [⟨now, iface, wire⟩], [], [], hann ⟨now, iface, wire⟩ rfl, ?_, by simp,
        by simp, fun _ => rfl, ?_, ?_, ?_⟩
      · intro a ha
        rcases List.mem_append.1 ha with ha | ha
        · exact hclock a ha
        · rw [List.mem_singleton.1 ha, hzero]
          exact le_rfl
      · have := sorted_append hh.sorted hh.past [⟨now, .announce iface wire⟩] (by simp)
        simpa [Announcement.timed] using this.1
      · have := sorted_append hh.sorted hh.past [⟨now, .announce iface wire⟩] (by simp)
        simpa [Announcement.timed] using this.2
      · refine (hrun [⟨now, .announce iface wire⟩] rfl).trans ?_
        rw [hh.daemon, ← daemon_run_append]
        simp [Announcement.timed]
    · -- the second round
      have hacts := hh.quiet hns
      subst hacts
      refine ⟨first, second ++ [⟨now, iface, wire⟩], [], hann ⟨now, iface, wire⟩ rfl, hclock, ?_,
        by simp, fun _ => rfl, ?_, ?_, ?_⟩
      · intro a ha b hb
        rcases List.mem_append.1 hb with hb | hb
        · exact hh.gap a ha b hb
        · rw [List.mem_singleton.1 hb]
          have := hh.clock a ha
          simp only
          omega
      · have := sorted_append hh.sorted hh.past [⟨now, .announce iface wire⟩] (by simp)
        simpa [Announcement.timed] using this.1
      · have := sorted_append hh.sorted hh.past [⟨now, .announce iface wire⟩] (by simp)
        simpa [Announcement.timed] using this.2
      · refine (hrun [⟨now, .announce iface wire⟩] rfl).trans ?_
        rw [hh.daemon, ← daemon_run_append]
        simp [Announcement.timed]

/-- **One event keeps the refinement.** -/
theorem Process.Refines.next (h : s.Refines config ifaces launch.published now)
    (hnext : s.Next launch now s') : s'.Refines config ifaces launch.published now := by
  cases hnext with
  | idle => exact h
  | main hmoves hd => exact h.main hmoves hd
  | browser hexit hbg hmoves hd =>
    rename_i bg wire d pc e
    refine h.other (h.serving.1 (by rw [hbg]; rfl)) rfl rfl [] (by simp) ?_
    have hnil : (e.toList.flatMap
        (BrowserEffect.emissions launch.names now wire)).filterMap Emission.sent? = [] := by
      cases e with
      | none => rfl
      | some e =>
        cases e with
        | encode round => rfl
        | query iface round =>
          simp only [Option.toList_some, List.flatMap_singleton, BrowserEffect.emissions]
          split_ifs <;> rfl
    simp [Process.toDaemon, hnil]
  | evictor hexit hbg hmoves hd =>
    rename_i bg d pc e
    cases e with
    | none => exact h.other (h.serving.1 (by rw [hbg]; rfl)) rfl rfl [] (by simp) rfl
    | some u =>
      exact h.other (h.serving.1 (by rw [hbg]; rfl)) rfl rfl [⟨now, .sweep⟩]
        (by simp [Action.isAnnounce]) rfl
  | signal hbg hstop => exact h.other (h.serving.1 hbg) rfl hbg [] (by simp) rfl
  | receive hloop hlen =>
    have hserving : s.main.pc.serving := by rw [hloop]; trivial
    refine h.other hserving rfl (h.serving.2 hserving) [] (by simp) ?_
    simp [Process.toDaemon, Inflight.pending?]
  | handle σ rand hexit hn =>
    rename_i n time pkt
    have hserving := h.serving_of_handler hn
    obtain ⟨acts, hacts, -, hbegin⟩ :=
      beginDatagram_run launch.parse launch.published s.shared σ rand now pkt
    refine h.other hserving rfl (h.serving.2 hserving) acts hacts ?_
    rw [Process.toDaemon, List.filterMap_append, List.filterMap_eraseIdx_of_none hn rfl, hbegin]
    rfl
  | wake wire hexit hn hready =>
    have hserving := h.serving_of_handler hn
    obtain ⟨m, hrun⟩ := wake_run (p := launch.published) hn now wire
    exact h.other hserving rfl (h.serving.2 hserving) _ (by simp [Action.isAnnounce]) hrun
  | forward sockets hexit hn =>
    rename_i n time pkt
    have hserving := h.serving_of_handler hn
    refine h.other hserving rfl (h.serving.2 hserving) [] (by simp) ?_
    have hnil : ∀ is : List Iface, (is.map fun i =>
        (⟨now, i, .forward pkt.data⟩ : Emission)).filterMap Emission.sent? = [] := by
      intro is
      simp [Emission.sent?]
    rw [Process.toDaemon, List.filterMap_append, List.filterMap_eraseIdx_of_none hn rfl,
      forwardEmissions, hnil, List.append_nil]
    rfl

theorem refines_start (config : Resolved) (ifaces : List Iface) (p : Published) (now : ℕ) :
    (Process.start config ifaces now).Refines config ifaces p now :=
  ⟨iff_of_false Bool.false_ne_true id, fun _ => ⟨rfl, rfl⟩, [], [], [],
    ⟨⟨rfl, rfl⟩, by simp, by simp, by simp, fun _ => rfl, by simp, by simp, rfl⟩⟩

theorem clocked_start (config : Resolved) (ifaces : List Iface) (now : ℕ) :
    (Process.start config ifaces now).Clocked now :=
  ⟨le_rfl, by simp [Process.start]⟩

/-- A run from the start keeps the refinement. -/
theorem refines_run (config : Resolved) (ifaces : List Iface) (launch : Launch) {t₀ : ℕ}
    {evs : List ProcessEvent} (hsorted : (t₀ :: evs.map ProcessEvent.time).Pairwise (· ≤ ·)) :
    ∃ now, ((Process.start config ifaces t₀).run launch evs).Refines config ifaces
      launch.published now :=
  Process.run_invariant (P := fun _ _ => True) (fun _ _ _ h hle => h.mono hle)
    (fun _ _ _ _ h _ hnext => h.next hnext) (clocked_start config ifaces t₀)
    (refines_start config ifaces launch.published t₀) (Along.of_forall (fun _ _ => trivial) _ _)
    hsorted

end Run

/-- **The process refines the daemon.**  Let a process be in any state that it can reach, with any
interleaving of its tasks.  Its shared state, its pending responses and its announcements and
responses are those of a run of the daemon in the order of time.  Once the background tasks run,
this is a whole run of `announce_all`, with both of its rounds, followed by a run without
announcements; and before that there is nothing but announcements. -/
theorem process_refines_daemon (config : Resolved) (ifaces : List Iface) (launch : Launch) {t₀ : ℕ}
    {evs : List ProcessEvent} (hsorted : (t₀ :: evs.map ProcessEvent.time).Pairwise (· ≤ ·)) :
    ∃ hist : List Timed, (hist.Pairwise fun a b => a.time ≤ b.time) ∧
      ((Process.start config ifaces t₀).run launch evs).toDaemon =
        (Daemon.start config ifaces).run launch.published hist ∧
      (((Process.start config ifaces t₀).run launch evs).background = none →
        ∀ a ∈ hist, a.action.isAnnounce = true) ∧
      (((Process.start config ifaces t₀).run launch evs).background ≠ none →
        ∃ (ann : AnnounceAll ifaces) (acts : List Timed),
          ann.second.map Announcement.iface = ifaces ∧ hist = ann.actions ++ acts ∧
          ∀ a ∈ acts, a.action.isAnnounce = false) := by
  obtain ⟨now, h⟩ := refines_run config ifaces launch hsorted
  generalize (Process.start config ifaces t₀).run launch evs = s at h ⊢
  obtain ⟨first, second, acts, hh⟩ := h.history
  refine ⟨_, hh.sorted, hh.daemon, ?_, ?_⟩
  · intro hnone a ha
    have hns : ¬ s.main.pc.serving := by
      rw [← h.serving, hnone]
      exact Bool.false_ne_true
    rw [hh.quiet hns, List.append_nil] at ha
    obtain ⟨b, -, rfl⟩ := List.mem_map.1 ha
    rfl
  · intro hsome
    have hserving : s.main.pc.serving := by
      rw [← h.serving, Option.isSome_iff_ne_none]
      exact hsome
    have hann : first.map Announcement.iface = ifaces ∧ second.map Announcement.iface = ifaces := by
      have hpc := hh.announced
      revert hpc hserving
      cases s.main.pc <;> first | exact fun h => h.elim | exact fun _ h => h
    exact ⟨⟨first, second, hann.1, Or.inr hann.2, hh.gap⟩, acts, hann.2, rfl, hh.others⟩

/-- The router with nothing to browse for. -/
def routerLaunch : Launch := ⟨fun _ => none, fun _ => none, routerPublished, [], 60, 5, Ticks.skip⟩

/-- The router probes, announces twice and enters its main loop. -/
def routerBoot : List ProcessEvent :=
  [0, 0, 0, 0, 250, 250, 500, 500, 500, 500, 500, 500, 1500, 1500, 1500, 1500].map fun ms =>
    ⟨fromMillis ms, .main wireOk 0 true⟩

/-- The router, asked for its address by every datagram, and looking for the services of its own
name. -/
def servingLaunch : Launch :=
  { routerLaunch with
    parse := fun _ => some routerQuery
    fromStr := fun _ => some routerName
    browse := ["router.local."] }

/-- The router comes up, sweeps, asks its first question, and answers one. -/
def routerServes : List ProcessEvent :=
  routerBoot ++ ([⟨fromMillis 1500, .evictor true⟩, ⟨fromMillis 1500, .evictor true⟩] ++
    ([1500, 1520, 1520, 1520, 1520].map fun ms => ⟨fromMillis ms, .browser wireOk 0 true⟩)) ++
    [⟨fromMillis 3000, .receive eth0Datagram⟩, ⟨fromMillis 3000, .handle 0 (IterOrder.id _ _) 0⟩,
      ⟨fromMillis 3120, .wake 0 wireOk⟩]

theorem process_refines_daemon_router :
    let s := (Process.start routerState.config [routerIface] 0).run servingLaunch routerServes
    (s.background.map fun bg => (bg.browser.pc, bg.evictor.pc)) =
        some (.send 0 (fromSecs 1) [], .tick (fromMillis 6500)) ∧
      s.toDaemon.log.map (fun m => (m.time, m.kind)) =
        [(fromMillis 500, .announcement), (fromMillis 1500, .announcement),
          (fromMillis 3120, .response false)] ∧
      ∃ (ann : AnnounceAll [routerIface]) (acts : List Timed),
        ann.second.map Announcement.iface = [routerIface] ∧
        (∀ a ∈ acts, a.action.isAnnounce = false) ∧
        s.toDaemon = (Daemon.start routerState.config [routerIface]).run routerPublished
          (ann.actions ++ acts) := by
  have hbg : (((Process.start routerState.config [routerIface] 0).run servingLaunch
      routerServes).background.map fun bg => (bg.browser.pc, bg.evictor.pc)) =
        some (.send 0 (fromSecs 1) [], .tick (fromMillis 6500)) := by
    decide +kernel
  refine ⟨hbg, by decide +kernel, ?_⟩
  obtain ⟨hist, -, hrun, -, hserving⟩ := process_refines_daemon routerState.config [routerIface]
    servingLaunch (show (0 :: routerServes.map ProcessEvent.time).Pairwise (· ≤ ·) by
      decide +kernel)
  have hsome : ((Process.start routerState.config [routerIface] 0).run servingLaunch
      routerServes).background ≠ none := by
    intro hnone
    rw [hnone] at hbg
    cases hbg
  obtain ⟨ann, acts, hsecond, rfl, hothers⟩ := hserving hsome
  exact ⟨ann, acts, hsecond, hothers, hrun⟩

end Nmdns
