import Nmdns.Lifecycle

/-!
# The browser in the running process

`src/browser.rs`: when the queries go out, over all interleavings of the tasks.

* `browser_moves`, `asking_of_moves`: the moves of the browser;
* `Process.Browsing`: the queries on the wire and where the browser stands;
* `browser_paced`: the rounds of queries are spaced by pauses that double up to the cap, the first
  one waits for at least 20 ms, all carry the same message, and no round begins after the signal.
-/

namespace Nmdns

open Async

/-- The round of a query. -/
def Output.round? : Output → Option ℕ
  | .query round _ => some round
  | _ => none

/-- The round that the browser is about to send, or is sending. -/
def BrowserPc.asking? : BrowserPc → Option ℕ
  | .sendQueries round _ | .send round _ _ => some round
  | _ => none

section Moves

variable {names : List Name} {cap : ℕ} {ifaces : List Iface} {stopped : Bool}
  {pc pc' : BrowserPc} {since d : ℕ} {e : Option BrowserEffect}

/-- Queries are sent in the loop over the interfaces. -/
theorem browser_moves (h : (browserProgram names cap ifaces pc since).Moves stopped d pc' e) :
    e = none ∨ (∃ round, e = some (.encode round)) ∨
      ∃ round delay i todo, pc = .send round delay (i :: todo) ∧ pc' = .send round delay todo ∧
        e = some (.query i round) := by
  cases pc with
  | run =>
    simp only [browserProgram] at h
    split_ifs at h
    · exact Or.inl (Op.moves_jump.1 h).2.2
    · exact Or.inl (Op.moves_draw.1 h).2.2
  | firstQuery d => exact Or.inl (Op.moves_select.1 h).2
  | loop round delay => exact Or.inl (Op.moves_check.1 h).2.2
  | sendQueries round delay => exact Or.inr (Or.inl ⟨round, (Op.moves_act.1 h).2.2⟩)
  | send round delay todo =>
    cases todo with
    | nil => exact Or.inl (Op.moves_jump.1 h).2.2
    | cons i todo =>
      obtain ⟨-, ⟨ok, rfl⟩, rfl⟩ := Op.moves_act.1 h
      exact Or.inr (Or.inr ⟨round, delay, i, todo, rfl, rfl, rfl⟩)
  | pause round delay => exact Or.inl (Op.moves_select.1 h).2
  | returned => exact absurd h Op.moves_done

/-- A round begins only while the token is not cancelled. -/
theorem asking_of_moves (h : (browserProgram names cap ifaces pc since).Moves stopped d pc' e)
    {k : ℕ} (hk : k ∈ pc'.asking?) : k ∈ pc.asking? ∨ stopped = false := by
  cases pc with
  | run =>
    simp only [browserProgram] at h
    split_ifs at h
    · obtain ⟨-, rfl, -⟩ := Op.moves_jump.1 h
      cases hk
    · obtain ⟨-, ⟨n, -, -, rfl⟩, -⟩ := Op.moves_draw.1 h
      cases hk
  | firstQuery d =>
    obtain ⟨⟨-, rfl⟩ | ⟨-, rfl, -⟩, -⟩ := Op.moves_select.1 h <;> cases hk
  | loop round delay =>
    right
    obtain ⟨-, rfl, -⟩ := Op.moves_check.1 h
    cases stopped with
    | true => cases hk
    | false => rfl
  | sendQueries round delay =>
    obtain ⟨-, ⟨ok, rfl⟩, -⟩ := Op.moves_act.1 h
    cases ok with
    | true => exact Or.inl hk
    | false => cases hk
  | send round delay todo =>
    cases todo with
    | nil =>
      obtain ⟨-, rfl, -⟩ := Op.moves_jump.1 h
      cases hk
    | cons i todo =>
      obtain ⟨-, ⟨ok, rfl⟩, -⟩ := Op.moves_act.1 h
      exact Or.inl hk
  | pause round delay =>
    obtain ⟨⟨-, rfl⟩ | ⟨-, rfl, -⟩, -⟩ := Op.moves_select.1 h <;> cases hk
  | returned => exact absurd h Op.moves_done

end Moves

/-! ### The queries of a run -/

/-- The browser, once it is spawned. -/
def Process.browser? (s : Process) : Option (Fiber BrowserPc) := s.background.map Background.browser

/-- How a query stands to what was sent before: to queries by the pauses between the rounds, and to
probes and announcements by all pauses and the first delay. -/
structure Emission.Asks (cap : ℕ) (a b : Emission) : Prop where
  rounds : ∀ j ∈ a.output.round?, ∀ k ∈ b.output.round?,
    a.time + backoffTotal cap k ≤ b.time + backoffTotal cap j
  first : a.output.phase ≤ 1 → ∀ k ∈ b.output.round?,
    a.time + fromMillis 20 + backoffTotal cap k ≤ b.time

/-- The queries on the wire and the browser. -/
structure Process.Browsing (names : List Name) (cap : ℕ) (s : Process) : Prop where
  quiet : s.browser? = none → ∀ a ∈ s.wire, a.output.round? = none
  ok : ∀ b ∈ s.browser?, b.pc.Ok cap
  clock : ∀ b ∈ s.browser?, ∀ a ∈ s.wire, ∀ k ∈ a.output.round?,
    a.time + browserClock cap b.pc ≤ b.since + (fromMillis 20 + backoffTotal cap k)
  start : ∀ b ∈ s.browser?, ∀ a ∈ s.wire, a.output.phase ≤ 1 →
    a.time + browserClock cap b.pc ≤ b.since
  order : s.wire.Pairwise (Emission.Asks cap)
  messages : ∀ a ∈ s.wire, ∀ k m, a.output = .query k m → m = browseMessage names
  last : ∀ t ∈ s.stop, ∃ r, (∀ a ∈ s.wire, ∀ k ∈ a.output.round?, t < a.time → k = r) ∧
    ∀ b ∈ s.browser?, ∀ k ∈ b.pc.asking?, k = r

section Browsing

variable {launch : Launch} {config : Resolved} {ifaces : List Iface} {s s' : Process} {now : ℕ}
  {names : List Name} {cap : ℕ}

/-- Something is sent that is no query, by another task. -/
theorem Process.Browsing.other (h : s.Browsing names cap) (hbrowser : s'.browser? = s.browser?)
    (hstop : s'.stop = s.stop) (es : List Emission) (hwire : s'.wire = s.wire ++ es)
    (hes : ∀ b ∈ es, b.output.round? = none ∧ (s.browser? ≠ none → b.output.phase = 2)) :
    s'.Browsing names cap := by
  have hround : ∀ a ∈ s'.wire, ∀ k ∈ a.output.round?, a ∈ s.wire := by
    intro a ha k hk
    rw [hwire] at ha
    rcases List.mem_append.1 ha with ha | ha
    · exact ha
    · rw [(hes a ha).1] at hk
      cases hk
  refine ⟨?_, ?_, ?_, ?_, ?_, ?_, ?_⟩
  · intro hnone a ha
    rw [hbrowser] at hnone
    rw [hwire] at ha
    rcases List.mem_append.1 ha with ha | ha
    · exact h.quiet hnone a ha
    · exact (hes a ha).1
  · rw [hbrowser]
    exact h.ok
  · rw [hbrowser]
    exact fun b hb a ha k hk => h.clock b hb a (hround a ha k hk) k hk
  · rw [hbrowser]
    intro b hb a ha hphase
    rw [hwire] at ha
    rcases List.mem_append.1 ha with ha | ha
    · exact h.start b hb a ha hphase
    · rw [(hes a ha).2 (Option.ne_none_iff_exists'.2 ⟨b, hb⟩)] at hphase
      omega
  · rw [hwire, List.pairwise_append]
    have hnone : ∀ a, ∀ b ∈ es, Emission.Asks cap a b := by
      intro a b hb
      have hb' := (hes b hb).1
      exact ⟨by simp [hb'], by simp [hb']⟩
    exact ⟨h.order, List.pairwise_of_forall_mem_list fun a _ b hb => hnone a b hb,
      fun a _ b hb => hnone a b hb⟩
  · intro a ha k m hm
    exact h.messages a (hround a ha k (by rw [hm]; rfl)) k m hm
  · rw [hstop, hbrowser]
    intro t ht
    obtain ⟨r, hr, hasking⟩ := h.last t ht
    exact ⟨r, fun a ha k hk => hr a (hround a ha k hk) k hk, hasking⟩

/-- An event of the browser. -/
theorem Process.Browsing.browser (h : s.Browsing names cap) (hone : fromSecs 1 ≤ cap)
    (hmax : cap ≤ durationMax) (b b' : Fiber BrowserPc) {wire : Wire} {d : ℕ}
    {e : Option BrowserEffect} (hb : s.browser? = some b)
    (hmoves : (browserProgram names cap ifaces b.pc b.since).Moves s.stop.isSome d b'.pc e)
    (hd : b.since + d ≤ now) (hb' : s'.browser? = some b') (hnow : b'.since = now)
    (hstop : s'.stop = s.stop)
    (hwire : s'.wire = s.wire ++ e.toList.flatMap (BrowserEffect.emissions names now wire)) :
    s'.Browsing names cap := by
  have hok := h.ok b hb
  have hahead := browserClock_virtual.moves hok hmoves hd
  -- a query is sent at once, in the round that the browser stands in
  have hnew : ∀ a ∈ e.toList.flatMap (BrowserEffect.emissions names now wire), ∃ k,
      a.time = now ∧ a.output = .query k (browseMessage names) ∧ b.pc.asking? = some k ∧
        browserClock cap b.pc = fromMillis 20 + backoffTotal cap k ∧
        browserClock cap b'.pc = fromMillis 20 + backoffTotal cap k := by
    intro a ha
    rcases browser_moves hmoves with rfl | ⟨round, rfl⟩ | ⟨k, delay, i, todo, hpc, hpc', rfl⟩
    · cases ha
    · cases ha
    · rw [Option.toList_some, List.flatMap_singleton] at ha
      simp only [BrowserEffect.emissions] at ha
      split_ifs at ha
      · rw [List.mem_singleton.1 ha, hpc, hpc']
        exact ⟨k, rfl, rfl, rfl, rfl, rfl⟩
      · cases ha
  have hround : ∀ a ∈ e.toList.flatMap (BrowserEffect.emissions names now wire),
      ∀ k ∈ a.output.round?, a.time = now ∧ b.pc.asking? = some k ∧
        browserClock cap b.pc = fromMillis 20 + backoffTotal cap k ∧
        browserClock cap b'.pc = fromMillis 20 + backoffTotal cap k := by
    intro a ha k hk
    obtain ⟨k', htime, hout, hrest⟩ := hnew a ha
    rw [hout] at hk
    cases hk
    exact ⟨htime, hrest⟩
  refine ⟨?_, ?_, ?_, ?_, ?_, ?_, ?_⟩
  · intro hnone
    rw [hb'] at hnone
    cases hnone
  · rw [hb']
    rintro _ ⟨⟩
    exact browserOk_closed hone hmax hok hmoves
  · rw [hb', hwire]
    rintro _ ⟨⟩ a ha k hk
    rcases List.mem_append.1 ha with ha | ha
    · have := h.clock b hb a ha k hk
      omega
    · obtain ⟨htime, -, -, hclock⟩ := hround a ha k hk
      omega
  · rw [hb', hwire]
    rintro _ ⟨⟩ a ha hphase
    rcases List.mem_append.1 ha with ha | ha
    · have := h.start b hb a ha hphase
      omega
    · obtain ⟨k, -, hout, -⟩ := hnew a ha
      rw [hout] at hphase
      simp [Output.phase] at hphase
  · rw [hwire, List.pairwise_append]
    refine ⟨h.order, List.pairwise_of_forall_mem_list fun a ha c hc => ⟨?_, ?_⟩,
      fun a ha c hc => ⟨?_, ?_⟩⟩
    · intro j hj k hk
      obtain ⟨htime, hj, -⟩ := hround a ha j hj
      obtain ⟨htime', hk, -⟩ := hround c hc k hk
      rw [hj] at hk
      cases hk
      omega
    · intro hphase
      obtain ⟨k, -, hout, -⟩ := hnew a ha
      rw [hout] at hphase
      simp [Output.phase] at hphase
    · intro j hj k hk
      have := h.clock b hb a ha j hj
      obtain ⟨htime, -, hclock, -⟩ := hround c hc k hk
      omega
    · intro hphase k hk
      have := h.start b hb a ha hphase
      obtain ⟨htime, -, hclock, -⟩ := hround c hc k hk
      omega
  · rw [hwire]
    intro a ha k m hm
    rcases List.mem_append.1 ha with ha | ha
    · exact h.messages a ha k m hm
    · obtain ⟨k', -, hout, -⟩ := hnew a ha
      rw [hout] at hm
      cases hm
      rfl
  · rw [hstop, hb', hwire]
    intro t ht
    obtain ⟨r, hr, hasking⟩ := h.last t ht
    refine ⟨r, ?_, ?_⟩
    · intro a ha k hk htime
      rcases List.mem_append.1 ha with ha | ha
      · exact hr a ha k hk htime
      · exact hasking b hb k (hround a ha k hk).2.1
    · rintro _ ⟨⟩ k hk
      rcases asking_of_moves hmoves hk with hk | hs
      · exact hasking b hb k hk
      · rw [ht] at hs
        cases hs

/-- The browser is spawned. -/
theorem Process.Browsing.spawned (now : ℕ) (hbrowser : s.browser? = some ⟨.run, now⟩)
    (hquiet : ∀ a ∈ s.wire, a.output.round? = none) (hpast : ∀ a ∈ s.wire, a.time ≤ now)
    (horder : s.wire.Pairwise (Emission.Asks cap)) (hstop : s.stop = none) :
    s.Browsing names cap := by
  have hround : ∀ a ∈ s.wire, ∀ k, k ∉ a.output.round? := by
    intro a ha k hk
    rw [hquiet a ha] at hk
    cases hk
  refine ⟨fun _ => hquiet, ?_, ?_, ?_, horder, ?_, by simp [hstop]⟩
  · rw [hbrowser]
    rintro _ ⟨⟩
    trivial
  · exact fun b hb a ha k hk => absurd hk (hround a ha k)
  · rw [hbrowser]
    rintro _ ⟨⟩ a ha -
    exact hpast a ha
  · exact fun a ha k m hm => absurd (by rw [hm]; rfl) (hround a ha k)

/-- **One event keeps the pace of the browser.** -/
theorem Process.Browsing.next
    (h : s.Browsing launch.names (browseCap launch.browseIntervalSecs))
    (href : s.Refines config ifaces launch.published now) (hsched : s.Scheduled now)
    (hnext : s.Next launch now s') :
    s'.Browsing launch.names (browseCap launch.browseIntervalSecs) := by
  cases hnext with
  | idle => exact h
  | main hmoves hd =>
    rename_i wire id d pc e
    have hnew : ∀ em ∈ e.toList.flatMap (MainEffect.emissions launch.published now wire id),
        em.output.round? = none ∧ em.output.phase = s.main.pc.phase := by
      intro em hem
      obtain ⟨-, hphase, hoffset, -⟩ := emission_of_moves href.serving_of_stop hmoves hem
      refine ⟨?_, hphase⟩
      -- queries are not sent by the main task, whose messages have offsets
      cases hout : em.output with
      | query round m =>
        rw [hout] at hoffset
        cases hoffset
      | probe _ _ | announcement _ _ | response _ _ | goodbye _ _ | forward _ => rfl
    by_cases hspawn : e = some .spawn
    · -- the browser is spawned
      have hnone : s.background = none := by
        have hserving : ¬ s.main.pc.serving := by
          intro hserving
          rcases serving_moves hserving hmoves with ⟨-, -, rfl, -⟩ | ⟨_, _, _, -, -, rfl⟩ |
            ⟨-, -, rfl⟩ | ⟨_, -, -, -, rfl⟩ | ⟨-, -, rfl⟩ | ⟨-, -, rfl⟩ <;> cases hspawn
        rw [← href.serving] at hserving
        simpa using hserving
      have hquiet := h.quiet (by rw [Process.browser?, hnone]; rfl)
      subst hspawn
      refine Process.Browsing.spawned now ?_ ?_ ?_ ?_ (href.quiet hnone).2
      · rw [Process.browser?, if_pos rfl]
        rfl
      · simpa [MainEffect.emissions] using hquiet
      · simpa [MainEffect.emissions] using hsched.past
      · simpa [MainEffect.emissions] using h.order
    · refine h.other (by simp only [Process.browser?, if_neg hspawn]) rfl _ rfl ?_
      intro em hem
      obtain ⟨hround, hphase⟩ := hnew em hem
      refine ⟨hround, fun hsome => ?_⟩
      rw [hphase, phase_of_serving (href.serving.1 ?_)]
      rw [Process.browser?] at hsome
      cases hbg : s.background with
      | none =>
        rw [hbg] at hsome
        exact absurd rfl hsome
      | some bg => rfl
  | browser hexit hbg hmoves hd =>
    rename_i bg wire d pc e
    have hbounds := browseCap_bounds launch.browseIntervalSecs
    refine h.browser hbounds.1 hbounds.2 bg.browser ⟨pc, now⟩ ?_ hmoves hd rfl rfl rfl rfl
    rw [Process.browser?, hbg]
    rfl
  | evictor hexit hbg hmoves hd =>
    refine h.other ?_ rfl [] (List.append_nil _).symm (by simp)
    simp only [Process.browser?, hbg, Option.map_some]
  | signal hbg hstop =>
    refine ⟨h.quiet, h.ok, h.clock, h.start, h.order, h.messages, ?_⟩
    rintro t ⟨⟩
    refine ⟨(s.browser?.bind fun b => b.pc.asking?).getD 0, ?_, ?_⟩
    · intro a ha k hk htime
      exact absurd (hsched.past a ha) (Nat.not_le.2 htime)
    · intro b hb k hk
      have hbrowser : s.browser? = some b := hb
      rw [hbrowser, Option.bind_some, hk, Option.getD_some]
  | receive hloop hlen => exact h.other rfl rfl [] (List.append_nil _).symm (by simp)
  | handle σ rand hexit hn => exact h.other rfl rfl [] (List.append_nil _).symm (by simp)
  | wake wire hexit hn hready =>
    refine h.other rfl rfl _ rfl ?_
    intro b hb
    obtain ⟨resp, -, rfl⟩ := List.mem_map.1 hb
    exact ⟨rfl, fun _ => rfl⟩
  | forward sockets hexit hn =>
    refine h.other rfl rfl _ rfl ?_
    intro b hb
    obtain ⟨i, -, rfl⟩ := List.mem_map.1 hb
    exact ⟨rfl, fun _ => rfl⟩

theorem browsing_start (config : Resolved) (ifaces : List Iface) (t₀ : ℕ) :
    (Process.start config ifaces t₀).Browsing names cap where
  quiet := by simp [Process.start]
  ok := by simp [Process.browser?, Process.start]
  clock := by simp [Process.start]
  start := by simp [Process.start]
  order := List.Pairwise.nil
  messages := by simp [Process.start]
  last := by simp [Process.start]

end Browsing

/-- **The pace of the browser.**  In every run and every interleaving of the tasks, a query of the
round `k` goes out at least 20 ms and all pauses before this round after every probe and
announcement, and two queries are apart by the pauses between their rounds: one second, then
doubled up to the interval of the configuration.  All carry the same message.  The queries that
go out after a signal are of a single round, the one that was being sent. -/
theorem browser_paced (config : Resolved) (ifaces : List Iface) (launch : Launch) {t₀ : ℕ}
    {evs : List ProcessEvent} (hsorted : (t₀ :: evs.map ProcessEvent.time).Pairwise (· ≤ ·)) :
    let s := (Process.start config ifaces t₀).run launch evs
    s.wire.Pairwise (Emission.Asks (browseCap launch.browseIntervalSecs)) ∧
      (∀ a ∈ s.wire, ∀ k m, a.output = .query k m → m = browseMessage launch.names) ∧
      ∀ t ∈ s.stop, ∃ r, ∀ a ∈ s.wire, ∀ k ∈ a.output.round?, t < a.time → k = r := by
  obtain ⟨now, -, -, h⟩ := Process.run_invariant
    (I := fun s now => s.Refines config ifaces launch.published now ∧ s.Scheduled now ∧
      s.Browsing launch.names (browseCap launch.browseIntervalSecs))
    (P := fun _ _ => True) (fun _ _ _ h hle => ⟨h.1.mono hle, h.2.1.mono hle, h.2.2⟩)
    (fun _ _ _ _ h _ hnext =>
      ⟨h.1.next hnext, h.2.1.next h.1 hnext, h.2.2.next h.1 h.2.1 hnext⟩)
    (clocked_start config ifaces t₀)
    ⟨refines_start config ifaces launch.published t₀, scheduled_start config ifaces t₀,
      browsing_start config ifaces t₀⟩
    (Along.of_forall (fun _ _ => trivial) _ _) hsorted
  refine ⟨h.order, h.messages, fun t ht => ?_⟩
  obtain ⟨r, hr, -⟩ := h.last t ht
  exact ⟨r, hr⟩

/-- The router looks for the services of its own name. -/
def browsingLaunch : Launch :=
  { routerLaunch with browse := ["router.local."], fromStr := fun _ => some routerName }

/-- The signal comes in the second round. -/
def browsingLife : List ProcessEvent :=
  routerBoot ++ ([1500, 1520, 1520, 1520, 1520, 1520, 2520, 2520, 2520].map fun ms =>
    ⟨fromMillis ms, .browser wireOk 0 true⟩) ++
    [⟨fromMillis 2520, .signal⟩] ++
    [2521, 2521, 2521].map fun ms => ⟨fromMillis ms, .browser wireOk 0 false⟩

theorem browser_paced_router :
    let s := (Process.start routerState.config [routerIface] 0).run browsingLaunch browsingLife
    (s.wire.filterMap fun a => a.output.round?.map fun k => (a.time, k)) =
        [(fromMillis 1520, 0), (fromMillis 2521, 1)] ∧
      s.background.map (fun bg => bg.browser.pc) = some .returned ∧
      s.wire.Pairwise (Emission.Asks (browseCap browsingLaunch.browseIntervalSecs)) :=
  ⟨by decide +kernel, by decide +kernel,
    (browser_paced _ _ browsingLaunch (show (0 :: browsingLife.map ProcessEvent.time).Pairwise
      (· ≤ ·) by decide +kernel)).1⟩

end Nmdns
