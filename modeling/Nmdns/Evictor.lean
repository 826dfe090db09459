import Nmdns.Lifecycle

/-!
# The evictor in the running process

`cache_evictor` of `src/engine.rs`: what is left in the cache and in the rate limiter between two
sweeps, over all interleavings of the tasks.

* `State.Grows`: what handlers and announcements do to the shared state;
* `Process.Swept`: the last sweep, and when the next one is due;
* `leftover_bounded`: while the daemon runs, an expired entry is dropped within one period, and a
  stamp of the rate limiter within one period after it has lost its effect.
-/

namespace Nmdns

open Async

/-! ### What the tasks do to the shared state -/

/-- Entries are stored with a deadline that is still to come, stamps are of the present, and all
others were there before. -/
structure State.Grows (now : ℕ) (st st' : State) : Prop where
  cache : ∀ k e, st'.cache.byKey.find? k = some e →
    st.cache.byKey.find? k = some e ∨ now < e.deadline
  tracker : ∀ i k t, st'.mcTracker.stamp? i k = some t → st.mcTracker.stamp? i k = some t ∨ t = now

section Grows

variable {now : ℕ}

theorem State.Grows.refl (now : ℕ) (st : State) : st.Grows now st :=
  ⟨fun _ _ => Or.inl, fun _ _ _ => Or.inl⟩

theorem lt_deadline_insertFrom {c : Cache} {σ : CacheOrder} {record : Record} {src : Option UInt32}
    {k : RecordKey} {e : Entry}
    (he : (c.insertFrom σ now record src).1.byKey.find? k = some e) :
    c.byKey.find? k = some e ∨ now < e.deadline := by
  by_cases hzero : capTtl c.maxTtl record.ttl = 0
  · rw [insertFrom_find?_goodbye hzero] at he
    split_ifs at he
    exact Or.inl he
  · by_cases hk : k == RecordKey.of record
    · rw [insertFrom_find?_self hzero hk] at he
      cases he
      exact Or.inr (lt_deadline_entryOf hzero _ _)
    · exact Or.inl (insertFrom_find?_other hzero hk he).1

theorem lt_deadline_ingest {c : Cache} {σ : CacheOrder} {src : Option UInt32} {rs : List Record}
    {k : RecordKey} {e : Entry} (he : (c.ingest σ now src rs).byKey.find? k = some e) :
    c.byKey.find? k = some e ∨ now < e.deadline := by
  induction rs generalizing c with
  | nil => exact Or.inl he
  | cons r rs ih =>
    rw [ingest_cons] at he
    rcases ih he with hold | hlt
    · exact lt_deadline_insertFrom hold
    · exact Or.inr hlt

theorem grows_beginDatagram (parse : List UInt8 → Option Message) (p : Published) (st : State)
    (σ : CacheOrder) (rand : ℕ) (pkt : Datagram) :
    st.Grows now (beginDatagram parse p st σ rand now pkt).1 := by
  rcases beginDatagram_cases parse p st σ rand now pkt with
    heq | ⟨-, ⟨-, heq⟩ | ⟨msg, arrival, pd, -, -, -, -, heq⟩ | ⟨msg, -, -, heq⟩⟩
  · rw [heq]
    exact .refl now st
  · rw [heq]
    exact .refl now st
  · rw [heq]
    exact .refl now st
  · rw [heq]
    exact ⟨fun _ _ => lt_deadline_ingest, fun _ _ _ => Or.inl⟩

theorem stamp?_respond (pd : Pending) (t : MulticastTracker) (wire : Wire) {i : UInt32}
    {k : RecordKey} {x : ℕ} (hx : (pd.respond t now wire).1.stamp? i k = some x) :
    t.stamp? i k = some x ∨ x = now := by
  rcases pd.respond_cases t now wire with ⟨heq, -⟩ | ⟨answers, additionals, -, -, -, -, hstamp, -⟩
  · rw [heq] at hx
    exact Or.inl hx
  · rw [hstamp] at hx
    split_ifs at hx
    · exact Or.inr (Option.some.inj hx).symm
    · exact Or.inl hx

end Grows

/-! ### From one sweep to the next -/

/-- Every entry expires after `w`. -/
def State.Unexpired (w : ℕ) (st : State) : Prop :=
  ∀ k e, st.cache.byKey.find? k = some e → w < e.deadline

/-- Every stamp has an effect at `w`, or is younger. -/
def State.Limiting (w : ℕ) (st : State) : Prop :=
  ∀ i k t, st.mcTracker.stamp? i k = some t → w < t + minMulticastInterval

theorem State.Grows.unexpired {now w : ℕ} {st st' : State} (h : st.Grows now st') (hle : w ≤ now)
    (hw : st.Unexpired w) : st'.Unexpired w := by
  intro k e he
  rcases h.cache k e he with hold | hlt
  · exact hw k e hold
  · exact hle.trans_lt hlt

theorem minMulticastInterval_pos : 0 < minMulticastInterval := by decide

theorem State.Grows.limiting {now w : ℕ} {st st' : State} (h : st.Grows now st') (hle : w ≤ now)
    (hw : st.Limiting w) : st'.Limiting w := by
  intro i k t ht
  rcases h.tracker i k t ht with hold | rfl
  · exact hw i k t hold
  · have := minMulticastInterval_pos
    omega

theorem sweep_unexpired (st : State) (now : ℕ) : (st.sweep now).Unexpired now := by
  intro k e he
  simp only [State.sweep, evictExpired_find?, Option.filter_eq_some_iff, decide_eq_true_eq] at he
  exact he.2

theorem sweep_limiting (st : State) (now : ℕ) : (st.sweep now).Limiting now := by
  intro i k t ht
  simp only [State.sweep, MulticastTracker.stamp?_pruneOlderThan, Option.filter_eq_some_iff,
    decide_eq_true_eq] at ht
  omega

/-- The next sweep is due at `w + p`, and each of the two steps to it is late by at most `δ`. -/
def EvictorPc.Due (w p δ since : ℕ) : EvictorPc → Prop
  | .tick deadline => deadline ≤ w + p ∧ since ≤ w
  | .sweep _ => since ≤ w + p + δ
  | .returned => False

/-- The evictor has not been kept waiting for longer than `δ`. -/
def Process.EvictorOnTime (launch : Launch) (δ : ℕ) (s : Process) (now : ℕ) : Prop :=
  ∀ bg ∈ s.background, bg.evictor.OnTime
    (evictorProgram launch.ticks (sweepPeriod launch.cacheTickSecs)) s.stop δ now

instance (launch : Launch) (δ : ℕ) (s : Process) (now : ℕ) :
    Decidable (s.EvictorOnTime launch δ now) :=
  inferInstanceAs (Decidable (∀ bg ∈ s.background, bg.evictor.OnTime
    (evictorProgram launch.ticks (sweepPeriod launch.cacheTickSecs)) s.stop δ now))

section Due

variable {ticks : Ticks} {period w p δ now : ℕ} {ev : Fiber EvictorPc}

theorem EvictorPc.Due.le (h : ev.pc.Due w p δ ev.since)
    (hon : ev.OnTime (evictorProgram ticks period) none δ now) : now ≤ w + p + 2 * δ := by
  obtain ⟨pc, since⟩ := ev
  cases pc with
  | tick deadline =>
    have hlate := hon _ rfl
    obtain ⟨hdeadline, hsince⟩ := h
    simp only [Option.map_none, Option.getD_none] at hlate hsince
    omega
  | sweep deadline =>
    have hlate := hon _ rfl
    have hsince : since ≤ w + p + δ := h
    simp only at hlate
    omega
  | returned => exact h.elim

/-- The evictor waits for its tick, or sweeps and waits for the next one. -/
theorem EvictorPc.Due.moves (h : ev.pc.Due w p δ ev.since) {d : ℕ} {pc : EvictorPc}
    {e : Option Unit} (hmoves : (evictorProgram ticks period ev.pc ev.since).Moves false d pc e)
    (hd : ev.since + d ≤ now) (hon : ev.OnTime (evictorProgram ticks period) none δ now) :
    (e = none ∧ pc.Due w p δ now) ∨ e = some () ∧ pc.Due now period δ now := by
  obtain ⟨pc₀, since⟩ := ev
  cases pc₀ with
  | tick deadline =>
    obtain ⟨⟨-, rfl⟩ | ⟨-, -, hs⟩, rfl⟩ := Op.moves_select.1 hmoves
    · have hlate := hon _ rfl
      obtain ⟨hdeadline, hsince⟩ := h
      simp only [Option.map_none, Option.getD_none] at hlate hsince
      refine Or.inl ⟨rfl, ?_⟩
      show now ≤ w + p + δ
      omega
    · cases hs
  | sweep deadline =>
    obtain ⟨-, ⟨ok, rfl⟩, rfl⟩ := Op.moves_act.1 hmoves
    have htick : ticks.nextTick period deadline since ≤ now + period := by
      have := ticks.nextTick_le period deadline since
      simp only at hd
      omega
    exact Or.inr ⟨rfl, htick, le_rfl⟩
  | returned => exact h.elim

end Due

/-- The last sweep, while the daemon runs.  Before the first one, which is due at once, the cache
has no expired entry, but the rate limiter may still have stamps of the announcements. -/
structure Process.Swept (period δ : ℕ) (s : Process) (now : ℕ) : Prop where
  empty : s.background = none → ∀ k, s.shared.cache.byKey.find? k = none
  last : ∀ bg ∈ s.background, s.stop = none → ∃ w ≤ now, s.shared.Unexpired w ∧
    ((w = s.main.since ∧ bg.evictor.pc.Due w 0 δ bg.evictor.since) ∨
      bg.evictor.pc.Due w period δ bg.evictor.since ∧ s.shared.Limiting w)

section Swept

variable {launch : Launch} {config : Resolved} {ifaces : List Iface} {s s' : Process}
  {now now' period δ : ℕ}

theorem Process.Swept.mono (h : s.Swept period δ now) (hle : now ≤ now') :
    s.Swept period δ now' := by
  refine ⟨h.empty, fun bg hbg hstop => ?_⟩
  obtain ⟨w, hw, hrest⟩ := h.last bg hbg hstop
  exact ⟨w, hw.trans hle, hrest⟩

/-- An event of another task. -/
theorem Process.Swept.other (h : s.Swept period δ now) (hsome : s.background.isSome = true)
    (hgrows : s.shared.Grows now s'.shared)
    (hevictor : s'.background.map Background.evictor = s.background.map Background.evictor)
    (hmain : s'.main = s.main) (hstop : s'.stop = s.stop) : s'.Swept period δ now := by
  refine ⟨?_, ?_⟩
  · intro hnone
    rw [hnone] at hevictor
    cases hbg : s.background with
    | none =>
      rw [hbg] at hsome
      cases hsome
    | some bg =>
      rw [hbg] at hevictor
      cases hevictor
  · intro bg hbg hrun
    rw [hstop] at hrun
    obtain ⟨bg₀, hbg₀⟩ := Option.isSome_iff_exists.1 hsome
    obtain ⟨w, hw, hun, hdue⟩ := h.last bg₀ hbg₀ hrun
    have hsame : bg.evictor = bg₀.evictor := by
      rw [hbg, hbg₀] at hevictor
      exact Option.some.inj hevictor
    rw [hsame, hmain]
    refine ⟨w, hw, hgrows.unexpired hw hun, ?_⟩
    rcases hdue with hfirst | ⟨hdue, hlim⟩
    · exact Or.inl hfirst
    · exact Or.inr ⟨hdue, hgrows.limiting hw hlim⟩

/-- **One event keeps the distance to the next sweep.** -/
theorem Process.Swept.next (h : s.Swept (sweepPeriod launch.cacheTickSecs) δ now)
    (href : s.Refines config ifaces launch.published now) (hsched : s.Scheduled now)
    (hon : s.EvictorOnTime launch δ now)
    (hnext : s.Next launch now s') : s'.Swept (sweepPeriod launch.cacheTickSecs) δ now := by
  have hsome : s.main.pc.serving → s.background.isSome = true := href.serving.2
  cases hnext with
  | idle => exact h
  | main hmoves hd =>
    rename_i wire id d pc e
    refine ⟨?_, ?_⟩
    · intro hnone
      dsimp only at hnone
      split_ifs at hnone
      exact h.empty hnone
    · intro bg hbg hrun
      dsimp only at hbg hrun
      cases hold : s.background with
      | none =>
        rw [hold] at hbg
        split_ifs at hbg
        · cases hbg
          refine ⟨now, le_rfl, ?_, Or.inl ⟨rfl, le_rfl, le_rfl⟩⟩
          intro k e he
          rw [h.empty hold k] at he
          cases he
        · cases hbg
      | some bg₀ =>
        -- the main loop waits for the signal
        exfalso
        have hserving := href.serving.1 (by rw [hold]; rfl)
        rw [hrun] at hmoves
        rcases serving_moves hserving hmoves with ⟨-, hstop, -⟩ | hl
        · cases hstop
        · have hleaving : s.main.pc.leaving := by
            rcases hl with ⟨_, _, _, hpc, -⟩ | ⟨hpc, -⟩ | ⟨_, -, hpc, -⟩ | ⟨hpc, -⟩ | ⟨hpc, -⟩ <;>
              (rw [hpc]; trivial)
          obtain ⟨t, ht, -⟩ := hsched.stopped hleaving
          rw [hrun] at ht
          cases ht
  | browser hexit hbg hmoves hd =>
    refine h.other (by rw [hbg]; rfl) (State.Grows.refl _ _) ?_ rfl rfl
    simp only [hbg, Option.map_some]
  | evictor hexit hbg hmoves hd =>
    rename_i bg d pc e
    refine ⟨fun hnone => (by cases hnone), ?_⟩
    rintro _ ⟨⟩ hrun
    have hstop : s.stop = none := hrun
    have hontime := hon bg hbg
    rw [hstop] at hmoves hontime
    obtain ⟨w, hw, hun, hdue⟩ := h.last bg hbg hstop
    rcases hdue with ⟨hfirst, hdue⟩ | ⟨hdue, hlim⟩
    · rcases hdue.moves hmoves hd hontime with ⟨rfl, hdue'⟩ | ⟨rfl, hdue'⟩
      · exact ⟨w, hw, hun, Or.inl ⟨hfirst, hdue'⟩⟩
      · exact ⟨now, le_rfl, sweep_unexpired _ _, Or.inr ⟨hdue', sweep_limiting _ _⟩⟩
    · rcases hdue.moves hmoves hd hontime with ⟨rfl, hdue'⟩ | ⟨rfl, hdue'⟩
      · exact ⟨w, hw, hun, Or.inr ⟨hdue', hlim⟩⟩
      · exact ⟨now, le_rfl, sweep_unexpired _ _, Or.inr ⟨hdue', sweep_limiting _ _⟩⟩
  | signal hbg hstop =>
    refine ⟨h.empty, fun bg _ hrun => ?_⟩
    cases hrun
  | receive hloop hlen =>
    exact h.other (hsome (by rw [hloop]; trivial)) (State.Grows.refl _ _) rfl rfl rfl
  | handle σ rand hexit hn =>
    exact h.other (hsome (href.serving_of_handler hn)) (grows_beginDatagram _ _ _ _ _ _) rfl rfl rfl
  | wake wire hexit hn hready =>
    exact h.other (hsome (href.serving_of_handler hn))
      ⟨fun _ _ => Or.inl, fun _ _ _ => stamp?_respond _ _ _⟩ rfl rfl rfl
  | forward sockets hexit hn =>
    exact h.other (hsome (href.serving_of_handler hn)) (State.Grows.refl _ _) rfl rfl rfl

theorem swept_start (config : Resolved) (ifaces : List Iface) (t₀ : ℕ) :
    (Process.start config ifaces t₀).Swept period δ t₀ where
  empty _ k := KeyedMap.find?_empty k
  last := by simp [Process.start]

end Swept

/-- **What the sweeps leave.**  Let no step of the evictor be late by more than `δ`.  While the main
loop runs, in every interleaving of the tasks, no entry stays in the cache for longer than a period
and `2 δ` after it has expired; and from `2 δ` after the main loop began, when the first sweep is
over, no stamp stays in the rate limiter for longer than that after it has lost its effect. -/
theorem leftover_bounded {config : Resolved} {ifaces : List Iface} {launch : Launch} {δ t₀ T : ℕ}
    {evs : List ProcessEvent} (hsorted : (t₀ :: evs.map ProcessEvent.time).Pairwise (· ≤ ·))
    (hon : Along (Process.step launch)
      (fun s ev => s.EvictorOnTime launch δ ev.time)
      (Process.start config ifaces t₀) evs)
    (hT : ((Process.start config ifaces t₀).run launch evs).EvictorOnTime launch
      δ T)
    (hloop : ((Process.start config ifaces t₀).run launch evs).main.pc = .mainLoop)
    (hrun : ((Process.start config ifaces t₀).run launch evs).stop = none) :
    let s := (Process.start config ifaces t₀).run launch evs
    (∀ k e, s.shared.cache.byKey.find? k = some e →
        T < e.deadline + sweepPeriod launch.cacheTickSecs + 2 * δ) ∧
      (s.main.since + 2 * δ < T → ∀ i k t, s.shared.mcTracker.stamp? i k = some t →
        T < t + minMulticastInterval + sweepPeriod launch.cacheTickSecs + 2 * δ) := by
  obtain ⟨now, href, -, h⟩ := Process.run_invariant
    (I := fun s now => s.Refines config ifaces launch.published now ∧ s.Scheduled now ∧
      s.Swept (sweepPeriod launch.cacheTickSecs) δ now)
    (P := fun s ev => s.EvictorOnTime launch δ ev.time)
    (fun _ _ _ h hle => ⟨h.1.mono hle, h.2.1.mono hle, h.2.2.mono hle⟩)
    (fun _ _ _ _ h hP hnext =>
      ⟨h.1.next hnext, h.2.1.next h.1 hnext, h.2.2.next h.1 h.2.1 hP hnext⟩)
    (clocked_start config ifaces t₀)
    ⟨refines_start config ifaces launch.published t₀, scheduled_start config ifaces t₀,
      swept_start config ifaces t₀⟩
    hon hsorted
  obtain ⟨bg, hbg⟩ := Option.isSome_iff_exists.1 (href.serving.2 (by rw [hloop]; trivial))
  have hontime := hT bg hbg
  rw [hrun] at hontime
  obtain ⟨w, -, hun, hdue⟩ := h.last bg hbg hrun
  rcases hdue with ⟨rfl, hdue⟩ | ⟨hdue, hlim⟩
  · have hle := hdue.le hontime
    refine ⟨fun k e he => ?_, fun hlate => ?_⟩
    · have := hun k e he
      omega
    · omega
  · have hle := hdue.le hontime
    refine ⟨fun k e he => ?_, fun _ i k t ht => ?_⟩
    · have := hun k e he
      omega
    · have := hlim i k t ht
      omega

/-- An address that is good for one second. -/
def fleetingAddress : Record := { hostAddress 1 with ttl := 1 }

/-- The router, which takes every datagram for a response with that address. -/
def fleetingLaunch : Launch :=
  { routerLaunch with
    parse := fun _ =>
      some { routerQuery with messageType := .response, answers := [fleetingAddress] } }

/-- The first sweep comes before the address. -/
def fleetingLife : List ProcessEvent :=
  routerBoot ++ [⟨fromMillis 1500, .evictor true⟩, ⟨fromMillis 1500, .evictor true⟩,
    ⟨fromMillis 1600, .receive eth0Datagram⟩, ⟨fromMillis 1600, .handle 0 (IterOrder.id _ _) 0⟩]

/-- The second sweep is due after five seconds: until then, the cache keeps the expired address. -/
theorem leftover_bounded_fleeting :
    ∃ e, ((Process.start routerState.config [routerIface] 0).run fleetingLaunch
        fleetingLife).shared.cache.byKey.find? (RecordKey.of fleetingAddress) = some e ∧
      e.deadline = fromMillis 2600 ∧ fromMillis 6500 < e.deadline + fromSecs 5 + 2 * 0 := by
  have hsorted : (0 :: fleetingLife.map ProcessEvent.time).Pairwise (· ≤ ·) := by decide +kernel
  have hon : Along (Process.step fleetingLaunch)
      (fun s ev => s.EvictorOnTime fleetingLaunch 0 ev.time)
      (Process.start routerState.config [routerIface] 0) fleetingLife := by decide +kernel
  have hfound : (((Process.start routerState.config [routerIface] 0).run fleetingLaunch
      fleetingLife).shared.cache.byKey.find? (RecordKey.of fleetingAddress)).map Entry.deadline =
        some (fromMillis 2600) := by decide +kernel
  obtain ⟨e, he, hdeadline⟩ := Option.map_eq_some_iff.1 hfound
  exact ⟨e, he, hdeadline, (leftover_bounded hsorted hon (T := fromMillis 6500) (by decide +kernel)
    (by decide +kernel) (by decide +kernel)).1 _ e he⟩

end Nmdns
