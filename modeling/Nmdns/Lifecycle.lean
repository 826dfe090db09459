import Nmdns.Refinement

/-!
# The life of the process

What the daemon puts on the wire between its start and its end, over all interleavings of its tasks.

* `Process.Scheduled`, `emissions_scheduled`: probes come before announcements, these before all the
  rest, goodbyes only after a signal; and the waits of `probe_all`, `announce_all` and
  `announce_goodbye` stand between the transmissions of these loops.
-/

namespace Nmdns

open Async

/-! ### The order of what is sent -/

/-- How long after the first transmission of its loop the main task sends this one, at least. -/
def Output.offset : Output → Option ℕ
  | .probe attempt _ => some (attempt * probeInterval)
  | .announcement round _ | .goodbye round _ => some (round * announceGap)
  | _ => none

/-- Probes, announcements, and what the running daemon sends. -/
def Output.phase : Output → ℕ
  | .probe _ _ => 0
  | .announcement _ _ => 1
  | _ => 2

/-- Whether this withdraws records. -/
def Output.isGoodbye : Output → Bool
  | .goodbye _ _ => true
  | _ => false

/-- The phase of the main task. -/
def MainPc.phase : MainPc → ℕ
  | .probeAll _ | .probeDelay _ _ _ | .probe _ _ _ | .probePause _ _ _ => 0
  | .announceAll _ _ | .announceGap | .spawn => 1
  | _ => 2

/-- The main loop is left. -/
def MainPc.leaving : MainPc → Prop
  | .announceGoodbye _ _ | .goodbyeGap | .drain | .exited => True
  | _ => False

theorem phase_of_serving {pc : MainPc} (h : pc.serving) : pc.phase = 2 := by
  cases pc <;> first | rfl | cases h

theorem phase_of_probing {pc : MainPc} (h : pc.probing) : pc.phase = 0 := by
  cases pc <;> first | rfl | cases h

section Moves

variable {p : Published} {ifaces : List Iface} {stopped : Bool} {pc pc' : MainPc} {since d : ℕ}
  {e : Option MainEffect}

/-- The phases follow each other. -/
theorem phase_le_of_moves (hstop : stopped = true → pc.serving)
    (hmoves : (mainProgram p ifaces pc since).Moves stopped d pc' e) : pc.phase ≤ pc'.phase := by
  by_cases hserving : pc.serving
  · rw [phase_of_serving hserving, phase_of_serving (serving_closed p ifaces hserving hmoves)]
  · have hrun : stopped = false := Bool.eq_false_iff.2 fun hs => hserving (hstop hs)
    rcases startup_moves hserving hrun hmoves with ⟨hpc, -, -⟩ | ⟨rfl, rfl, -⟩ |
      ⟨_, _, _, rfl, rfl, -⟩ | ⟨rfl, rfl, -⟩ | ⟨rfl, rfl, -⟩ | ⟨_, -, rfl, rfl, -⟩ | ⟨rfl, rfl, -⟩
    · rw [phase_of_probing hpc]
      exact Nat.zero_le _
    all_goals simp [MainPc.phase]

/-- What the main task puts on the wire is of its phase, and is dated by its clock. -/
theorem emission_of_moves {now : ℕ} {wire : Wire} {id : UInt16} {em : Emission}
    (hstop : stopped = true → pc.serving)
    (hmoves : (mainProgram p ifaces pc since).Moves stopped d pc' e)
    (hem : em ∈ e.toList.flatMap (MainEffect.emissions p now wire id)) :
    em.time = now ∧ em.output.phase = pc.phase ∧ em.output.offset = some (mainClock pc) ∧
      (em.output.isGoodbye = true → pc.leaving) := by
  by_cases hserving : pc.serving
  · rcases serving_moves hserving hmoves with ⟨-, -, rfl, -⟩ | ⟨round, i, todo, rfl, -, rfl⟩ |
      ⟨-, -, rfl⟩ | ⟨_, -, -, -, rfl⟩ | ⟨-, -, rfl⟩ | ⟨-, -, rfl⟩
    case inr.inl =>
      rw [Option.toList_some, List.flatMap_singleton] at hem
      obtain ⟨m, -, rfl⟩ := of_mem_emit hem
      exact ⟨rfl, rfl, rfl, fun _ => trivial⟩
    all_goals cases hem
  · have hrun : stopped = false := Bool.eq_false_iff.2 fun hs => hserving (hstop hs)
    rcases startup_moves hserving hrun hmoves with
      ⟨-, -, rfl | ⟨i, todo, attempt, rfl, rfl⟩⟩ | ⟨-, -, rfl⟩ | ⟨round, i, todo, rfl, -, rfl⟩ |
      ⟨-, -, rfl⟩ | ⟨-, -, rfl⟩ | ⟨_, -, -, -, rfl⟩ | ⟨-, -, rfl⟩
    case inl.inr =>
      rw [Option.toList_some, List.flatMap_singleton] at hem
      obtain ⟨m, -, rfl⟩ := of_mem_emit hem
      exact ⟨rfl, rfl, rfl, fun h => absurd h (by simp [Output.isGoodbye])⟩
    case inr.inr.inl =>
      rw [Option.toList_some, List.flatMap_singleton] at hem
      obtain ⟨m, -, rfl⟩ := of_mem_emit hem
      exact ⟨rfl, rfl, rfl, fun h => absurd h (by simp [Output.isGoodbye])⟩
    all_goals cases hem

/-- The main loop is left when the token is cancelled. -/
theorem leaving_of_moves (hmoves : (mainProgram p ifaces pc since).Moves stopped d pc' e)
    (hstop : stopped = true → pc.serving) :
    pc'.leaving ↔ pc.leaving ∨ pc = .mainLoop := by
  by_cases hserving : pc.serving
  · rcases serving_moves hserving hmoves with ⟨rfl, -, -, rfl⟩ | ⟨_, _, _, rfl, rfl, -⟩ |
      ⟨rfl, rfl, -⟩ | ⟨_, -, rfl, rfl, -⟩ | ⟨rfl, rfl, -⟩ | ⟨rfl, rfl, -⟩
    · refine iff_of_true ?_ (Or.inr rfl)
      split_ifs <;> trivial
    all_goals exact iff_of_true trivial (Or.inl trivial)
  · have hleaving : ∀ q : MainPc, q.leaving → q.serving := by
      intro q hq
      cases q <;> trivial
    have hrun : stopped = false := Bool.eq_false_iff.2 fun hs => hserving (hstop hs)
    have hright : ¬ (pc.leaving ∨ pc = .mainLoop) := by
      rintro (hl | rfl)
      · exact hserving (hleaving pc hl)
      · exact hserving trivial
    refine iff_of_false ?_ hright
    rcases startup_moves hserving hrun hmoves with ⟨-, hpc', -⟩ | ⟨-, rfl, -⟩ |
      ⟨_, _, _, -, rfl, -⟩ | ⟨-, rfl, -⟩ | ⟨-, rfl, -⟩ | ⟨_, -, -, rfl, -⟩ | ⟨-, rfl, -⟩
    · cases pc' <;> first | exact id | cases hpc'
    all_goals exact id

end Moves

/-- Two transmissions, the one before the other. -/
structure Emission.Follows (a b : Emission) : Prop where
  time : a.time ≤ b.time
  phase : a.output.phase ≤ b.output.phase
  offset : ∀ x ∈ a.output.offset, ∀ y ∈ b.output.offset, a.time + y ≤ b.time + x

/-- The order of the wire, and how the main task stands to it. -/
structure Process.Scheduled (s : Process) (now : ℕ) : Prop where
  past : ∀ a ∈ s.wire, a.time ≤ now
  phase : ∀ a ∈ s.wire, a.output.phase ≤ s.main.pc.phase
  clock : ∀ a ∈ s.wire, ∀ x ∈ a.output.offset, a.time + mainClock s.main.pc ≤ s.main.since + x
  order : s.wire.Pairwise Emission.Follows
  stopped : s.main.pc.leaving → ∃ t ∈ s.stop, t ≤ s.main.since
  signal : ∀ t ∈ s.stop, t ≤ now
  goodbye : ∀ a ∈ s.wire, a.output.isGoodbye = true → ∃ t ∈ s.stop, t ≤ a.time

section Schedule

variable {launch : Launch} {config : Resolved} {ifaces : List Iface} {s s' : Process}
  {now now' : ℕ}

/-- Transmissions of the present, all of one kind. -/
theorem follows_append {wire es : List Emission} {k : ℕ} {o : Option ℕ}
    (hwire : wire.Pairwise Emission.Follows) (hpast : ∀ a ∈ wire, a.time ≤ now)
    (hphase : ∀ a ∈ wire, a.output.phase ≤ k)
    (hoffset : ∀ a ∈ wire, ∀ x ∈ a.output.offset, ∀ y ∈ o, a.time + y ≤ now + x)
    (hes : ∀ b ∈ es, b.time = now ∧ b.output.phase = k ∧ b.output.offset = o) :
    (wire ++ es).Pairwise Emission.Follows := by
  rw [List.pairwise_append]
  refine ⟨hwire, List.pairwise_of_forall_mem_list fun a ha b hb => ?_, fun a ha b hb => ?_⟩
  · obtain ⟨hta, hpa, hoa⟩ := hes a ha
    obtain ⟨htb, hpb, hob⟩ := hes b hb
    refine ⟨by rw [hta, htb], by rw [hpa, hpb], ?_⟩
    rw [hta, htb, hoa, hob]
    rintro x ⟨⟩ y ⟨⟩
    exact le_rfl
  · obtain ⟨htb, hpb, hob⟩ := hes b hb
    refine ⟨by rw [htb]; exact hpast a ha, by rw [hpb]; exact hphase a ha, ?_⟩
    rw [htb, hob]
    exact hoffset a ha

theorem Process.Scheduled.mono (h : s.Scheduled now) (hle : now ≤ now') : s.Scheduled now' where
  past a ha := (h.past a ha).trans hle
  phase := h.phase
  clock := h.clock
  order := h.order
  stopped := h.stopped
  signal t ht := (h.signal t ht).trans hle
  goodbye := h.goodbye

/-- An event of another task, once the background tasks run. -/
theorem Process.Scheduled.other (h : s.Scheduled now) (hserving : s.main.pc.serving)
    (hmain : s'.main = s.main) (hstop : s'.stop = s.stop) (es : List Emission)
    (hwire : s'.wire = s.wire ++ es)
    (hes : ∀ b ∈ es, b.time = now ∧ b.output.phase = 2 ∧ b.output.offset = none ∧
      b.output.isGoodbye = false) : s'.Scheduled now := by
  have hphase := phase_of_serving hserving
  refine ⟨?_, ?_, ?_, ?_, by rw [hmain, hstop]; exact h.stopped, by rw [hstop]; exact h.signal, ?_⟩
  · intro a ha
    rw [hwire] at ha
    rcases List.mem_append.1 ha with ha | ha
    · exact h.past a ha
    · exact (hes a ha).1.le
  · intro a ha
    rw [hwire] at ha
    rw [hmain]
    rcases List.mem_append.1 ha with ha | ha
    · exact h.phase a ha
    · rw [(hes a ha).2.1, hphase]
  · intro a ha
    rw [hwire] at ha
    rw [hmain]
    rcases List.mem_append.1 ha with ha | ha
    · exact h.clock a ha
    · rw [(hes a ha).2.2.1]
      simp
  · rw [hwire]
    refine follows_append h.order h.past (fun a ha => hphase ▸ h.phase a ha) ?_
      fun b hb => ⟨(hes b hb).1, (hes b hb).2.1, (hes b hb).2.2.1⟩
    simp
  · intro a ha hgood
    rw [hwire] at ha
    rw [hstop]
    rcases List.mem_append.1 ha with ha | ha
    · exact h.goodbye a ha hgood
    · rw [(hes a ha).2.2.2] at hgood
      cases hgood

/-- An event of the main task. -/
theorem Process.Scheduled.main {p : Published} (h : s.Scheduled now)
    (hserving : s.stop.isSome = true → s.main.pc.serving) {wire : Wire} {id : UInt16} {d : ℕ}
    {pc : MainPc} {e : Option MainEffect}
    (hmoves : (mainProgram p ifaces s.main.pc s.main.since).Moves s.stop.isSome d pc e)
    (hd : s.main.since + d ≤ now) (hmain : s'.main = ⟨pc, now⟩) (hstop : s'.stop = s.stop)
    (hwire : s'.wire = s.wire ++ e.toList.flatMap (MainEffect.emissions p now wire id)) :
    s'.Scheduled now := by
  have hphase := phase_le_of_moves hserving hmoves
  have hahead := (mainClock_virtual p ifaces).moves trivial hmoves hd
  have hnew : ∀ em ∈ e.toList.flatMap (MainEffect.emissions p now wire id), em.time = now ∧
      em.output.phase = s.main.pc.phase ∧ em.output.offset = some (mainClock s.main.pc) ∧
      (em.output.isGoodbye = true → s.main.pc.leaving) :=
    fun em hem => emission_of_moves hserving hmoves hem
  refine ⟨?_, ?_, ?_, ?_, ?_, by rw [hstop]; exact h.signal, ?_⟩
  · intro a ha
    rw [hwire] at ha
    rcases List.mem_append.1 ha with ha | ha
    · exact h.past a ha
    · exact (hnew a ha).1.le
  · intro a ha
    rw [hwire] at ha
    rw [hmain]
    rcases List.mem_append.1 ha with ha | ha
    · exact (h.phase a ha).trans hphase
    · rw [(hnew a ha).2.1]
      exact hphase
  · intro a ha x hx
    rw [hwire] at ha
    rw [hmain]
    rcases List.mem_append.1 ha with ha | ha
    · have hclock := h.clock a ha x hx
      simp only
      omega
    · obtain ⟨htime, -, hoffset, -⟩ := hnew a ha
      obtain ⟨effect, rfl⟩ : ∃ effect, e = some effect := by
        cases e with
        | none => cases ha
        | some effect => exact ⟨effect, rfl⟩
      have hzero := hmoves.eq_zero_of_effect
      have hvirtual := mainClock_virtual p ifaces trivial hmoves
      rw [hoffset] at hx
      cases hx
      simp only
      omega
  · rw [hwire]
    refine follows_append h.order h.past h.phase ?_
      fun b hb => ⟨(hnew b hb).1, (hnew b hb).2.1, (hnew b hb).2.2.1⟩
    rintro a ha x hx y ⟨⟩
    have hclock := h.clock a ha x hx
    omega
  · intro hleaving
    rw [hmain] at hleaving ⊢
    rw [hstop]
    rcases (leaving_of_moves hmoves hserving).1 hleaving with hl | hl
    · obtain ⟨t, ht, hle⟩ := h.stopped hl
      exact ⟨t, ht, by simp only; omega⟩
    · rw [hl] at hmoves
      obtain ⟨-, -, -, hs⟩ := Op.moves_await.1 hmoves
      obtain ⟨t, ht⟩ := Option.isSome_iff_exists.1 hs
      exact ⟨t, ht, h.signal t ht⟩
  · intro a ha hgood
    rw [hwire] at ha
    rw [hstop]
    rcases List.mem_append.1 ha with ha | ha
    · exact h.goodbye a ha hgood
    · obtain ⟨htime, -, -, hleaving⟩ := hnew a ha
      obtain ⟨t, ht, hle⟩ := h.stopped (hleaving hgood)
      exact ⟨t, ht, by omega⟩

/-- **One event keeps the schedule.** -/
theorem Process.Scheduled.next (h : s.Scheduled now)
    (href : s.Refines config ifaces launch.published now) (hnext : s.Next launch now s') :
    s'.Scheduled now := by
  cases hnext with
  | idle => exact h
  | main hmoves hd => exact h.main href.serving_of_stop hmoves hd rfl rfl rfl
  | browser hexit hbg hmoves hd =>
    refine h.other (href.serving.1 (by rw [hbg]; rfl)) rfl rfl _ rfl ?_
    intro b hb
    obtain ⟨effect, -, hb⟩ := List.mem_flatMap.1 hb
    cases effect with
    | encode round => cases hb
    | query iface round =>
      simp only [BrowserEffect.emissions] at hb
      split_ifs at hb
      · rw [List.mem_singleton.1 hb]
        exact ⟨rfl, rfl, rfl, rfl⟩
      · cases hb
  | evictor hexit hbg hmoves hd =>
    exact h.other (href.serving.1 (by rw [hbg]; rfl)) rfl rfl [] (List.append_nil _).symm (by simp)
  | signal hbg hstop =>
    refine ⟨h.past, h.phase, h.clock, h.order, ?_, ?_, ?_⟩
    · intro hleaving
      obtain ⟨t, ht, -⟩ := h.stopped hleaving
      rw [hstop] at ht
      cases ht
    · rintro t ⟨⟩
      exact le_rfl
    · intro a ha hgood
      obtain ⟨t, ht, -⟩ := h.goodbye a ha hgood
      rw [hstop] at ht
      cases ht
  | receive hloop hlen =>
    exact h.other (by rw [hloop]; trivial) rfl rfl [] (List.append_nil _).symm (by simp)
  | handle σ rand hexit hn =>
    exact h.other (href.serving_of_handler hn) rfl rfl [] (List.append_nil _).symm (by simp)
  | wake wire hexit hn hready =>
    refine h.other (href.serving_of_handler hn) rfl rfl _ rfl ?_
    intro b hb
    obtain ⟨resp, -, rfl⟩ := List.mem_map.1 hb
    exact ⟨rfl, rfl, rfl, rfl⟩
  | forward sockets hexit hn =>
    refine h.other (href.serving_of_handler hn) rfl rfl _ rfl ?_
    intro b hb
    obtain ⟨i, -, rfl⟩ := List.mem_map.1 hb
    exact ⟨rfl, rfl, rfl, rfl⟩

theorem scheduled_start (config : Resolved) (ifaces : List Iface) (now : ℕ) :
    (Process.start config ifaces now).Scheduled now where
  past := by simp [Process.start]
  phase := by simp [Process.start]
  clock := by simp [Process.start]
  order := List.Pairwise.nil
  stopped h := h.elim
  signal := by simp [Process.start]
  goodbye := by simp [Process.start]

end Schedule

/-- **What the daemon sends, in order.**  In every run and every interleaving of its tasks, probes
come before announcements and these before everything else.  Of two messages of the loops of the
main task, the later one comes after the waits between them: probes of an interface are 250 ms
apart, and the second round of announcements, or of goodbyes, comes one second after every message
of the first.  Goodbyes are sent only after a signal. -/
theorem emissions_scheduled (config : Resolved) (ifaces : List Iface) (launch : Launch) {t₀ : ℕ}
    {evs : List ProcessEvent} (hsorted : (t₀ :: evs.map ProcessEvent.time).Pairwise (· ≤ ·)) :
    ((Process.start config ifaces t₀).run launch evs).wire.Pairwise Emission.Follows ∧
      ∀ a ∈ ((Process.start config ifaces t₀).run launch evs).wire, a.output.isGoodbye = true →
        ∃ t ∈ ((Process.start config ifaces t₀).run launch evs).stop, t ≤ a.time := by
  obtain ⟨now, -, h⟩ := Process.run_invariant
    (I := fun s now => s.Refines config ifaces launch.published now ∧ s.Scheduled now)
    (P := fun _ _ => True) (fun _ _ _ h hle => ⟨h.1.mono hle, h.2.mono hle⟩)
    (fun _ _ _ _ h _ hnext => ⟨h.1.next hnext, h.2.next h.1 hnext⟩)
    (clocked_start config ifaces t₀)
    ⟨refines_start config ifaces launch.published t₀, scheduled_start config ifaces t₀⟩
    (Along.of_forall (fun _ _ => trivial) _ _) hsorted
  exact ⟨h.order, h.goodbye⟩

/-- The router is stopped after two seconds: a second later it has withdrawn its address twice. -/
def routerLife : List ProcessEvent :=
  routerBoot ++ ⟨fromMillis 2000, .signal⟩ ::
    [2000, 2000, 2000, 3000, 3000, 3000, 3200].map fun ms => ⟨fromMillis ms, .main wireOk 0 true⟩

theorem routerLife_sorted : (0 :: routerLife.map ProcessEvent.time).Pairwise (· ≤ ·) := by
  decide +kernel

theorem emissions_scheduled_router :
    ((Process.start routerState.config [routerIface] 0).run routerLaunch routerLife).wire.map
        (fun a => (a.time, a.output.offset)) =
      [(0, some 0), (fromMillis 250, some (fromMillis 250)),
        (fromMillis 500, some (fromMillis 500)), (fromMillis 500, some 0),
        (fromMillis 1500, some (fromSecs 1)), (fromMillis 2000, some 0),
        (fromMillis 3000, some (fromSecs 1))] ∧
      ((Process.start routerState.config [routerIface] 0).run routerLaunch
        routerLife).wire.Pairwise Emission.Follows :=
  ⟨by decide +kernel, (emissions_scheduled _ _ routerLaunch routerLife_sorted).1⟩

end Nmdns
