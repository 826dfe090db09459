import Nmdns.Network
import Nmdns.Schedule
import Nmdns.Tasks

/-!
# The daemon as a process

`src/engine.rs`: the main task, the browser, the sweeps, the watcher of the signals and the handlers
of datagrams, which run at the same time and share the state.

* `Inflight`, `Process`: the tasks, the shared state, and everything that was put on the wire;
* `ProcessOp`, `Process.step`, `Process.run`: any task that is ready may go on, at any time;
* `Process.Next`, `next_of_step`: what one event can do;
* `Process.run_invariant`: what every event keeps holds after every run.

The runtime has several threads, but here a task is one step from one suspension to the next: it
makes one reading of the clock, and no other task goes on in between.
-/

namespace Nmdns

open Async

/-! ### What is put on the wire -/

/-- A message of the daemon, or a datagram that it repeats. -/
inductive Output
  | probe (attempt : ℕ) (m : Outgoing)
  | announcement (round : ℕ) (m : Outgoing)
  | query (round : ℕ) (m : Outgoing)
  | response (probeDefense : Bool) (resp : Response)
  | goodbye (round : ℕ) (m : Outgoing)
  | forward (data : List UInt8)
  deriving DecidableEq, Repr

/-- Something that was sent on an interface. -/
structure Emission where
  time : ℕ
  iface : Iface
  output : Output
  deriving DecidableEq, Repr

/-- The message can be encoded, and some family's send succeeds. -/
def Wire.sends (wire : Wire) (iface : Iface) : Bool :=
  wire.encodeOk && iface.sendMdns wire.socketOk

/-- A message on an interface, if there is one and it can be sent. -/
def emit (now : ℕ) (iface : Iface) (wire : Wire) (make : Outgoing → Output) (m : Option Outgoing) :
    List Emission :=
  if wire.sends iface then m.toList.map fun m => ⟨now, iface, make m⟩ else []

theorem of_mem_emit {now : ℕ} {iface : Iface} {wire : Wire} {make : Outgoing → Output}
    {om : Option Outgoing} {em : Emission} (h : em ∈ emit now iface wire make om) :
    ∃ m, om = some m ∧ em = ⟨now, iface, make m⟩ := by
  unfold emit at h
  split_ifs at h
  · obtain ⟨m, hm, rfl⟩ := List.mem_map.1 h
    exact ⟨m, Option.mem_toList.1 hm, rfl⟩
  · cases h

/-! ### Handlers of datagrams -/

/-- The task of a datagram: not yet begun, waiting for the delay of its response, or about to repeat
the datagram.  It is in this state since `time`. -/
inductive Inflight
  | spawned (time : ℕ) (pkt : Datagram)
  | asleep (time : ℕ) (pkt : Datagram) (pd : Pending) (delay : ℕ)
  | forwarding (time : ℕ) (pkt : Datagram)
  deriving Repr

/-- When the handler can go on. -/
def Inflight.ready : Inflight → ℕ
  | .spawned time _ | .forwarding time _ => time
  | .asleep time _ _ delay => time + delay

/-- The response that the handler waits with. -/
def Inflight.pending? : Inflight → Option Pending
  | .asleep _ _ pd _ => some pd
  | _ => none

/-- The rest of `handle_datagram`: the datagram is repeated, if so configured. -/
def Inflight.rest (config : Resolved) (now : ℕ) (pkt : Datagram) : List Inflight :=
  if config.repeats then [.forwarding now pkt] else []

/-- `handle_datagram` up to its first suspension: the state, and what is left to do. -/
def beginDatagram (parse : List UInt8 → Option Message) (p : Published) (st : State)
    (σ : CacheOrder) (rand now : ℕ) (pkt : Datagram) : State × List Inflight :=
  if !admitted st.config st.ifaces pkt then (st, [])
  else
    let recvIdx := identifyRecvIface pkt st.ifaces
    if recvIdx.isNone && !st.config.repeats then (st, [])
    else
      match parse pkt.data with
      | none => (st, Inflight.rest st.config now pkt)
      | some msg =>
        if msg.messageType = .query then
          match recvIdx.bind fun idx => st.ifaces[idx]? with
          | none => (st, Inflight.rest st.config now pkt)
          | some arrival =>
            match prepareResponse st σ now msg arrival pkt.family p with
            | none => (st, Inflight.rest st.config now pkt)
            | some pd => (st, [.asleep now pkt pd (responseDelay pd.cls rand)])
        else (handleResponseMsg st σ now msg recvIdx, Inflight.rest st.config now pkt)

/-- **What a handler comes to before it is suspended**: it drops the datagram; it has nothing to
answer; it prepares a response; or it has ingested one. -/
theorem beginDatagram_cases (parse : List UInt8 → Option Message) (p : Published) (st : State)
    (σ : CacheOrder) (rand now : ℕ) (pkt : Datagram) :
    beginDatagram parse p st σ rand now pkt = (st, []) ∨
      admitted st.config st.ifaces pkt = true ∧
        ((∀ msg, parse pkt.data = some msg → msg.messageType = .query) ∧
            beginDatagram parse p st σ rand now pkt = (st, Inflight.rest st.config now pkt) ∨
          (∃ msg arrival pd, parse pkt.data = some msg ∧ msg.messageType = .query ∧
            arrival ∈ st.ifaces ∧ prepareResponse st σ now msg arrival pkt.family p = some pd ∧
            beginDatagram parse p st σ rand now pkt =
              (st, [.asleep now pkt pd (responseDelay pd.cls rand)])) ∨
          ∃ msg, parse pkt.data = some msg ∧ msg.messageType ≠ .query ∧
            beginDatagram parse p st σ rand now pkt =
              (handleResponseMsg st σ now msg (identifyRecvIface pkt st.ifaces),
                Inflight.rest st.config now pkt)) := by
  unfold beginDatagram
  dsimp only
  split_ifs with hadm hrecv
  · exact Or.inl rfl
  · exact Or.inl rfl
  · refine Or.inr ⟨by simpa using hadm, ?_⟩
    cases parse pkt.data with
    | none => exact Or.inl ⟨by simp, rfl⟩
    | some msg =>
      dsimp only
      split_ifs with htype
      · have hquery : ∀ msg', some msg = some msg' → msg'.messageType = .query := by
          rintro _ ⟨⟩
          exact htype
        cases harr : (identifyRecvIface pkt st.ifaces).bind fun idx => st.ifaces[idx]? with
        | none => exact Or.inl ⟨hquery, rfl⟩
        | some arrival =>
          obtain ⟨idx, -, hget⟩ := Option.bind_eq_some_iff.1 harr
          cases hprep : prepareResponse st σ now msg arrival pkt.family p with
          | none =>
            dsimp only
            rw [hprep]
            exact Or.inl ⟨hquery, rfl⟩
          | some pd =>
            dsimp only
            rw [hprep]
            exact Or.inr (Or.inl ⟨msg, arrival, pd, rfl, htype, List.mem_of_getElem? hget, hprep,
              rfl⟩)
      · exact Or.inr (Or.inr ⟨msg, rfl, htype, rfl⟩)

/-- `forward`: the datagram on each target that has a socket of its family. -/
def forwardEmissions (now : ℕ) (pkt : Datagram) (ifaces : List Iface)
    (sockets : Iface → IpFamily → Bool) : List Emission :=
  ((forwardIfaces pkt ifaces).filter fun i => i.sendMdnsOn pkt.family (sockets i)).map
    fun i => ⟨now, i, .forward pkt.data⟩

/-! ### The process -/

/-- The tasks that run in the background. -/
structure Background where
  browser : Fiber BrowserPc
  evictor : Fiber EvictorPc

/-- What the process was started with: how it reads messages and names, what it publishes, its
configuration, and the interval of the runtime. -/
structure Launch where
  parse : List UInt8 → Option Message
  fromStr : String → Option Name
  published : Published
  browse : List String
  browseIntervalSecs : UInt64
  cacheTickSecs : UInt64
  ticks : Ticks

/-- The names that the browser asks for. -/
def Launch.names (launch : Launch) : List Name := browseNames launch.fromStr launch.browse

/-- The process.  `stop` is when the shutdown token was cancelled. -/
structure Process where
  shared : State
  stop : Option ℕ
  main : Fiber MainPc
  background : Option Background
  handlers : List Inflight
  wire : List Emission

/-- The process after its setup, before it probes. -/
def Process.start (config : Resolved) (ifaces : List Iface) (now : ℕ) : Process where
  shared := Engine.start config ifaces
  stop := none
  main := ⟨.probeAll ifaces, now⟩
  background := none
  handlers := []
  wire := []

/-- Which task goes on, and the outcomes that it does not decide. -/
inductive ProcessOp
  | main (wire : Wire) (pick : ℕ) (timer : Bool)
  | browser (wire : Wire) (pick : ℕ) (timer : Bool)
  | evictor (timer : Bool)
  | signal
  | receive (pkt : Datagram)
  | handle (n : ℕ) (σ : CacheOrder) (rand : ℕ)
  | wake (n : ℕ) (wire : Wire)
  | forward (n : ℕ) (sockets : Iface → IpFamily → Bool)

/-- An operation and when it happens. -/
structure ProcessEvent where
  time : ℕ
  op : ProcessOp

/-- Whether the loop goes on: only the failed send of a probe matters. -/
def MainEffect.goesOn (wire : Wire) : MainEffect → Bool
  | .probe iface _ => !wire.encodeOk || iface.sendMdns wire.socketOk
  | _ => true

/-- What an effect of the main task puts on the wire.  `id` is random. -/
def MainEffect.emissions (p : Published) (now : ℕ) (wire : Wire) (id : UInt16) :
    MainEffect → List Emission
  | .probe iface attempt => emit now iface wire (.probe attempt) (probeMessage p iface id)
  | .announce iface round => emit now iface wire (.announcement round) (announceMessage p iface)
  | .spawn => []
  | .goodbye iface round => emit now iface wire (.goodbye round) (goodbyeMessage p)

/-- What an effect of the main task does to the rate limiter: an announcement marks its unique
records. -/
def MainEffect.marks (p : Published) (now : ℕ) (wire : Wire) (t : MulticastTracker) :
    MainEffect → MulticastTracker
  | .announce iface _ =>
    if wire.sends iface && (announceMessage p iface).isSome then
      t.markAll now iface.ifindex (p.uniqueForIface iface)
    else t
  | _ => t

/-- What a message of the browser puts on the wire. -/
def BrowserEffect.emissions (names : List Name) (now : ℕ) (wire : Wire) :
    BrowserEffect → List Emission
  | .encode _ => []
  | .query iface round =>
    if iface.sendMdns wire.socketOk then [⟨now, iface, .query round (browseMessage names)⟩] else []

namespace Process

variable (launch : Launch)

/-- The background tasks have returned; the signal watcher does so when it cancels the token. -/
def drained (s : Process) : Bool :=
  s.background.all fun bg => bg.browser.pc = .returned && bg.evictor.pc = .returned

/-- The main task goes on. -/
def stepMain (s : Process) (now : ℕ) (wire : Wire) (pick : ℕ) (timer : Bool) : Process :=
  let p := launch.published
  let (main, e) := s.main.step (mainProgram p s.shared.ifaces) s.stop.isSome now
    ⟨MainEffect.goesOn wire, pick, timer, s.drained⟩
  { s with
    main := main
    shared := { s.shared with
      mcTracker := e.elim s.shared.mcTracker (MainEffect.marks p now wire s.shared.mcTracker) }
    background := if e = some .spawn then some ⟨⟨.run, now⟩, ⟨.tick now, now⟩⟩ else s.background
    wire := s.wire ++ e.toList.flatMap (MainEffect.emissions p now wire (UInt16.ofNat pick)) }

/-- The browser goes on. -/
def stepBrowser (s : Process) (now : ℕ) (wire : Wire) (pick : ℕ) (timer : Bool) : Process :=
  match s.background with
  | none => s
  | some bg =>
    let prog := browserProgram launch.names (browseCap launch.browseIntervalSecs) s.shared.ifaces
    let (browser, e) :=
      bg.browser.step prog s.stop.isSome now ⟨fun _ => wire.encodeOk, pick, timer, false⟩
    { s with
      background := some { bg with browser := browser }
      wire := s.wire ++ e.toList.flatMap (BrowserEffect.emissions launch.names now wire) }

/-- The evictor goes on. -/
def stepEvictor (s : Process) (now : ℕ) (timer : Bool) : Process :=
  match s.background with
  | none => s
  | some bg =>
    let prog := evictorProgram launch.ticks (sweepPeriod launch.cacheTickSecs)
    let (evictor, e) := bg.evictor.step prog s.stop.isSome now ⟨fun _ => true, 0, timer, false⟩
    { s with
      background := some { bg with evictor := evictor }
      shared := if e.isSome then s.shared.sweep now else s.shared }

/-- A datagram is received.  It is dropped if too many handlers are in flight. -/
def receive (s : Process) (now : ℕ) (pkt : Datagram) : Process :=
  if s.main.pc = .mainLoop ∧ s.handlers.length < maxInflightHandlers then
    { s with handlers := s.handlers ++ [.spawned now pkt] }
  else s

/-- The `n`-th handler begins. -/
def handle (s : Process) (now n : ℕ) (σ : CacheOrder) (rand : ℕ) : Process :=
  match s.handlers[n]? with
  | some (.spawned _ pkt) =>
    let (st, rest) := beginDatagram launch.parse launch.published s.shared σ rand now pkt
    { s with shared := st, handlers := s.handlers.eraseIdx n ++ rest }
  | _ => s

/-- The `n`-th handler wakes up, and responds. -/
def wake (s : Process) (now n : ℕ) (wire : Wire) : Process :=
  match s.handlers[n]? with
  | some (.asleep time pkt pd delay) =>
    if time + delay ≤ now then
      let (t, resp) := pd.respond s.shared.mcTracker now wire
      { s with
        shared := { s.shared with mcTracker := t }
        handlers := s.handlers.eraseIdx n ++ Inflight.rest s.shared.config now pkt
        wire := s.wire ++
          resp.toList.map fun resp => ⟨now, pd.arrival, .response pd.probeDefense resp⟩ }
    else s
  | _ => s

/-- The `n`-th handler repeats its datagram, and ends. -/
def forward (s : Process) (now n : ℕ) (sockets : Iface → IpFamily → Bool) : Process :=
  match s.handlers[n]? with
  | some (.forwarding _ pkt) =>
    { s with
      handlers := s.handlers.eraseIdx n
      wire := s.wire ++ forwardEmissions now pkt s.shared.ifaces sockets }
  | _ => s

/-- One event: a task goes on to its next suspension.  Nothing happens after the main task has
returned. -/
def step (s : Process) (ev : ProcessEvent) : Process :=
  if s.main.pc = .exited then s
  else
    match ev.op with
    | .main wire pick timer => s.stepMain launch ev.time wire pick timer
    | .browser wire pick timer => s.stepBrowser launch ev.time wire pick timer
    | .evictor timer => s.stepEvictor launch ev.time timer
    | .signal =>
      -- the signals are watched by a task that is spawned with the others
      if s.background.isSome && s.stop.isNone then { s with stop := some ev.time } else s
    | .receive pkt => s.receive ev.time pkt
    | .handle n σ rand => s.handle launch ev.time n σ rand
    | .wake n wire => s.wake ev.time n wire
    | .forward n sockets => s.forward ev.time n sockets

/-- Any sequence of events. -/
def run (s : Process) (evs : List ProcessEvent) : Process := evs.foldl (step launch) s

end Process

/-! ### One event -/

/-- No task has gone on, and no handler was spawned, after `now`. -/
structure Process.Clocked (s : Process) (now : ℕ) : Prop where
  main : s.main.since ≤ now
  background : ∀ bg ∈ s.background, bg.browser.since ≤ now ∧ bg.evictor.since ≤ now

/-- **What one event can do.** -/
inductive Process.Next (launch : Launch) (s : Process) (now : ℕ) : Process → Prop
  | idle : Next launch s now s
  | main {wire : Wire} {id : UInt16} {d : ℕ} {pc : MainPc} {e : Option MainEffect}
      (hmoves : (mainProgram launch.published s.shared.ifaces s.main.pc s.main.since).Moves
        s.stop.isSome d pc e)
      (hd : s.main.since + d ≤ now) :
      Next launch s now { s with
        main := ⟨pc, now⟩
        shared := { s.shared with
          mcTracker := e.elim s.shared.mcTracker
            (MainEffect.marks launch.published now wire s.shared.mcTracker) }
        background :=
          if e = some .spawn then some ⟨⟨.run, now⟩, ⟨.tick now, now⟩⟩ else s.background
        wire := s.wire ++ e.toList.flatMap (MainEffect.emissions launch.published now wire id) }
  | browser {bg : Background} {wire : Wire} {d : ℕ} {pc : BrowserPc} {e : Option BrowserEffect}
      (hexit : s.main.pc ≠ .exited) (hbg : s.background = some bg)
      (hmoves : (browserProgram launch.names (browseCap launch.browseIntervalSecs) s.shared.ifaces
        bg.browser.pc bg.browser.since).Moves s.stop.isSome d pc e)
      (hd : bg.browser.since + d ≤ now) :
      Next launch s now { s with
        background := some { bg with browser := ⟨pc, now⟩ }
        wire := s.wire ++ e.toList.flatMap (BrowserEffect.emissions launch.names now wire) }
  | evictor {bg : Background} {d : ℕ} {pc : EvictorPc} {e : Option Unit}
      (hexit : s.main.pc ≠ .exited) (hbg : s.background = some bg)
      (hmoves : (evictorProgram launch.ticks (sweepPeriod launch.cacheTickSecs)
        bg.evictor.pc bg.evictor.since).Moves s.stop.isSome d pc e)
      (hd : bg.evictor.since + d ≤ now) :
      Next launch s now { s with
        background := some { bg with evictor := ⟨pc, now⟩ }
        shared := if e.isSome then s.shared.sweep now else s.shared }
  | signal (hbg : s.background.isSome = true) (hstop : s.stop = none) :
      Next launch s now { s with stop := some now }
  | receive {pkt : Datagram} (hloop : s.main.pc = .mainLoop)
      (hlen : s.handlers.length < maxInflightHandlers) :
      Next launch s now { s with handlers := s.handlers ++ [.spawned now pkt] }
  | handle {n time : ℕ} {pkt : Datagram} (σ : CacheOrder) (rand : ℕ)
      (hexit : s.main.pc ≠ .exited) (hn : s.handlers[n]? = some (.spawned time pkt)) :
      Next launch s now { s with
        shared := (beginDatagram launch.parse launch.published s.shared σ rand now pkt).1
        handlers := s.handlers.eraseIdx n ++
          (beginDatagram launch.parse launch.published s.shared σ rand now pkt).2 }
  | wake {n time delay : ℕ} {pkt : Datagram} {pd : Pending} (wire : Wire)
      (hexit : s.main.pc ≠ .exited) (hn : s.handlers[n]? = some (.asleep time pkt pd delay))
      (hready : time + delay ≤ now) :
      Next launch s now { s with
        shared := { s.shared with mcTracker := (pd.respond s.shared.mcTracker now wire).1 }
        handlers := s.handlers.eraseIdx n ++ Inflight.rest s.shared.config now pkt
        wire := s.wire ++ (pd.respond s.shared.mcTracker now wire).2.toList.map fun resp =>
          ⟨now, pd.arrival, .response pd.probeDefense resp⟩ }
  | forward {n time : ℕ} {pkt : Datagram} (sockets : Iface → IpFamily → Bool)
      (hexit : s.main.pc ≠ .exited) (hn : s.handlers[n]? = some (.forwarding time pkt)) :
      Next launch s now { s with
        handlers := s.handlers.eraseIdx n
        wire := s.wire ++ forwardEmissions now pkt s.shared.ifaces sockets }

section Next

variable {launch : Launch} {s s' : Process} {now : ℕ}

theorem next_stepMain (h : s.Clocked now) (wire : Wire) (pick : ℕ) (timer : Bool) :
    s.Next launch now (s.stepMain launch now wire pick timer) := by
  unfold Process.stepMain
  rcases s.main.step_cases (mainProgram launch.published s.shared.ifaces) s.stop.isSome
    ⟨MainEffect.goesOn wire, pick, timer, s.drained⟩ h.main with heq | ⟨d, pc, e, hmoves, hd, heq⟩
  · simp only [heq, Option.elim_none, reduceCtorEq, if_false, Option.toList_none,
      List.flatMap_nil, List.append_nil]
    exact .idle
  · simp only [heq]
    exact .main hmoves hd

theorem next_stepBrowser (h : s.Clocked now) (hexit : s.main.pc ≠ .exited) (wire : Wire)
    (pick : ℕ) (timer : Bool) : s.Next launch now (s.stepBrowser launch now wire pick timer) := by
  unfold Process.stepBrowser
  cases hbg : s.background with
  | none => exact .idle
  | some bg =>
    have hle := (h.background bg hbg).1
    rcases bg.browser.step_cases (browserProgram launch.names
      (browseCap launch.browseIntervalSecs) s.shared.ifaces) s.stop.isSome
      ⟨fun _ => wire.encodeOk, pick, timer, false⟩ hle with heq | ⟨d, pc, e, hmoves, hd, heq⟩
    · simp only [heq, Option.toList_none, List.flatMap_nil, List.append_nil, ← hbg]
      exact .idle
    · simp only [heq]
      exact .browser hexit hbg hmoves hd

theorem next_stepEvictor (h : s.Clocked now) (hexit : s.main.pc ≠ .exited) (timer : Bool) :
    s.Next launch now (s.stepEvictor launch now timer) := by
  unfold Process.stepEvictor
  cases hbg : s.background with
  | none => exact .idle
  | some bg =>
    have hle := (h.background bg hbg).2
    rcases bg.evictor.step_cases (evictorProgram launch.ticks
      (sweepPeriod launch.cacheTickSecs)) s.stop.isSome ⟨fun _ => true, 0, timer, false⟩ hle with
      heq | ⟨d, pc, e, hmoves, hd, heq⟩
    · simp only [heq, Option.isSome_none, Bool.false_eq_true, if_false, ← hbg]
      exact .idle
    · simp only [heq]
      exact .evictor hexit hbg hmoves hd

theorem next_of_step {ev : ProcessEvent} (h : s.Clocked ev.time) :
    s.Next launch ev.time (s.step launch ev) := by
  unfold Process.step
  by_cases hexit : s.main.pc = .exited
  · rw [if_pos hexit]
    exact .idle
  · rw [if_neg hexit]
    cases ev.op with
    | main wire pick timer => exact next_stepMain h wire pick timer
    | browser wire pick timer => exact next_stepBrowser h hexit wire pick timer
    | evictor timer => exact next_stepEvictor h hexit timer
    | signal =>
      dsimp only
      split_ifs with hsig
      · rw [Bool.and_eq_true, Option.isNone_iff_eq_none] at hsig
        exact .signal hsig.1 hsig.2
      · exact .idle
    | receive pkt =>
      dsimp only [Process.receive]
      split_ifs with hrecv
      · exact .receive hrecv.1 hrecv.2
      · exact .idle
    | handle n σ rand =>
      dsimp only [Process.handle]
      split
      · rename_i time pkt hn
        exact .handle σ rand hexit hn
      · exact .idle
    | wake n wire =>
      dsimp only [Process.wake]
      split
      · rename_i time pkt pd delay hn
        split_ifs with hready
        · exact .wake wire hexit hn hready
        · exact .idle
      · exact .idle
    | forward n sockets =>
      dsimp only [Process.forward]
      split
      · rename_i time pkt hn
        exact .forward sockets hexit hn
      · exact .idle

theorem mem_rest {config : Resolved} {pkt : Datagram} {x : Inflight}
    (hx : x ∈ Inflight.rest config now pkt) : x = .forwarding now pkt := by
  unfold Inflight.rest at hx
  split_ifs at hx
  · exact List.mem_singleton.1 hx
  · cases hx

/-- What is left to do after the first suspension of a handler. -/
theorem mem_beginDatagram {parse : List UInt8 → Option Message} {p : Published} {st : State}
    {σ : CacheOrder} {rand : ℕ} {pkt : Datagram} {x : Inflight}
    (hx : x ∈ (beginDatagram parse p st σ rand now pkt).2) :
    (∃ pd, x = .asleep now pkt pd (responseDelay pd.cls rand)) ∨ x = .forwarding now pkt := by
  rcases beginDatagram_cases parse p st σ rand now pkt with
    heq | ⟨-, ⟨-, heq⟩ | ⟨msg, arrival, pd, -, -, -, -, heq⟩ | ⟨msg, -, -, heq⟩⟩
  · rw [heq] at hx
    cases hx
  · rw [heq] at hx
    exact Or.inr (mem_rest hx)
  · rw [heq] at hx
    exact Or.inl ⟨pd, List.mem_singleton.1 hx⟩
  · rw [heq] at hx
    exact Or.inr (mem_rest hx)

/-- Handlers are spawned for datagrams that are received. -/
theorem spawned_of_step {ev : ProcessEvent} {t : ℕ} {pkt : Datagram}
    (ht : .spawned t pkt ∈ (s.step launch ev).handlers) :
    .spawned t pkt ∈ s.handlers ∨ t = ev.time ∧ ev.op = .receive pkt := by
  obtain ⟨now, op⟩ := ev
  unfold Process.step at ht
  by_cases hexit : s.main.pc = .exited
  · rw [if_pos hexit] at ht
    exact Or.inl ht
  · rw [if_neg hexit] at ht
    cases op with
    | main wire pick timer => exact Or.inl ht
    | browser wire pick timer =>
      dsimp only [Process.stepBrowser] at ht
      split at ht <;> exact Or.inl ht
    | evictor timer =>
      dsimp only [Process.stepEvictor] at ht
      split at ht <;> exact Or.inl ht
    | signal =>
      dsimp only at ht
      split_ifs at ht <;> exact Or.inl ht
    | receive pkt' =>
      dsimp only [Process.receive] at ht
      split_ifs at ht
      · rcases List.mem_append.1 ht with ht | ht
        · exact Or.inl ht
        · cases List.mem_singleton.1 ht
          exact Or.inr ⟨rfl, rfl⟩
      · exact Or.inl ht
    | handle n σ rand =>
      dsimp only [Process.handle] at ht
      split at ht
      · rcases List.mem_append.1 ht with ht | ht
        · exact Or.inl (List.mem_of_mem_eraseIdx ht)
        · rcases mem_beginDatagram ht with ⟨pd, hx⟩ | hx <;> cases hx
      · exact Or.inl ht
    | wake n wire =>
      dsimp only [Process.wake] at ht
      split at ht
      · split_ifs at ht
        · rcases List.mem_append.1 ht with ht | ht
          · exact Or.inl (List.mem_of_mem_eraseIdx ht)
          · cases mem_rest ht
        · exact Or.inl ht
      · exact Or.inl ht
    | forward n sockets =>
      dsimp only [Process.forward] at ht
      split at ht
      · exact Or.inl (List.mem_of_mem_eraseIdx ht)
      · exact Or.inl ht

theorem Process.Clocked.mono {now' : ℕ} (h : s.Clocked now) (hle : now ≤ now') : s.Clocked now' :=
  ⟨h.main.trans hle, fun bg hbg =>
    ⟨(h.background bg hbg).1.trans hle, (h.background bg hbg).2.trans hle⟩⟩

theorem Process.Next.clocked (hnext : s.Next launch now s') (h : s.Clocked now) :
    s'.Clocked now := by
  cases hnext with
  | idle => exact h
  | main hmoves hd =>
    refine ⟨le_rfl, ?_⟩
    intro bg hbg
    dsimp only at hbg
    split_ifs at hbg with hspawn
    · cases hbg
      exact ⟨le_rfl, le_rfl⟩
    · exact h.background bg hbg
  | browser hexit hbg hmoves hd =>
    refine ⟨h.main, ?_⟩
    rintro _ ⟨⟩
    exact ⟨le_rfl, (h.background _ hbg).2⟩
  | evictor hexit hbg hmoves hd =>
    refine ⟨h.main, ?_⟩
    rintro _ ⟨⟩
    exact ⟨(h.background _ hbg).1, le_rfl⟩
  | signal hbg hstop => exact ⟨h.main, h.background⟩
  | receive hloop hlen => exact ⟨h.main, h.background⟩
  | handle σ rand hexit hn => exact ⟨h.main, h.background⟩
  | wake wire hexit hn hready => exact ⟨h.main, h.background⟩
  | forward sockets hexit hn => exact ⟨h.main, h.background⟩

/-- **Invariants of runs**: what every event keeps holds after every run, also when only events are
taken before which `P` holds. -/
theorem Process.run_invariant {I : Process → ℕ → Prop} {P : Process → ProcessEvent → Prop}
    (hmono : ∀ s now now', I s now → now ≤ now' → I s now')
    (hnext : ∀ s s' ev, s.Clocked ev.time → I s ev.time → P s ev → s.Next launch ev.time s' →
      I s' ev.time)
    {evs : List ProcessEvent} (hclock : s.Clocked now) (h : I s now)
    (hP : Along (Process.step launch) P s evs)
    (hsorted : (now :: evs.map ProcessEvent.time).Pairwise (· ≤ ·)) :
    ∃ now', I (s.run launch evs) now' := by
  have hstep : ∀ s now (ev : ProcessEvent), (s.Clocked now ∧ I s now) → now ≤ ev.time → P s ev →
      (s.step launch ev).Clocked ev.time ∧ I (s.step launch ev) ev.time := by
    intro s now ev hI hle hPs
    have hclock := hI.1.mono hle
    have hnew : s.Next launch ev.time (s.step launch ev) := next_of_step hclock
    exact ⟨hnew.clocked hclock, hnext s _ ev hclock (hmono s now _ hI.2 hle) hPs hnew⟩
  exact ⟨_, (hP.invariant hstep ⟨hclock, h⟩ hsorted).2⟩

end Next

end Nmdns
