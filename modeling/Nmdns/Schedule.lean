import Nmdns.Engine
import Nmdns.Lib.TaskPool

/-!
# Handlers in any order

`main_loop` (`src/engine.rs`) spawns one task for each datagram, and the tasks run in any order.
The loop is a task pool over the engine.

* `Conflicts`: two calls touch a common key;
* `mainLoop_cache`: the cache is that of the datagrams handled one after the other in the order in
  which their tasks ran; it is that of the arrival order if conflicting datagrams ran in that order;
  a goodbye that is handled last is final.
-/

namespace Nmdns

/-! ### Conflicts -/

/-- Two calls touch a common key: they insert the same key, one flushes the key of the other, or one
is a sweep. -/
def Conflicts (a b : CacheEvent) : Prop :=
  match a.op, b.op with
  | .insert _ r _, .insert _ s _ => RecordKey.of r == RecordKey.of s ∨
      r.flushes (RecordKey.of s) ∨ s.flushes (RecordKey.of r)
  | _, _ => True

/-- Calls that do not conflict commute. -/
theorem entryEffect_comm {cap : Option UInt64} {k : RecordKey} {a b : CacheEvent}
    (h : ¬ Conflicts a b) (old : Option Entry) :
    entryEffect cap k (entryEffect cap k old a) b =
      entryEffect cap k (entryEffect cap k old b) a := by
  obtain ⟨t, op⟩ := a
  obtain ⟨t', op'⟩ := b
  cases op with
  | sweep => exact absurd trivial h
  | insert σ r src =>
    cases op' with
    | sweep => exact absurd trivial h
    | insert σ' s src' =>
      have hne : ¬ RecordKey.of r == RecordKey.of s := fun hc => h (Or.inl hc)
      have hrs : r.flushes (RecordKey.of s) = false :=
        Bool.not_eq_true _ ▸ fun hc => h (Or.inr (Or.inl hc))
      have hsr : s.flushes (RecordKey.of r) = false :=
        Bool.not_eq_true _ ▸ fun hc => h (Or.inr (Or.inr hc))
      simp only [entryEffect]
      -- at most one of the two inserts `k`, and then the other one does not touch it
      by_cases hkr : k == RecordKey.of r
      · have hks : ¬ k == RecordKey.of s := fun hc => hne (BEq.trans (BEq.symm hkr) hc)
        rw [← s.flushes_congr hkr] at hsr
        simp [hkr, hks, hsr]
      · by_cases hks : k == RecordKey.of s
        · rw [← r.flushes_congr hks] at hrs
          simp [hkr, hks, hrs]
        · cases hr : r.flushes k <;> cases hs : s.flushes k <;> simp [hkr, hks]

/-! ### The main loop -/

/-- `MAX_INFLIGHT_HANDLERS`. -/
def maxInflightHandlers : ℕ := 256

/-- The task that `main_loop` spawns for a datagram, with the readings of the clock it makes. -/
structure Handler where
  time : ℕ
  order : CacheOrder
  wake : ℕ
  pkt : Datagram
  wire : Wire

/-- The handling of the datagram as an event of the engine. -/
def Handler.event (h : Handler) : EngineEvent := ⟨h.time, .datagram h.order h.wake h.pkt h.wire⟩

/-- The state after the task has run. -/
def Handler.handle (parse : List UInt8 → Option Message) (p : Published) (st : State)
    (h : Handler) : State :=
  (handleDatagram parse st h.order h.time h.wake h.pkt p h.wire).state

/-- `main_loop`: a datagram becomes a pending task, and any pending task may run next. -/
def mainLoop (parse : List UInt8 → Option Message) (p : Published) (config : Resolved)
    (ifaces : List Iface) (steps : List (TaskPool.Step Handler)) : TaskPool.Pool State Handler :=
  (TaskPool.Pool.start (Engine.start config ifaces)).run (Handler.handle parse p)
    maxInflightHandlers steps

section

variable (parse : List UInt8 → Option Message) (p : Published) (config : Resolved)
  (ifaces : List Iface)

/-- The state after handling the datagrams of `tasks` one after the other. -/
def sequentially (tasks : List (ℕ × Handler)) : State :=
  Engine.run parse p (Engine.start config ifaces) (tasks.map fun task => task.2.event)

/-- The calls to the cache that the tasks make. -/
def calls (tasks : List (ℕ × Handler)) : List CacheEvent :=
  admittedInserts parse config ifaces (tasks.map fun task => task.2.event)

/-- Two datagrams conflict if some of their insertions do. -/
def Handler.Conflicts (a b : Handler) : Prop :=
  ∃ x ∈ a.event.inserts parse config ifaces, ∃ y ∈ b.event.inserts parse config ifaces,
    Nmdns.Conflicts x y

/-- The datagram carries a record with the key `k`. -/
def Handler.Mentions (h : Handler) (k : RecordKey) : Prop :=
  ∃ x ∈ h.event.inserts parse config ifaces, ∃ r ∈ x.record?, k == RecordKey.of r

/-- The last record with the key `k` that the datagram carries is a goodbye. -/
def Handler.Retracts (h : Handler) (k : RecordKey) : Prop :=
  ∃ pre x post r, h.event.inserts parse config ifaces = pre ++ x :: post ∧
    x.record? = some r ∧ k == RecordKey.of r ∧ r.ttl = 0 ∧
    ∀ y ∈ post, ∀ s ∈ y.record?, ¬ k == RecordKey.of s

/-- What a task does to the entry of the key `k`. -/
def taskEffect (k : RecordKey) (old : Option Entry) (h : Handler) : Option Entry :=
  (h.event.inserts parse config ifaces).foldl (entryEffect config.cacheMaxTtlSecs k) old

variable {parse p config ifaces}

/-- Tasks that do not conflict commute. -/
theorem taskEffect_comm {k : RecordKey} {a b : Handler}
    (h : ¬ a.Conflicts parse config ifaces b) (old : Option Entry) :
    taskEffect parse config ifaces k (taskEffect parse config ifaces k old a) b =
      taskEffect parse config ifaces k (taskEffect parse config ifaces k old b) a := by
  refine TaskPool.foldl_comm_of_forall (fun x hx y hy old => ?_) old
  exact entryEffect_comm (fun hxy => h ⟨x, hx, y, hy, hxy⟩) old

theorem foldl_calls (k : RecordKey) (tasks : List (ℕ × Handler)) (old : Option Entry) :
    (calls parse config ifaces tasks).foldl (entryEffect config.cacheMaxTtlSecs k) old =
      tasks.foldl (fun old task => taskEffect parse config ifaces k old task.2) old := by
  unfold calls admittedInserts
  rw [List.foldl_flatMap, List.foldl_map]
  rfl

/-- The keys do not depend on the order of the tasks. -/
theorem insertedKeys_perm {tasks tasks' : List (ℕ × Handler)} (h : tasks.Perm tasks') :
    insertedKeys (calls parse config ifaces tasks) =
      insertedKeys (calls parse config ifaces tasks') := by
  have hcalls : (calls parse config ifaces tasks).Perm (calls parse config ifaces tasks') :=
    (h.map _).flatMap_right _
  exact List.toFinset_eq_of_perm _ _ ((hcalls.filterMap _).map _)

/-- The cache of sequential handling, seen from one key. -/
theorem sequentially_find? (hcap : CapOk config.cacheMaxTtlSecs) {tasks : List (ℕ × Handler)}
    (hkeys : (insertedKeys (calls parse config ifaces tasks)).card ≤ max config.maxCacheEntries 1)
    (k : RecordKey) :
    (sequentially parse p config ifaces tasks).cache.byKey.find? k =
      tasks.foldl (fun old task => taskEffect parse config ifaces k old task.2) none := by
  obtain ⟨hcache, -, -⟩ := engine_run_frame parse p (Engine.start config ifaces)
    (tasks.map fun task => task.2.event)
  unfold sequentially
  rw [hcache, ← foldl_calls]
  exact find?_run_effect hcap hkeys k

/-- A goodbye is final, unless a datagram that is handled later carries the record again. -/
theorem sequentially_find?_retracted {k : RecordKey} {pre post : List (ℕ × Handler)}
    {task : ℕ × Handler} (htask : task.2.Retracts parse config ifaces k)
    (hpost : ∀ task' ∈ post, ¬ task'.2.Mentions parse config ifaces k) :
    (sequentially parse p config ifaces (pre ++ task :: post)).cache.byKey.find? k = none := by
  obtain ⟨hcache, -, -⟩ := engine_run_frame parse p (Engine.start config ifaces)
    ((pre ++ task :: post).map fun task => task.2.event)
  obtain ⟨xs, x, ys, r, hinserts, hr, hk, hz, hys⟩ := htask
  have hsplit : calls parse config ifaces (pre ++ task :: post) =
      (calls parse config ifaces pre ++ xs) ++ x :: (ys ++ calls parse config ifaces post) := by
    simp only [calls, admittedInserts, List.map_append, List.map_cons, List.flatMap_append,
      List.flatMap_cons, hinserts, List.append_assoc, List.cons_append]
  have hcalls : admittedInserts parse (Engine.start config ifaces).config
      (Engine.start config ifaces).ifaces ((pre ++ task :: post).map fun task => task.2.event) =
      calls parse config ifaces (pre ++ task :: post) := rfl
  unfold sequentially
  rw [hcache, hcalls, hsplit, cache_run_append]
  refine run_find?_eq_none (h := ys ++ calls parse config ifaces post) ?_ ?_
  · -- the goodbye itself
    obtain ⟨t, op⟩ := x
    cases op with
    | sweep => cases hr
    | insert σ r' src =>
      cases hr
      refine (insertFrom_find?_goodbye ?_ k).trans (if_pos hk)
      rw [hz]
      exact if_neg (by decide)
  · intro ev hev s hs hks
    rcases List.mem_append.1 hev with hev | hev
    · exact hys ev hev s hs hks
    · obtain ⟨e, he, hev⟩ := List.mem_flatMap.1 hev
      obtain ⟨task', htask', rfl⟩ := List.mem_map.1 he
      exact hpost task' htask' ⟨ev, hev, s, hs, hks⟩

/-- **The cache of the main loop.**  Once no task is pending, for every schedule: the datagrams that
arrived while fewer than `maxInflightHandlers` tasks were pending have been accepted, in that order,
and each has been handled once; the state is that of handling them one after the other in the order
in which their tasks ran; as long as the records fit, the cache is that of handling them in the
order of their arrival if datagrams that conflict ran in that order; and a record for which a
goodbye was handled is not cached, unless a task that ran later carries it again. -/
theorem mainLoop_cache (hcap : CapOk config.cacheMaxTtlSecs)
    {steps : List (TaskPool.Step Handler)} {P : TaskPool.Pool State Handler}
    (hP : mainLoop parse p config ifaces steps = P) (hdone : P.pending = []) :
    (P.accepted.map Prod.snd = (List.range steps.length).filterMap fun i =>
        if (mainLoop parse p config ifaces (steps.take i)).pending.length < maxInflightHandlers then
          steps[i]?.bind TaskPool.Step.received?
        else none) ∧
      P.executed.Perm P.accepted ∧
      P.state = sequentially parse p config ifaces P.executed ∧
      ((insertedKeys (calls parse config ifaces P.accepted)).card ≤ max config.maxCacheEntries 1 →
        (P.executed.Pairwise fun a b => a.2.Conflicts parse config ifaces b.2 → a.1 < b.1) →
        KeyedMap.Same P.state.cache.byKey
          (sequentially parse p config ifaces P.accepted).cache.byKey) ∧
      ∀ k pre task post, P.executed = pre ++ task :: post →
        task.2.Retracts parse config ifaces k →
        (∀ task' ∈ post, ¬ task'.2.Mentions parse config ifaces k) →
        P.state.cache.byKey.find? k = none := by
  have hsound : P.Sound (Handler.handle parse p) (Engine.start config ifaces) := by
    rw [← hP]
    exact TaskPool.Pool.sound_start.run steps
  have hperm : P.executed.Perm P.accepted := by
    have h := hsound.perm
    rwa [hdone, List.append_nil] at h
  have hstate : P.state = sequentially parse p config ifaces P.executed := by
    rw [hsound.state, sequentially, Engine.run, List.foldl_map]
    rfl
  refine ⟨?_, hperm, hstate, fun hkeys horder k => ?_, fun k pre task post hexec htask hpost => ?_⟩
  · rw [← hP]
    exact TaskPool.Pool.accepted_run _ _
  · rw [hstate, sequentially_find? hcap (insertedKeys_perm hperm ▸ hkeys),
      sequentially_find? hcap hkeys]
    have hcomm : ∀ a b : Handler, ¬ a.Conflicts parse config ifaces b → ∀ old,
        taskEffect parse config ifaces k (taskEffect parse config ifaces k old a) b =
          taskEffect parse config ifaces k (taskEffect parse config ifaces k old b) a :=
      fun _ _ => taskEffect_comm
    exact TaskPool.foldl_eq_of_reordering hcomm hperm hsound.ordered horder none
  · rw [hstate, hexec]
    exact sequentially_find?_retracted htask hpost

end

/-! ### A goodbye that overtakes the announcement -/

/-- The goodbye of the printer on the wire. -/
def printerGoodbye : List UInt8 :=
  [0, 0, 0x84, 0, 0, 0, 0, 1, 0, 0, 0, 0, 1, 112, 5, 108, 111, 99, 97, 108, 0, 0, 1, 0x80, 1,
    0, 0, 0, 0, 0, 4, 0xC0, 0xA8, 0x14, 0x32]

/-- The parser on the two messages. -/
def goodbyeParse (data : List UInt8) : Option Message :=
  if data = printerGoodbye then
    some ⟨0, .response, false, [], [{ printerAddress with ttl := 0 }], [], []⟩
  else printerParse data

/-- The tasks for the announcement of the printer at time zero and its goodbye a second later. -/
def printerTasks : List Handler :=
  [⟨0, IterOrder.id _ _, 0, ⟨printerAnnouncement, .v4 0x0A000009, 5353, .v4, some 3⟩, wireOk⟩,
    ⟨fromSecs 1, IterOrder.id _ _, fromSecs 1,
      ⟨printerGoodbye, .v4 0x0A000009, 5353, .v4, some 3⟩, wireOk⟩]

/-- The two datagrams arrive, and the tasks run in the order given. -/
def printerSchedule (order : List ℕ) : List (TaskPool.Step Handler) :=
  printerTasks.map TaskPool.Step.receive ++ order.map TaskPool.Step.exec

/-- The task of the goodbye may run first: both datagrams are handled, and the printer stays cached,
whereas handling them in the order of their arrival leaves it uncached. -/
theorem mainLoop_goodbye_overtakes :
    ∃ P, mainLoop goodbyeParse crossedPublished crossedState.config crossedState.ifaces
        (printerSchedule [1, 0]) = P ∧
      P.pending = [] ∧ P.accepted.map Prod.snd = printerTasks ∧
      (P.state.cache.byKey.find? (RecordKey.of printerAddress)).isSome = true ∧
      ((sequentially goodbyeParse crossedPublished crossedState.config crossedState.ifaces
        P.accepted).cache.byKey.find? (RecordKey.of printerAddress)).isSome = false := by
  refine ⟨_, rfl, rfl, rfl, ?_, ?_⟩ <;> decide +kernel

/-- The task of the announcement runs first: the cache is that of the arrival order, and the printer
is gone. -/
theorem mainLoop_cache_printer :
    ∃ P, mainLoop goodbyeParse crossedPublished crossedState.config crossedState.ifaces
        (printerSchedule [0, 0]) = P ∧
      P.accepted.map Prod.snd = printerTasks ∧
      KeyedMap.Same P.state.cache.byKey
        (sequentially goodbyeParse crossedPublished crossedState.config crossedState.ifaces
          P.accepted).cache.byKey ∧
      P.state.cache.byKey.find? (RecordKey.of printerAddress) = none := by
  obtain ⟨P, hP⟩ : ∃ P, mainLoop goodbyeParse crossedPublished crossedState.config
      crossedState.ifaces (printerSchedule [0, 0]) = P := ⟨_, rfl⟩
  refine ⟨P, hP, ?_⟩
  obtain ⟨haccepted, -, -, hsame, hgone⟩ := mainLoop_cache capOk_none hP (by rw [← hP]; rfl)
  subst hP
  refine ⟨haccepted.trans rfl, hsame (by decide +kernel) ?_, ?_⟩
  · refine List.pairwise_pair.2 fun _ => ?_
    decide
  · refine hgone _ [_] _ [] rfl ⟨[], _, [], _, rfl, rfl, BEq.rfl, rfl, ?_⟩ ?_
    · simp
    · simp

end Nmdns
