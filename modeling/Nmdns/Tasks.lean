import Nmdns.Lib.Async
import Nmdns.Outgoing

/-!
# The tasks of the daemon

The program of each long-running task, with its sleeps and its tests of the shutdown token.

* `mainProgram`: `engine::run` after the setup, with `probe_all`, `announce_all` and
  `announce_goodbye` of `src/responder.rs`;
* `browserProgram`, `nextBackoff`: `src/browser.rs`;
* `Ticks`, `evictorProgram`: `cache_evictor`, for any interval whose ticks come a period apart at
  most; `Ticks.skip` skips the ones that were missed;
* `startup_moves`, `serving_moves`: the moves of the main task;
* `mainClock_virtual`, `browserClock_virtual`: how much time the programs let pass at least;
* `shutdownBudget_spec`: how much time the shutdown takes at most.
-/

namespace Nmdns

open Async

/-! ### The main task -/

/-- `PROBE_INTERVAL`. -/
def probeInterval : ℕ := fromMillis 250

/-- How long the main task waits for the background tasks before it returns. -/
def drainLimit : ℕ := fromMillis 200

/-- The control states of `engine::run`, with the interfaces that are left in a loop. -/
inductive MainPc
  /-- The head of the loop of `probe_all`. -/
  | probeAll (todo : List Iface)
  | probeDelay (iface : Iface) (todo : List Iface) (d : ℕ)
  | probe (iface : Iface) (todo : List Iface) (attempt : ℕ)
  | probePause (iface : Iface) (todo : List Iface) (attempt : ℕ)
  | announceAll (round : ℕ) (todo : List Iface)
  | announceGap
  | spawn
  | mainLoop
  | announceGoodbye (round : ℕ) (todo : List Iface)
  | goodbyeGap
  /-- The background tasks are given a little time to end. -/
  | drain
  | exited
  deriving DecidableEq, Repr

/-- What the main task does to the rest. -/
inductive MainEffect
  | probe (iface : Iface) (attempt : ℕ)
  | announce (iface : Iface) (round : ℕ)
  | spawn
  | goodbye (iface : Iface) (round : ℕ)
  deriving DecidableEq, Repr

/-- `engine::run`, from its first `await`. -/
def mainProgram (p : Published) (ifaces : List Iface) : Program MainPc MainEffect
  | .probeAll [], _ => .jump (.announceAll 0 ifaces)
  | .probeAll (i :: todo), _ =>
    if (p.uniqueForIface i).isEmpty then .jump (.probeAll todo)
    else .draw 0 250 fun ms => .probeDelay i todo (fromMillis ms)
  | .probeDelay i todo d, _ => .sleep d (.probe i todo 0)
  | .probe i todo attempt, _ =>
    -- a failed send ends the probing of the interface
    .act (.probe i attempt) fun ok => if ok then .probePause i todo attempt else .probeAll todo
  | .probePause i todo attempt, _ =>
    if attempt < 2 then .sleep probeInterval (.probe i todo (attempt + 1))
    else .jump (.probeAll todo)
  | .announceAll round [], _ => if round = 0 then .jump .announceGap else .jump .spawn
  | .announceAll round (i :: todo), _ => .act (.announce i round) fun _ => .announceAll round todo
  | .announceGap, _ => .select announceGap (.announceAll 1 ifaces) .spawn
  | .spawn, _ => .act .spawn fun _ => .mainLoop
  | .mainLoop, _ =>
    -- `announce_goodbye` returns at once if there is nothing to withdraw
    .await (if (goodbye p).isEmpty then .drain else .announceGoodbye 0 ifaces)
  | .announceGoodbye round [], _ => if round = 0 then .jump .goodbyeGap else .jump .drain
  | .announceGoodbye round (i :: todo), _ =>
    .act (.goodbye i round) fun _ => .announceGoodbye round todo
  | .goodbyeGap, _ => .sleep announceGap (.announceGoodbye 1 ifaces)
  | .drain, _ => .timeout drainLimit .exited
  | .exited, _ => .done

/-- The time that the loops of the main task have let pass since their first transmission. -/
def mainClock : MainPc → ℕ
  | .probe _ _ attempt | .probePause _ _ attempt => attempt * probeInterval
  | .announceAll round _ | .announceGoodbye round _ => round * announceGap
  | _ => 0

theorem mainClock_virtual (p : Published) (ifaces : List Iface) :
    VirtualClock (mainProgram p ifaces) (fun _ => True) mainClock := by
  intro stopped pc since d pc' e _ h
  cases pc with
  | probeAll todo =>
    cases todo with
    | nil =>
      obtain ⟨-, rfl, -⟩ := Op.moves_jump.1 h
      simp [mainClock]
    | cons i todo =>
      simp only [mainProgram] at h
      split_ifs at h
      · obtain ⟨-, rfl, -⟩ := Op.moves_jump.1 h
        simp [mainClock]
      · obtain ⟨-, ⟨n, -, -, rfl⟩, -⟩ := Op.moves_draw.1 h
        simp [mainClock]
  | probeDelay i todo d =>
    obtain ⟨-, rfl, -⟩ := Op.moves_sleep.1 h
    simp [mainClock]
  | probe i todo attempt =>
    obtain ⟨-, ⟨ok, rfl⟩, -⟩ := Op.moves_act.1 h
    cases ok <;> simp [mainClock]
  | probePause i todo attempt =>
    simp only [mainProgram] at h
    split_ifs at h
    · obtain ⟨rfl, rfl, -⟩ := Op.moves_sleep.1 h
      simp only [mainClock, Nat.succ_mul, le_refl]
    · obtain ⟨-, rfl, -⟩ := Op.moves_jump.1 h
      simp [mainClock]
  | announceAll round todo | announceGoodbye round todo =>
    cases todo with
    | nil =>
      simp only [mainProgram] at h
      split_ifs at h <;> obtain ⟨-, rfl, -⟩ := Op.moves_jump.1 h <;> simp [mainClock]
    | cons i todo =>
      obtain ⟨-, ⟨ok, rfl⟩, -⟩ := Op.moves_act.1 h
      simp [mainClock]
  | announceGap =>
    obtain ⟨⟨rfl, rfl⟩ | ⟨-, rfl, -⟩, -⟩ := Op.moves_select.1 h <;> simp [mainClock]
  | spawn =>
    obtain ⟨-, ⟨ok, rfl⟩, -⟩ := Op.moves_act.1 h
    simp [mainClock]
  | mainLoop =>
    obtain ⟨-, rfl, -⟩ := Op.moves_await.1 h
    split_ifs <;> simp [mainClock]
  | goodbyeGap =>
    obtain ⟨rfl, rfl, -⟩ := Op.moves_sleep.1 h
    simp [mainClock]
  | drain =>
    obtain ⟨-, rfl, -⟩ := Op.moves_timeout.1 h
    simp [mainClock]
  | exited => exact absurd h Op.moves_done

/-- The interfaces that are left in a loop of the main task. -/
def MainPc.ifaces : MainPc → List Iface
  | .probeAll todo | .announceAll _ todo | .announceGoodbye _ todo => todo
  | .probeDelay i todo _ | .probe i todo _ | .probePause i todo _ => i :: todo
  | _ => []

/-- The interface of a message of the main task. -/
def MainEffect.iface? : MainEffect → Option Iface
  | .probe i _ | .announce i _ | .goodbye i _ => some i
  | .spawn => none

/-- The main task goes over the interfaces of the daemon. -/
theorem mainIfaces_moves {p : Published} {ifaces : List Iface} {stopped : Bool} {pc pc' : MainPc}
    {since d : ℕ} {e : Option MainEffect} (hpc : pc.ifaces ⊆ ifaces)
    (h : (mainProgram p ifaces pc since).Moves stopped d pc' e) :
    pc'.ifaces ⊆ ifaces ∧ ∀ effect ∈ e, ∀ i ∈ effect.iface?, i ∈ ifaces := by
  have hnil : ([] : List Iface) ⊆ ifaces := List.nil_subset _
  cases pc with
  | probeAll todo =>
    cases todo with
    | nil =>
      obtain ⟨-, rfl, rfl⟩ := Op.moves_jump.1 h
      exact ⟨List.Subset.refl _, by simp⟩
    | cons i todo =>
      simp only [mainProgram] at h
      split_ifs at h
      · obtain ⟨-, rfl, rfl⟩ := Op.moves_jump.1 h
        exact ⟨List.subset_of_cons_subset hpc, by simp⟩
      · obtain ⟨-, ⟨n, -, -, rfl⟩, rfl⟩ := Op.moves_draw.1 h
        exact ⟨hpc, by simp⟩
  | probeDelay i todo d =>
    obtain ⟨-, rfl, rfl⟩ := Op.moves_sleep.1 h
    exact ⟨hpc, by simp⟩
  | probe i todo attempt =>
    obtain ⟨-, ⟨ok, rfl⟩, rfl⟩ := Op.moves_act.1 h
    refine ⟨?_, by simpa [MainEffect.iface?] using hpc List.mem_cons_self⟩
    cases ok with
    | true => exact hpc
    | false => exact List.subset_of_cons_subset hpc
  | probePause i todo attempt =>
    simp only [mainProgram] at h
    split_ifs at h
    · obtain ⟨-, rfl, rfl⟩ := Op.moves_sleep.1 h
      exact ⟨hpc, by simp⟩
    · obtain ⟨-, rfl, rfl⟩ := Op.moves_jump.1 h
      exact ⟨List.subset_of_cons_subset hpc, by simp⟩
  | announceAll round todo | announceGoodbye round todo =>
    cases todo with
    | nil =>
      simp only [mainProgram] at h
      split_ifs at h <;> obtain ⟨-, rfl, rfl⟩ := Op.moves_jump.1 h <;> exact ⟨hnil, by simp⟩
    | cons i todo =>
      obtain ⟨-, ⟨ok, rfl⟩, rfl⟩ := Op.moves_act.1 h
      exact ⟨List.subset_of_cons_subset hpc,
        by simpa [MainEffect.iface?] using hpc List.mem_cons_self⟩
  | announceGap =>
    obtain ⟨⟨-, rfl⟩ | ⟨-, rfl, -⟩, rfl⟩ := Op.moves_select.1 h
    · exact ⟨List.Subset.refl _, by simp⟩
    · exact ⟨hnil, by simp⟩
  | spawn =>
    obtain ⟨-, ⟨ok, rfl⟩, rfl⟩ := Op.moves_act.1 h
    exact ⟨hnil, by simp [MainEffect.iface?]⟩
  | mainLoop =>
    obtain ⟨-, rfl, rfl, -⟩ := Op.moves_await.1 h
    refine ⟨?_, by simp⟩
    split_ifs
    · exact hnil
    · exact List.Subset.refl _
  | goodbyeGap =>
    obtain ⟨-, rfl, rfl⟩ := Op.moves_sleep.1 h
    exact ⟨List.Subset.refl _, by simp⟩
  | drain =>
    obtain ⟨-, rfl, rfl⟩ := Op.moves_timeout.1 h
    exact ⟨hnil, by simp⟩
  | exited => exact absurd h Op.moves_done

/-- The main task is in `probe_all`. -/
def MainPc.probing : MainPc → Prop
  | .probeAll _ | .probeDelay _ _ _ | .probe _ _ _ | .probePause _ _ _ => True
  | _ => False

/-- The background tasks run, and the main loop may be left. -/
def MainPc.serving : MainPc → Prop
  | .mainLoop | .announceGoodbye _ _ | .goodbyeGap | .drain | .exited => True
  | _ => False

section Moves

variable {p : Published} {ifaces : List Iface} {stopped : Bool} {pc pc' : MainPc} {since d : ℕ}
  {e : Option MainEffect}

/-- **What the main task does before the background tasks run.** -/
theorem startup_moves (hstart : ¬ pc.serving) (hrun : stopped = false)
    (h : (mainProgram p ifaces pc since).Moves stopped d pc' e) :
    (pc.probing ∧ pc'.probing ∧ (e = none ∨ ∃ i todo attempt, pc = .probe i todo attempt ∧
        e = some (.probe i attempt))) ∨
      (pc = .probeAll [] ∧ pc' = .announceAll 0 ifaces ∧ e = none) ∨
      (∃ round i todo, pc = .announceAll round (i :: todo) ∧ pc' = .announceAll round todo ∧
        e = some (.announce i round)) ∨
      (pc = .announceAll 0 [] ∧ pc' = .announceGap ∧ e = none) ∨
      (pc = .announceGap ∧ pc' = .announceAll 1 ifaces ∧ e = none) ∨
      (∃ round, round ≠ 0 ∧ pc = .announceAll round [] ∧ pc' = .spawn ∧ e = none) ∨
      pc = .spawn ∧ pc' = .mainLoop ∧ e = some .spawn := by
  cases pc with
  | probeAll todo =>
    cases todo with
    | nil =>
      obtain ⟨-, rfl, rfl⟩ := Op.moves_jump.1 h
      exact Or.inr (Or.inl ⟨rfl, rfl, rfl⟩)
    | cons i todo =>
      simp only [mainProgram] at h
      split_ifs at h
      · obtain ⟨-, rfl, rfl⟩ := Op.moves_jump.1 h
        exact Or.inl ⟨trivial, trivial, Or.inl rfl⟩
      · obtain ⟨-, ⟨n, -, -, rfl⟩, rfl⟩ := Op.moves_draw.1 h
        exact Or.inl ⟨trivial, trivial, Or.inl rfl⟩
  | probeDelay i todo d =>
    obtain ⟨-, rfl, rfl⟩ := Op.moves_sleep.1 h
    exact Or.inl ⟨trivial, trivial, Or.inl rfl⟩
  | probe i todo attempt =>
    obtain ⟨-, ⟨ok, rfl⟩, rfl⟩ := Op.moves_act.1 h
    refine Or.inl ⟨trivial, ?_, Or.inr ⟨i, todo, attempt, rfl, rfl⟩⟩
    cases ok <;> trivial
  | probePause i todo attempt =>
    simp only [mainProgram] at h
    split_ifs at h
    · obtain ⟨-, rfl, rfl⟩ := Op.moves_sleep.1 h
      exact Or.inl ⟨trivial, trivial, Or.inl rfl⟩
    · obtain ⟨-, rfl, rfl⟩ := Op.moves_jump.1 h
      exact Or.inl ⟨trivial, trivial, Or.inl rfl⟩
  | announceAll round todo =>
    cases todo with
    | nil =>
      simp only [mainProgram] at h
      split_ifs at h with hround
      · obtain ⟨-, rfl, rfl⟩ := Op.moves_jump.1 h
        rw [hround]
        exact Or.inr (Or.inr (Or.inr (Or.inl ⟨rfl, rfl, rfl⟩)))
      · obtain ⟨-, rfl, rfl⟩ := Op.moves_jump.1 h
        exact Or.inr (Or.inr (Or.inr (Or.inr (Or.inr (Or.inl ⟨round, hround, rfl, rfl, rfl⟩)))))
    | cons i todo =>
      obtain ⟨-, ⟨ok, rfl⟩, rfl⟩ := Op.moves_act.1 h
      exact Or.inr (Or.inr (Or.inl ⟨round, i, todo, rfl, rfl, rfl⟩))
  | announceGap =>
    obtain ⟨⟨-, rfl⟩ | ⟨-, -, hs⟩, rfl⟩ := Op.moves_select.1 h
    · exact Or.inr (Or.inr (Or.inr (Or.inr (Or.inl ⟨rfl, rfl, rfl⟩))))
    · rw [hrun] at hs
      cases hs
  | spawn =>
    obtain ⟨-, ⟨ok, rfl⟩, rfl⟩ := Op.moves_act.1 h
    exact Or.inr (Or.inr (Or.inr (Or.inr (Or.inr (Or.inr ⟨rfl, rfl, rfl⟩)))))
  | mainLoop | announceGoodbye _ _ | goodbyeGap | drain | exited => exact absurd trivial hstart

/-- **What the main task does once the background tasks run.** -/
theorem serving_moves (hinv : pc.serving)
    (h : (mainProgram p ifaces pc since).Moves stopped d pc' e) :
    (pc = .mainLoop ∧ stopped = true ∧ e = none ∧
        pc' = if (goodbye p).isEmpty then .drain else .announceGoodbye 0 ifaces) ∨
      (∃ round i todo, pc = .announceGoodbye round (i :: todo) ∧
        pc' = .announceGoodbye round todo ∧ e = some (.goodbye i round)) ∨
      (pc = .announceGoodbye 0 [] ∧ pc' = .goodbyeGap ∧ e = none) ∨
      (∃ round, round ≠ 0 ∧ pc = .announceGoodbye round [] ∧ pc' = .drain ∧ e = none) ∨
      (pc = .goodbyeGap ∧ pc' = .announceGoodbye 1 ifaces ∧ e = none) ∨
      pc = .drain ∧ pc' = .exited ∧ e = none := by
  cases pc with
  | mainLoop =>
    obtain ⟨-, rfl, rfl, hstop⟩ := Op.moves_await.1 h
    exact Or.inl ⟨rfl, hstop, rfl, rfl⟩
  | announceGoodbye round todo =>
    cases todo with
    | nil =>
      simp only [mainProgram] at h
      split_ifs at h with hround
      · obtain ⟨-, rfl, rfl⟩ := Op.moves_jump.1 h
        rw [hround]
        exact Or.inr (Or.inr (Or.inl ⟨rfl, rfl, rfl⟩))
      · obtain ⟨-, rfl, rfl⟩ := Op.moves_jump.1 h
        exact Or.inr (Or.inr (Or.inr (Or.inl ⟨round, hround, rfl, rfl, rfl⟩)))
    | cons i todo =>
      obtain ⟨-, ⟨ok, rfl⟩, rfl⟩ := Op.moves_act.1 h
      exact Or.inr (Or.inl ⟨round, i, todo, rfl, rfl, rfl⟩)
  | goodbyeGap =>
    obtain ⟨-, rfl, rfl⟩ := Op.moves_sleep.1 h
    exact Or.inr (Or.inr (Or.inr (Or.inr (Or.inl ⟨rfl, rfl, rfl⟩))))
  | drain =>
    obtain ⟨-, rfl, rfl⟩ := Op.moves_timeout.1 h
    exact Or.inr (Or.inr (Or.inr (Or.inr (Or.inr ⟨rfl, rfl, rfl⟩))))
  | exited => exact absurd h Op.moves_done
  | probeAll _ | probeDelay _ _ _ | probe _ _ _ | probePause _ _ _ | announceAll _ _
  | announceGap | spawn => cases hinv

end Moves

theorem serving_closed (p : Published) (ifaces : List Iface) :
    Closed (mainProgram p ifaces) MainPc.serving := by
  intro stopped pc since d pc' e hinv h
  rcases serving_moves hinv h with ⟨-, -, -, rfl⟩ | ⟨_, _, _, -, rfl, -⟩ | ⟨-, rfl, -⟩ |
    ⟨_, -, -, rfl, -⟩ | ⟨-, rfl, -⟩ | ⟨-, rfl, -⟩
  · split_ifs <;> trivial
  all_goals trivial

/-- What is left of the shutdown, if each step is late by at most `δ`. -/
def shutdownBudget (n δ : ℕ) : MainPc → ℕ
  | .mainLoop => announceGap + drainLimit + (2 * n + 5) * δ
  | .announceGoodbye round todo =>
    if round = 0 then announceGap + drainLimit + (todo.length + n + 4) * δ
    else drainLimit + (todo.length + 2) * δ
  | .goodbyeGap => announceGap + drainLimit + (n + 3) * δ
  | .drain => drainLimit + δ
  | _ => 0

/-- **The time of the shutdown**: two rounds of goodbyes, the second between them and the wait for
the background tasks. -/
theorem shutdownBudget_spec (p : Published) (ifaces : List Iface) (δ : ℕ) :
    Budget (mainProgram p ifaces) MainPc.serving δ (shutdownBudget ifaces.length δ) := by
  intro pc since d pc' e hinv h
  rcases serving_moves hinv h with ⟨rfl, -, -, rfl⟩ | ⟨round, i, todo, rfl, rfl, -⟩ |
    ⟨rfl, rfl, -⟩ | ⟨round, hround, rfl, rfl, -⟩ | ⟨rfl, rfl, -⟩ | ⟨rfl, rfl, -⟩
  · split_ifs
    · simp only [mainProgram, Op.cost, shutdownBudget]
      generalize announceGap = g, drainLimit = l
      nlinarith
    · simp only [mainProgram, Op.cost, shutdownBudget, if_true]
      generalize announceGap = g, drainLimit = l
      linarith
  · simp only [mainProgram, Op.cost, shutdownBudget, List.length_cons]
    generalize announceGap = g, drainLimit = l
    split_ifs <;> linarith
  · simp only [mainProgram, if_true, Op.cost, shutdownBudget, List.length_nil]
    generalize announceGap = g, drainLimit = l
    linarith
  · simp only [mainProgram, if_neg hround, Op.cost, shutdownBudget, List.length_nil]
    generalize drainLimit = l
    linarith
  · have hop : mainProgram p ifaces .goodbyeGap since =
        .sleep announceGap (.announceGoodbye 1 ifaces) := rfl
    rw [hop, Op.cost_sleep]
    simp only [shutdownBudget, one_ne_zero, if_false]
    generalize announceGap = g, drainLimit = l
    linarith
  · have hop : mainProgram p ifaces .drain since = .timeout drainLimit .exited := rfl
    rw [hop, Op.cost_timeout]
    simp [shutdownBudget]

/-! ### The browser -/

/-- `Duration::MAX`. -/
def durationMax : ℕ := fromSecs (2 ^ 64 - 1) + 999999999

/-- `next_backoff`. -/
def nextBackoff (cur cap : ℕ) : ℕ := min (min (cur * 2) durationMax) cap

/-- The longest pause between two rounds of queries. -/
def browseCap (intervalSecs : UInt64) : ℕ := fromSecs (max intervalSecs 1).toNat

/-- The targets that are names; the others are skipped. -/
def browseNames (fromStr : String → Option Name) (browse : List String) : List Name :=
  browse.filterMap fromStr

/-- The message of `send_queries`. -/
def browseMessage (names : List Name) : Outgoing :=
  ⟨0, .query, false, names.map fun n => ⟨⟨n, .ptr, .in⟩, false⟩, [], [], []⟩

/-- The control states of `browser::run`.  The rounds of its loop are counted. -/
inductive BrowserPc
  | run
  | firstQuery (d : ℕ)
  | loop (round delay : ℕ)
  | sendQueries (round delay : ℕ)
  | send (round delay : ℕ) (todo : List Iface)
  | pause (round delay : ℕ)
  | returned
  deriving DecidableEq, Repr

/-- A round begins with the encoding of its message, which is then sent on each interface. -/
inductive BrowserEffect
  | encode (round : ℕ)
  | query (iface : Iface) (round : ℕ)
  deriving DecidableEq, Repr

/-- `browser::run`. -/
def browserProgram (names : List Name) (cap : ℕ) (ifaces : List Iface) :
    Program BrowserPc BrowserEffect
  | .run, _ =>
    if names.isEmpty then .jump .returned
    else .draw 20 120 fun ms => .firstQuery (fromMillis ms)
  | .firstQuery d, _ => .select d (.loop 0 (fromSecs 1)) .returned
  | .loop round delay, _ => .check .returned (.sendQueries round delay)
  | .sendQueries round delay, _ =>
    .act (.encode round) fun ok => if ok then .send round delay ifaces else .pause round delay
  | .send round delay [], _ => .jump (.pause round delay)
  | .send round delay (i :: todo), _ => .act (.query i round) fun _ => .send round delay todo
  | .pause round delay, _ =>
    .select delay (.loop (round + 1) (nextBackoff delay cap)) .returned
  | .returned, _ => .done

/-- The pause after a round: it doubles, up to the cap. -/
def backoff (cap round : ℕ) : ℕ := if round = 0 then fromSecs 1 else min (fromSecs (2 ^ round)) cap

/-- The pauses before a round. -/
def backoffTotal (cap round : ℕ) : ℕ := ((List.range round).map (backoff cap)).sum

theorem backoffTotal_succ (cap round : ℕ) :
    backoffTotal cap (round + 1) = backoffTotal cap round + backoff cap round := by
  simp [backoffTotal, List.range_succ]

theorem browseCap_bounds (intervalSecs : UInt64) :
    fromSecs 1 ≤ browseCap intervalSecs ∧ browseCap intervalSecs ≤ durationMax := by
  unfold browseCap durationMax fromSecs
  have hlt := (max intervalSecs 1).toNat_lt
  have hone : 1 ≤ (max intervalSecs 1).toNat := by
    have hle : (1 : UInt64) ≤ max intervalSecs 1 := by
      show (1 : UInt64) ≤ if intervalSecs ≤ 1 then 1 else intervalSecs
      split_ifs with h
      · exact UInt64.le_refl 1
      · exact UInt64.le_of_lt (UInt64.not_le.1 h)
    exact UInt64.le_iff_toNat_le.1 hle
  omega

/-- The loop variable `delay` in each round. -/
theorem nextBackoff_backoff {cap : ℕ} (hone : fromSecs 1 ≤ cap) (hmax : cap ≤ durationMax)
    (round : ℕ) : nextBackoff (backoff cap round) cap = backoff cap (round + 1) := by
  unfold nextBackoff backoff
  rw [if_neg (Nat.succ_ne_zero round)]
  split_ifs with hzero
  · rw [hzero]
    simp only [fromSecs] at hone ⊢
    omega
  · have hdouble : fromSecs (2 ^ (round + 1)) = fromSecs (2 ^ round) * 2 := by
      unfold fromSecs
      rw [pow_succ]
      ring
    rw [hdouble]
    omega

/-- The first query waits, and the loop variable is that of the round. -/
def BrowserPc.Ok (cap : ℕ) : BrowserPc → Prop
  | .firstQuery d => fromMillis 20 ≤ d
  | .loop round delay | .sendQueries round delay | .send round delay _ | .pause round delay =>
    delay = backoff cap round
  | _ => True

/-- The time that the browser has let pass. -/
def browserClock (cap : ℕ) : BrowserPc → ℕ
  | .loop round _ | .sendQueries round _ | .send round _ _ | .pause round _ =>
    fromMillis 20 + backoffTotal cap round
  | _ => 0

/-- The interfaces that are left in a round. -/
def BrowserPc.ifaces : BrowserPc → List Iface
  | .send _ _ todo => todo
  | _ => []

/-- The interface of a query. -/
def BrowserEffect.iface? : BrowserEffect → Option Iface
  | .query i _ => some i
  | .encode _ => none

section Browser

variable {names : List Name} {cap : ℕ} {ifaces : List Iface}

/-- The browser goes over the interfaces of the daemon. -/
theorem browserIfaces_moves {stopped : Bool} {pc pc' : BrowserPc} {since d : ℕ}
    {e : Option BrowserEffect} (hpc : pc.ifaces ⊆ ifaces)
    (h : (browserProgram names cap ifaces pc since).Moves stopped d pc' e) :
    pc'.ifaces ⊆ ifaces ∧ ∀ effect ∈ e, ∀ i ∈ effect.iface?, i ∈ ifaces := by
  have hnil : ([] : List Iface) ⊆ ifaces := List.nil_subset _
  cases pc with
  | run =>
    simp only [browserProgram] at h
    split_ifs at h
    · obtain ⟨-, rfl, rfl⟩ := Op.moves_jump.1 h
      exact ⟨hnil, by simp⟩
    · obtain ⟨-, ⟨n, -, -, rfl⟩, rfl⟩ := Op.moves_draw.1 h
      exact ⟨hnil, by simp⟩
  | firstQuery d =>
    obtain ⟨⟨-, rfl⟩ | ⟨-, rfl, -⟩, rfl⟩ := Op.moves_select.1 h <;> exact ⟨hnil, by simp⟩
  | loop round delay =>
    obtain ⟨-, rfl, rfl⟩ := Op.moves_check.1 h
    refine ⟨?_, by simp⟩
    split_ifs <;> exact hnil
  | sendQueries round delay =>
    obtain ⟨-, ⟨ok, rfl⟩, rfl⟩ := Op.moves_act.1 h
    refine ⟨?_, by simp [BrowserEffect.iface?]⟩
    cases ok with
    | true => exact List.Subset.refl _
    | false => exact hnil
  | send round delay todo =>
    cases todo with
    | nil =>
      obtain ⟨-, rfl, rfl⟩ := Op.moves_jump.1 h
      exact ⟨hnil, by simp⟩
    | cons i todo =>
      obtain ⟨-, ⟨ok, rfl⟩, rfl⟩ := Op.moves_act.1 h
      exact ⟨List.subset_of_cons_subset hpc,
        by simpa [BrowserEffect.iface?] using hpc List.mem_cons_self⟩
  | pause round delay =>
    obtain ⟨⟨-, rfl⟩ | ⟨-, rfl, -⟩, rfl⟩ := Op.moves_select.1 h <;> exact ⟨hnil, by simp⟩
  | returned => exact absurd h Op.moves_done

theorem browserOk_closed (hone : fromSecs 1 ≤ cap) (hmax : cap ≤ durationMax) :
    Closed (browserProgram names cap ifaces) (BrowserPc.Ok cap) := by
  intro stopped pc since d pc' e hinv h
  cases pc with
  | run =>
    simp only [browserProgram] at h
    split_ifs at h
    · obtain ⟨-, rfl, -⟩ := Op.moves_jump.1 h
      trivial
    · obtain ⟨-, ⟨n, hlo, -, rfl⟩, -⟩ := Op.moves_draw.1 h
      simp only [BrowserPc.Ok, fromMillis]
      omega
  | firstQuery d =>
    obtain ⟨⟨-, rfl⟩ | ⟨-, rfl, -⟩, -⟩ := Op.moves_select.1 h
    · simp [BrowserPc.Ok, backoff]
    · trivial
  | loop round delay =>
    obtain ⟨-, rfl, -⟩ := Op.moves_check.1 h
    split_ifs
    · trivial
    · exact hinv
  | sendQueries round delay =>
    obtain ⟨-, ⟨ok, rfl⟩, -⟩ := Op.moves_act.1 h
    cases ok <;> exact hinv
  | send round delay todo =>
    cases todo with
    | nil =>
      obtain ⟨-, rfl, -⟩ := Op.moves_jump.1 h
      exact hinv
    | cons i todo =>
      obtain ⟨-, ⟨ok, rfl⟩, -⟩ := Op.moves_act.1 h
      exact hinv
  | pause round delay =>
    have hdelay : delay = backoff cap round := hinv
    obtain ⟨⟨-, rfl⟩ | ⟨-, rfl, -⟩, -⟩ := Op.moves_select.1 h
    · rw [hdelay]
      exact nextBackoff_backoff hone hmax round
    · trivial
  | returned => exact absurd h Op.moves_done

theorem browserClock_virtual :
    VirtualClock (browserProgram names cap ifaces) (BrowserPc.Ok cap) (browserClock cap) := by
  intro stopped pc since d pc' e hinv h
  cases pc with
  | run =>
    simp only [browserProgram] at h
    split_ifs at h
    · obtain ⟨-, rfl, -⟩ := Op.moves_jump.1 h
      simp [browserClock]
    · obtain ⟨-, ⟨n, -, -, rfl⟩, -⟩ := Op.moves_draw.1 h
      simp [browserClock]
  | firstQuery d' =>
    have hd : fromMillis 20 ≤ d' := hinv
    obtain ⟨⟨rfl, rfl⟩ | ⟨-, rfl, -⟩, -⟩ := Op.moves_select.1 h
    · simpa [browserClock, backoffTotal] using hd
    · simp [browserClock]
  | loop round delay =>
    obtain ⟨-, rfl, -⟩ := Op.moves_check.1 h
    split_ifs <;> simp [browserClock]
  | sendQueries round delay =>
    obtain ⟨-, ⟨ok, rfl⟩, -⟩ := Op.moves_act.1 h
    cases ok <;> simp [browserClock]
  | send round delay todo =>
    cases todo with
    | nil =>
      obtain ⟨-, rfl, -⟩ := Op.moves_jump.1 h
      simp [browserClock]
    | cons i todo =>
      obtain ⟨-, ⟨ok, rfl⟩, -⟩ := Op.moves_act.1 h
      simp [browserClock]
  | pause round delay =>
    have hdelay : delay = backoff cap round := hinv
    obtain ⟨⟨rfl, rfl⟩ | ⟨-, rfl, -⟩, -⟩ := Op.moves_select.1 h
    · simp only [browserClock]
      rw [hdelay, backoffTotal_succ, ← add_assoc]
    · simp [browserClock]
  | returned => exact absurd h Op.moves_done

end Browser

/-! ### The sweeps -/

/-- The interval of the runtime: when the tick after the one comes that was due at `deadline` and
taken at `now`.  It is no more than a period away. -/
structure Ticks where
  nextTick : (period deadline now : ℕ) → ℕ
  nextTick_le : ∀ period deadline now, nextTick period deadline now ≤ now + period

/-- `MissedTickBehavior::Skip`: the next tick is at a multiple of the period. -/
def Ticks.skip : Ticks where
  nextTick period deadline now := now + period - (now - deadline) % period
  nextTick_le _ _ _ := Nat.sub_le _ _

/-- The period of `cache_evictor`. -/
def sweepPeriod (cacheTickSecs : UInt64) : ℕ := fromSecs (max cacheTickSecs 1).toNat

/-- The control states of `cache_evictor`, with the time of the tick. -/
inductive EvictorPc
  | tick (deadline : ℕ)
  | sweep (deadline : ℕ)
  | returned
  deriving DecidableEq, Repr

/-- `cache_evictor`. -/
def evictorProgram (ticks : Ticks) (period : ℕ) : Program EvictorPc Unit
  | .tick deadline, since => .select (deadline - since) (.sweep deadline) .returned
  | .sweep deadline, since => .act () fun _ => .tick (ticks.nextTick period deadline since)
  | .returned, _ => .done

end Nmdns
