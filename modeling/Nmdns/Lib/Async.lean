import Mathlib.Tactic

/-!
# Asynchronous tasks

A task runs a program one operation at a time.  It may be suspended: it sleeps, or it waits for a
token to be cancelled.  Once an operation is enabled, the scheduler lets it happen at any later
time.

* `Op`, `Program`, `Fiber.step`: programs with effects, random draws, sleeps and the token;
* `Op.Moves`, `Fiber.step_cases`: what a step can do, and how long it waited at least;
* `Closed`, `VirtualClock`, `VirtualClock.moves`: a clock that is read off the control state and
  that never runs faster than the real one.  It bounds the time between two effects from below;
* `Op.enabledAt`, `Fiber.OnTime`, `Budget`, `Budget.moves`: when steps are never late by more than
  `δ`, a budget of time that is read off the control state bounds it from above;
* `Along`, `Along.invariant`: invariants of timed runs.
-/

namespace Async

/-- What a task does next, with control states `C` and effects `α`. -/
inductive Op (C α : Type)
  | done
  | jump (next : C)
  /-- An effect, which succeeds or fails. -/
  | act (a : α) (next : Bool → C)
  /-- A random number between two bounds. -/
  | draw (lo hi : ℕ) (next : ℕ → C)
  | sleep (d : ℕ) (next : C)
  /-- A sleep, or the token is cancelled, whichever comes first. -/
  | select (d : ℕ) (next quit : C)
  /-- A test of the token. -/
  | check (quit next : C)
  /-- A wait until the token is cancelled. -/
  | await (next : C)
  /-- A wait for others, for at most some time. -/
  | timeout (d : ℕ) (next : C)

/-- The operation of each control state, which may depend on when that was reached. -/
def Program (C α : Type) := C → ℕ → Op C α

/-- A task: its control state, and when it was reached. -/
structure Fiber (C : Type) where
  pc : C
  since : ℕ
  deriving DecidableEq, Repr

/-- What decides a step: the outcomes of effects, the random number, which branch is taken when both
are ready, and whether the others are done. -/
structure Choice (α : Type) where
  answer : α → Bool
  pick : ℕ
  timer : Bool
  ready : Bool

variable {C α : Type}

/-- The next control state and the effect, if the operation is enabled. -/
def Op.step (stopped : Bool) (since now : ℕ) (c : Choice α) : Op C α → Option (C × Option α)
  | .done => none
  | .jump next => some (next, none)
  | .act a next => some (next (c.answer a), some a)
  | .draw lo hi next => some (next (lo + c.pick % (hi + 1 - lo)), none)
  | .sleep d next => if since + d ≤ now then some (next, none) else none
  | .select d next quit =>
    if since + d ≤ now ∧ (c.timer = true ∨ stopped = false) then some (next, none)
    else if stopped then some (quit, none) else none
  | .check quit next => some (if stopped then quit else next, none)
  | .await next => if stopped then some (next, none) else none
  | .timeout d next => if c.ready = true ∨ since + d ≤ now then some (next, none) else none

/-- One step of a task; nothing happens if its operation is not enabled. -/
def Fiber.step (prog : Program C α) (stopped : Bool) (now : ℕ) (c : Choice α) (t : Fiber C) :
    Fiber C × Option α :=
  match (prog t.pc t.since).step stopped t.since now c with
  | none => (t, none)
  | some (pc, e) => (⟨pc, now⟩, e)

/-- The moves that an operation allows: how long they take at least, the next control state and the
effect. -/
inductive Op.Moves (stopped : Bool) : Op C α → ℕ → C → Option α → Prop
  | jump {next : C} : Moves stopped (.jump next) 0 next none
  | act {a : α} {next : Bool → C} (ok : Bool) : Moves stopped (.act a next) 0 (next ok) (some a)
  | draw {lo hi : ℕ} {next : ℕ → C} {n : ℕ} (hlo : lo ≤ n) (hhi : lo ≤ hi → n ≤ hi) :
      Moves stopped (.draw lo hi next) 0 (next n) none
  | sleep {d : ℕ} {next : C} : Moves stopped (.sleep d next) d next none
  | timer {d : ℕ} {next quit : C} : Moves stopped (.select d next quit) d next none
  | quit {d : ℕ} {next quit : C} (h : stopped = true) :
      Moves stopped (.select d next quit) 0 quit none
  | checkQuit {next quit : C} (h : stopped = true) : Moves stopped (.check quit next) 0 quit none
  | checkNext {next quit : C} (h : stopped = false) : Moves stopped (.check quit next) 0 next none
  | await {next : C} (h : stopped = true) : Moves stopped (.await next) 0 next none
  | timeout {d : ℕ} {next : C} : Moves stopped (.timeout d next) 0 next none

section Inversion

variable {stopped : Bool} {d : ℕ} {pc : C} {e : Option α}

@[simp] theorem Op.moves_done : ¬ (Op.done : Op C α).Moves stopped d pc e := nofun

@[simp] theorem Op.moves_jump {next : C} :
    (Op.jump next : Op C α).Moves stopped d pc e ↔ d = 0 ∧ pc = next ∧ e = none := by
  constructor
  · rintro ⟨⟩
    exact ⟨rfl, rfl, rfl⟩
  · rintro ⟨rfl, rfl, rfl⟩
    exact .jump

@[simp] theorem Op.moves_act {a : α} {next : Bool → C} :
    (Op.act a next).Moves stopped d pc e ↔ d = 0 ∧ (∃ ok, pc = next ok) ∧ e = some a := by
  constructor
  · rintro ⟨⟩
    exact ⟨rfl, ⟨_, rfl⟩, rfl⟩
  · rintro ⟨rfl, ⟨ok, rfl⟩, rfl⟩
    exact .act ok

@[simp] theorem Op.moves_draw {lo hi : ℕ} {next : ℕ → C} :
    (Op.draw lo hi next : Op C α).Moves stopped d pc e ↔
      d = 0 ∧ (∃ n, lo ≤ n ∧ (lo ≤ hi → n ≤ hi) ∧ pc = next n) ∧ e = none := by
  constructor
  · rintro (_ | _ | ⟨hlo, hhi⟩)
    exact ⟨rfl, ⟨_, hlo, hhi, rfl⟩, rfl⟩
  · rintro ⟨rfl, ⟨n, hlo, hhi, rfl⟩, rfl⟩
    exact .draw hlo hhi

@[simp] theorem Op.moves_sleep {d' : ℕ} {next : C} :
    (Op.sleep d' next : Op C α).Moves stopped d pc e ↔ d = d' ∧ pc = next ∧ e = none := by
  constructor
  · rintro ⟨⟩
    exact ⟨rfl, rfl, rfl⟩
  · rintro ⟨rfl, rfl, rfl⟩
    exact .sleep

@[simp] theorem Op.moves_select {d' : ℕ} {next quit : C} :
    (Op.select d' next quit : Op C α).Moves stopped d pc e ↔
      (d = d' ∧ pc = next ∨ d = 0 ∧ pc = quit ∧ stopped = true) ∧ e = none := by
  constructor
  · intro h
    cases h with
    | timer => exact ⟨Or.inl ⟨rfl, rfl⟩, rfl⟩
    | quit hstop => exact ⟨Or.inr ⟨rfl, rfl, hstop⟩, rfl⟩
  · rintro ⟨⟨rfl, rfl⟩ | ⟨rfl, rfl, hstop⟩, rfl⟩
    · exact .timer
    · exact .quit hstop

@[simp] theorem Op.moves_check {quit next : C} :
    (Op.check quit next : Op C α).Moves stopped d pc e ↔
      d = 0 ∧ pc = (if stopped then quit else next) ∧ e = none := by
  constructor
  · intro h
    cases h with
    | checkQuit hstop => exact ⟨rfl, by rw [if_pos hstop], rfl⟩
    | checkNext hstop => exact ⟨rfl, by rw [hstop]; rfl, rfl⟩
  · rintro ⟨rfl, rfl, rfl⟩
    cases hstop : stopped with
    | true => exact .checkQuit rfl
    | false => exact .checkNext rfl

@[simp] theorem Op.moves_await {next : C} :
    (Op.await next : Op C α).Moves stopped d pc e ↔
      d = 0 ∧ pc = next ∧ e = none ∧ stopped = true := by
  constructor
  · intro h
    cases h with
    | await hstop => exact ⟨rfl, rfl, rfl, hstop⟩
  · rintro ⟨rfl, rfl, rfl, hstop⟩
    exact .await hstop

@[simp] theorem Op.moves_timeout {d' : ℕ} {next : C} :
    (Op.timeout d' next : Op C α).Moves stopped d pc e ↔ d = 0 ∧ pc = next ∧ e = none := by
  constructor
  · rintro ⟨⟩
    exact ⟨rfl, rfl, rfl⟩
  · rintro ⟨rfl, rfl, rfl⟩
    exact .timeout

/-- Effects happen at once. -/
theorem Op.Moves.eq_zero_of_effect {op : Op C α} {a : α} (h : op.Moves stopped d pc (some a)) :
    d = 0 := by
  cases h
  rfl

end Inversion

theorem Op.moves_of_step {stopped : Bool} {since now : ℕ} {c : Choice α} {op : Op C α} {pc : C}
    {e : Option α} (hle : since ≤ now) (h : op.step stopped since now c = some (pc, e)) :
    ∃ d, op.Moves stopped d pc e ∧ since + d ≤ now := by
  cases op with
  | done => cases h
  | jump next =>
    cases h
    exact ⟨0, .jump, hle⟩
  | act a next =>
    cases h
    exact ⟨0, .act _, hle⟩
  | draw lo hi next =>
    cases h
    refine ⟨0, .draw (Nat.le_add_right _ _) ?_, hle⟩
    intro hlohi
    have := Nat.mod_lt c.pick (show hi + 1 - lo > 0 by omega)
    omega
  | sleep d next =>
    simp only [Op.step] at h
    split_ifs at h with hd
    cases h
    exact ⟨d, .sleep, hd⟩
  | select d next quit =>
    simp only [Op.step] at h
    split_ifs at h with hd hstop
    · cases h
      exact ⟨d, .timer, hd.1⟩
    · cases h
      exact ⟨0, .quit hstop, hle⟩
  | check quit next =>
    simp only [Op.step] at h
    split_ifs at h with hstop
    · cases h
      exact ⟨0, .checkQuit hstop, hle⟩
    · cases h
      exact ⟨0, .checkNext (Bool.eq_false_iff.2 hstop), hle⟩
  | await next =>
    simp only [Op.step] at h
    split_ifs at h with hstop
    cases h
    exact ⟨0, .await hstop, hle⟩
  | timeout d next =>
    simp only [Op.step] at h
    split_ifs at h
    cases h
    exact ⟨0, .timeout, hle⟩

/-- **One step**: nothing happens, or a move of the operation, which waited long enough. -/
theorem Fiber.step_cases (prog : Program C α) (stopped : Bool) {now : ℕ} (c : Choice α)
    {t : Fiber C} (hle : t.since ≤ now) :
    t.step prog stopped now c = (t, none) ∨
      ∃ d pc e, (prog t.pc t.since).Moves stopped d pc e ∧ t.since + d ≤ now ∧
        t.step prog stopped now c = (⟨pc, now⟩, e) := by
  unfold Fiber.step
  cases hstep : (prog t.pc t.since).step stopped t.since now c with
  | none => exact Or.inl rfl
  | some r =>
    obtain ⟨pc, e⟩ := r
    obtain ⟨d, hmoves, hd⟩ := Op.moves_of_step hle hstep
    exact Or.inr ⟨d, pc, e, hmoves, hd, rfl⟩

/-! ### Bounds from below -/

/-- A set of control states that no move leaves. -/
def Closed (prog : Program C α) (inv : C → Prop) : Prop :=
  ∀ ⦃stopped pc since d pc' e⦄, inv pc → (prog pc since).Moves stopped d pc' e → inv pc'

/-- A clock that is read off the control states in `inv` and gains no more than the duration of a
move.  It may be set back. -/
def VirtualClock (prog : Program C α) (inv : C → Prop) (clock : C → ℕ) : Prop :=
  ∀ ⦃stopped pc since d pc' e⦄, inv pc → (prog pc since).Moves stopped d pc' e →
    clock pc' ≤ clock pc + d

/-- How far the real clock is ahead of the virtual one only grows. -/
theorem VirtualClock.moves {prog : Program C α} {inv : C → Prop} {clock : C → ℕ}
    (h : VirtualClock prog inv clock) {stopped : Bool} {pc pc' : C} {since d now : ℕ}
    {e : Option α} (hinv : inv pc) (hmoves : (prog pc since).Moves stopped d pc' e)
    (hd : since + d ≤ now) : since + clock pc' ≤ now + clock pc := by
  have hclock := h hinv hmoves
  omega

/-! ### Bounds from above -/

/-- When an operation is enabled at the latest, if the token is cancelled at `stop`. -/
def Op.enabledAt (stop : Option ℕ) (since : ℕ) : Op C α → Option ℕ
  | .done => none
  | .jump _ | .act _ _ | .draw _ _ _ | .check _ _ => some since
  | .sleep d _ | .timeout d _ => some (since + d)
  | .select d _ _ => some ((stop.map fun s => min (since + d) (max since s)).getD (since + d))
  | .await _ => stop.map (max since)

/-- The task has not been kept waiting for longer than `δ`. -/
def Fiber.OnTime (prog : Program C α) (stop : Option ℕ) (δ now : ℕ) (t : Fiber C) : Prop :=
  ∀ s, (prog t.pc t.since).enabledAt stop t.since = some s → now ≤ s + δ

instance (prog : Program C α) (stop : Option ℕ) (δ now : ℕ) (t : Fiber C) :
    Decidable (t.OnTime prog stop δ now) :=
  inferInstanceAs (Decidable (∀ s ∈ (prog t.pc t.since).enabledAt stop t.since, now ≤ s + δ))

/-- How long an operation can take once the token is cancelled. -/
def Op.cost : Op C α → ℕ
  | .sleep d _ | .timeout d _ => d
  | _ => 0

theorem Op.cost_sleep (d : ℕ) (next : C) : (Op.sleep d next : Op C α).cost = d := rfl

theorem Op.cost_timeout (d : ℕ) (next : C) : (Op.timeout d next : Op C α).cost = d := rfl

/-- A budget of time that every move after the cancellation draws on, in the control states in
`inv`. -/
def Budget (prog : Program C α) (inv : C → Prop) (δ : ℕ) (budget : C → ℕ) : Prop :=
  ∀ ⦃pc since d pc' e⦄, inv pc → (prog pc since).Moves true d pc' e →
    (prog pc since).cost + δ + budget pc' ≤ budget pc

section Budget

variable {prog : Program C α} {inv : C → Prop} {δ : ℕ} {budget : C → ℕ} {s now d : ℕ}
  {t : Fiber C} {pc' : C} {e : Option α}

/-- After the cancellation, an operation that can move is enabled within its cost. -/
theorem Op.enabledAt_le {op : Op C α} {d : ℕ} {pc : C} {e : Option α}
    (h : op.Moves true d pc e) (since s : ℕ) :
    ∃ t, op.enabledAt (some s) since = some t ∧ t ≤ max since s + op.cost := by
  cases h <;> simp [Op.enabledAt, Op.cost] <;> omega

/-- **The time at which the budget is used up is never put off.** -/
theorem Budget.moves (h : Budget prog inv δ budget) (hinv : inv t.pc)
    (hmoves : (prog t.pc t.since).Moves true d pc' e) (hs : s ≤ now)
    (hon : t.OnTime prog (some s) δ now) :
    max now s + budget pc' ≤ max t.since s + budget t.pc := by
  obtain ⟨ready, hready, hcost⟩ := Op.enabledAt_le hmoves t.since s
  have hlate := hon ready hready
  have hbudget := h hinv hmoves
  omega

/-- A task that can move, and is not late, has not used up its budget. -/
theorem Budget.le_of_onTime (h : Budget prog inv δ budget) (hinv : inv t.pc)
    (hmoves : (prog t.pc t.since).Moves true d pc' e) (hon : t.OnTime prog (some s) δ now) :
    now ≤ max t.since s + budget t.pc := by
  obtain ⟨ready, hready, hcost⟩ := Op.enabledAt_le hmoves t.since s
  have hlate := hon ready hready
  have hbudget := h hinv hmoves
  omega

end Budget

/-! ### Timed runs -/

section Run

variable {S E : Type} (step : S → E → S)

/-- `P` holds before each event of a run. -/
def Along (P : S → E → Prop) : S → List E → Prop
  | _, [] => True
  | s, e :: es => P s e ∧ Along P (step s e) es

instance Along.decidable (P : S → E → Prop) [∀ s e, Decidable (P s e)] :
    ∀ (s : S) (es : List E), Decidable (Along step P s es)
  | _, [] => inferInstanceAs (Decidable True)
  | s, e :: es =>
    have := Along.decidable P (step s e) es
    inferInstanceAs (Decidable (P s e ∧ Along step P (step s e) es))

variable {step} {P : S → E → Prop} {time : E → ℕ}

/-- **Invariants of timed runs**: what each event keeps holds after the run. -/
theorem Along.invariant {I : S → ℕ → Prop}
    (hstep : ∀ s now e, I s now → now ≤ time e → P s e → I (step s e) (time e))
    {s : S} {now : ℕ} {es : List E} (hP : Along step P s es) (h : I s now)
    (hsorted : (now :: es.map time).Pairwise (· ≤ ·)) :
    I (es.foldl step s) ((es.map time).getLastD now) := by
  induction es generalizing s now with
  | nil => exact h
  | cons e es ih =>
    rw [List.map_cons, List.pairwise_cons] at hsorted
    have hnext := hstep s now e h (hsorted.1 _ List.mem_cons_self) hP.1
    have hrun := ih hP.2 hnext hsorted.2
    rwa [List.map_cons, List.getLastD_cons]

theorem along_append_singleton {s : S} {es : List E} {e : E} :
    Along step P s (es ++ [e]) ↔ Along step P s es ∧ P (es.foldl step s) e := by
  induction es generalizing s with
  | nil => simp [Along]
  | cons e' es ih => simp [Along, ih, and_assoc]

theorem Along.of_forall (h : ∀ s e, P s e) (s : S) (es : List E) : Along step P s es := by
  induction es generalizing s with
  | nil => trivial
  | cons e es ih => exact ⟨h s e, ih _⟩

end Run

end Async
