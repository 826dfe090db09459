import Mathlib.Tactic
import Mathlib.Data.List.Perm.Basic

/-!
# A pool of pending tasks

Tasks arrive one after the other and wait in a pool of bounded size.  Any pending task may run
next, and it runs to its end.  A task that arrives when the pool is full is dropped.

* `Pool`, `Pool.step`, `Pool.run`: accepted tasks are numbered in the order of their arrival, and
  the pool remembers in which order they ran;
* `Pool.Sound`, `Pool.Sound.run`: the state is the result of the tasks in the order in which they
  ran, and these are, with the pending ones, the accepted tasks;
* `Pool.accepted_run`: which tasks are accepted;
* `foldl_eq_of_reordering`: running tasks in another order than that of their arrival changes
  nothing if tasks that run out of order commute.
-/

namespace TaskPool

variable {S α : Type*}

/-- A task arrives, or the `n`-th pending task runs. -/
inductive Step (α : Type*)
  | receive (a : α)
  | exec (n : ℕ)

/-- The task that arrives in a step. -/
def Step.received? : Step α → Option α
  | .receive a => some a
  | .exec _ => none

/-- The pool: the shared state, the pending tasks, and the accepted and the executed ones so far. -/
structure Pool (S α : Type*) where
  state : S
  pending : List (ℕ × α)
  accepted : List (ℕ × α)
  executed : List (ℕ × α)

namespace Pool

/-- The empty pool. -/
def start (s : S) : Pool S α := ⟨s, [], [], []⟩

variable (f : S → α → S) (limit : ℕ)

/-- A task arrives in a pool of at most `limit` tasks. -/
def receive (P : Pool S α) (a : α) : Pool S α :=
  if P.pending.length < limit then
    { P with
      pending := P.pending ++ [(P.accepted.length, a)]
      accepted := P.accepted ++ [(P.accepted.length, a)] }
  else P

/-- The `n`-th pending task runs, by `f`. -/
def exec (P : Pool S α) (n : ℕ) : Pool S α :=
  match P.pending[n]? with
  | none => P
  | some task =>
    { P with
      state := f P.state task.2
      pending := P.pending.eraseIdx n
      executed := P.executed ++ [task] }

/-- One step. -/
def step (P : Pool S α) : Step α → Pool S α
  | .receive a => P.receive limit a
  | .exec n => P.exec f n

/-- A sequence of steps. -/
def run (P : Pool S α) (steps : List (Step α)) : Pool S α := steps.foldl (step f limit) P

/-- The state is that of the executed tasks, no task is lost or run twice, and the numbers follow
the arrivals. -/
structure Sound (s₀ : S) (P : Pool S α) : Prop where
  state : P.state = P.executed.foldl (fun s task => f s task.2) s₀
  perm : (P.executed ++ P.pending).Perm P.accepted
  numbered : P.accepted.map Prod.fst = List.range P.accepted.length

variable {f limit} {s₀ : S} {P : Pool S α}

theorem sound_start : (start s₀ : Pool S α).Sound f s₀ := ⟨rfl, List.Perm.refl _, rfl⟩

theorem Sound.receive (h : P.Sound f s₀) (a : α) : (P.receive limit a).Sound f s₀ := by
  unfold Pool.receive
  split_ifs
  · refine ⟨h.state, ?_, ?_⟩
    · show (P.executed ++ (P.pending ++ [(P.accepted.length, a)])).Perm _
      rw [← List.append_assoc]
      exact h.perm.append_right _
    · show (P.accepted ++ [(P.accepted.length, a)]).map Prod.fst = _
      rw [List.map_append, h.numbered, List.length_append]
      exact List.range_succ.symm
  · exact h

theorem Sound.exec (h : P.Sound f s₀) (n : ℕ) : (P.exec f n).Sound f s₀ := by
  unfold Pool.exec
  cases htask : P.pending[n]? with
  | none => exact h
  | some task =>
    obtain ⟨hn, hget⟩ := List.getElem?_eq_some_iff.1 htask
    refine ⟨?_, ?_, h.numbered⟩
    · show f P.state task.2 = (P.executed ++ [task]).foldl _ s₀
      rw [List.foldl_append, ← h.state]
      rfl
    · -- the task moves from the pending ones to the executed ones
      have hmove : (task :: P.pending.eraseIdx n).Perm P.pending := by
        rw [← hget]
        exact List.getElem_cons_eraseIdx_perm hn
      show ((P.executed ++ [task]) ++ P.pending.eraseIdx n).Perm P.accepted
      rw [List.append_assoc]
      exact (hmove.append_left P.executed).trans h.perm

theorem Sound.step (h : P.Sound f s₀) (st : Step α) : (P.step f limit st).Sound f s₀ := by
  cases st with
  | receive a => exact h.receive a
  | exec n => exact h.exec n

theorem Sound.run (h : P.Sound f s₀) (steps : List (Step α)) :
    (P.run f limit steps).Sound f s₀ := by
  induction steps generalizing P with
  | nil => exact h
  | cons st steps ih => exact ih (h.step st)

/-- **What is accepted**: the tasks that arrive when there is room for them, in the order of their
arrival. -/
theorem accepted_run (P : Pool S α) (steps : List (Step α)) :
    (P.run f limit steps).accepted.map Prod.snd = P.accepted.map Prod.snd ++
      (List.range steps.length).filterMap fun i =>
        if (P.run f limit (steps.take i)).pending.length < limit then
          steps[i]?.bind Step.received?
        else none := by
  induction steps using List.reverseRecOn with
  | nil => exact (List.append_nil _).symm
  | append_singleton steps st ih =>
    have hrun : P.run f limit (steps ++ [st]) = (P.run f limit steps).step f limit st := by
      simp [run, List.foldl_append]
    have hbefore : ∀ i ∈ List.range steps.length,
        (if (P.run f limit ((steps ++ [st]).take i)).pending.length < limit then
          (steps ++ [st])[i]?.bind Step.received? else none) =
        if (P.run f limit (steps.take i)).pending.length < limit then
          steps[i]?.bind Step.received? else none := by
      intro i hi
      rw [List.mem_range] at hi
      rw [List.take_append_of_le_length hi.le, List.getElem?_append_left hi]
    rw [hrun, List.length_append, List.length_singleton, List.range_succ, List.filterMap_append,
      List.filterMap_congr hbefore, ← List.append_assoc, ← ih]
    have hlast : (steps ++ [st])[steps.length]? = some st := by simp
    simp only [List.filterMap_cons, List.filterMap_nil, List.take_left', hlast, Option.bind_some]
    cases st with
    | receive a =>
      show ((P.run f limit steps).receive limit a).accepted.map Prod.snd = _
      unfold Pool.receive
      split_ifs <;> simp [Step.received?]
    | exec n =>
      show ((P.run f limit steps).exec f n).accepted.map Prod.snd = _
      unfold Pool.exec
      cases (P.run f limit steps).pending[n]? <;> simp [Step.received?]

/-- Accepted tasks are in the order of their numbers. -/
theorem Sound.ordered (h : P.Sound f s₀) :
    P.accepted.Pairwise fun a b => a.1 < b.1 := by
  have hrange := List.pairwise_lt_range (n := P.accepted.length)
  rw [← h.numbered, List.pairwise_map] at hrange
  exact hrange

end Pool

/-! ### Running out of order -/

/-- Two sequences of steps commute if each step of one commutes with each step of the other. -/
theorem foldl_comm_of_forall {g : S → α → S} {l l' : List α}
    (h : ∀ a ∈ l, ∀ b ∈ l', ∀ s, g (g s a) b = g (g s b) a) (s : S) :
    l'.foldl g (l.foldl g s) = l.foldl g (l'.foldl g s) := by
  have hone : ∀ (b : α) (l : List α), (∀ a ∈ l, ∀ s, g (g s a) b = g (g s b) a) → ∀ s,
      g (l.foldl g s) b = l.foldl g (g s b) := by
    intro b l
    induction l with
    | nil => exact fun _ s => rfl
    | cons a l ih =>
      intro h s
      rw [List.foldl_cons, List.foldl_cons, ih (fun a' ha' => h a' (List.mem_cons_of_mem _ ha')),
        h a List.mem_cons_self]
  induction l' generalizing s with
  | nil => rfl
  | cons b l' ih =>
    rw [List.foldl_cons, List.foldl_cons, hone b l fun a ha s => h a ha b List.mem_cons_self s]
    exact ih (fun a ha b' hb' => h a ha b' (List.mem_cons_of_mem _ hb')) (g s b)

/-- **Running out of order.**  Let `l` be in the order of the numbers and `done` a permutation of it
in which conflicting tasks are in that order too.  If tasks that do not conflict commute, both
orders give the same state. -/
theorem foldl_eq_of_reordering {f : S → α → S} {conflict : α → α → Prop}
    (hcomm : ∀ a b, ¬ conflict a b → ∀ s, f (f s a) b = f (f s b) a)
    {l done : List (ℕ × α)} (hperm : done.Perm l) (hl : l.Pairwise fun a b => a.1 < b.1)
    (hdone : done.Pairwise fun a b => conflict a.2 b.2 → a.1 < b.1) (s : S) :
    done.foldl (fun s task => f s task.2) s = l.foldl (fun s task => f s task.2) s := by
  induction l generalizing done s with
  | nil => rw [hperm.eq_nil]
  | cons a l ih =>
    obtain ⟨hfirst, hl⟩ := List.pairwise_cons.1 hl
    -- bring the first arrival to the front: what ran before it does not conflict with it
    obtain ⟨pre, post, rfl⟩ := List.append_of_mem (hperm.symm.subset List.mem_cons_self)
    have hrest : (pre ++ post).Perm l :=
      (List.perm_middle.symm.trans hperm).cons_inv
    rw [List.pairwise_append] at hdone
    obtain ⟨hpre, hpost, hcross⟩ := hdone
    have hswap : f (pre.foldl (fun s task => f s task.2) s) a.2 =
        pre.foldl (fun s task => f s task.2) (f s a.2) := by
      have hbefore : ∀ b ∈ pre, ∀ a' ∈ [a], ∀ s, f (f s b.2) a'.2 = f (f s a'.2) b.2 := by
        intro b hb a' ha' s
        rw [List.mem_singleton.1 ha']
        refine hcomm b.2 a.2 (fun hc => ?_) s
        have hlt := hcross b hb a List.mem_cons_self hc
        have hgt := hfirst b (hrest.subset (List.mem_append_left _ hb))
        omega
      exact foldl_comm_of_forall (g := fun s (task : ℕ × α) => f s task.2) hbefore s
    rw [List.foldl_append, List.foldl_cons, hswap, ← List.foldl_append, List.foldl_cons]
    refine ih hrest hl ?_ _
    rw [List.pairwise_append]
    exact ⟨hpre, (List.pairwise_cons.1 hpost).2, fun b hb c hc =>
      hcross b hb c (List.mem_cons_of_mem _ hc)⟩

end TaskPool
