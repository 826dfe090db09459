import Nmdns.TrackerHistory

/-!
# The rate limiter under its lock

`src/timing.rs`: the tracker is behind a lock.  `mark` reads the clock while it holds the lock;
`check_and_mark` and `prune_older_than` read it before they take the lock, so that their readings
may be old by then, and readings of different calls may be used in another order than they were
made.

* `Limiter`, `LimiterStep`, `Limiter.run`: a reading of the clock and the taking of the lock as
  separate steps, in any order;
* `Limiter.Ok`, `ok_step`: what the stamps say about the transmissions that were let pass;
* `passes_spaced`: a transmission takes the lock at least its interval after the reading of every
  earlier one of the same record;
* `passes_at_once`: but not after its taking of the lock.
-/

namespace Nmdns

/-- The calls that read the clock before they take the lock. -/
inductive LimiterCall
  | checkAndMark (ifindex : UInt32) (rec : Record) (minInterval : ℕ)
  | pruneOlderThan (minInterval : ℕ)

/-- A transmission that was let pass: the reading that was made for it, when the lock was taken, and
the interval it had to keep. -/
structure Pass where
  ifindex : UInt32
  key : RecordKey
  reading : ℕ
  locked : ℕ
  interval : ℕ

/-- The tracker, the calls that wait for its lock with their readings, and what was let pass. -/
structure Limiter where
  tracker : MulticastTracker
  waiting : List (ℕ × LimiterCall)
  passed : List Pass

/-- What may happen next. -/
inductive LimiterStep
  | mark (ifindex : UInt32) (rec : Record)
  | read (call : LimiterCall)
  | lock (n : ℕ)

/-- The limiter before the first call. -/
def Limiter.start : Limiter := ⟨MulticastTracker.new, [], []⟩

/-- One step at `now`: a `mark`, a reading of the clock, or the rest of the `n`-th waiting call. -/
def Limiter.step (s : Limiter) (now : ℕ) : LimiterStep → Limiter
  | .mark ifindex rec =>
    { s with
      tracker := s.tracker.mark now ifindex rec
      passed := s.passed ++ [⟨ifindex, RecordKey.of rec, now, now, 0⟩] }
  | .read call => { s with waiting := s.waiting ++ [(now, call)] }
  | .lock n =>
    match s.waiting[n]? with
    | none => s
    | some (reading, .checkAndMark ifindex rec minInterval) =>
      let (t, ok) := s.tracker.checkAndMark reading ifindex rec minInterval
      { tracker := t
        waiting := s.waiting.eraseIdx n
        passed := s.passed ++
          if ok then [⟨ifindex, RecordKey.of rec, reading, now, minInterval⟩] else [] }
    | some (reading, .pruneOlderThan minInterval) =>
      { s with
        tracker := s.tracker.pruneOlderThan reading minInterval
        waiting := s.waiting.eraseIdx n }

/-- Any sequence of steps, each with its time. -/
def Limiter.run (s : Limiter) (steps : List (ℕ × LimiterStep)) : Limiter :=
  steps.foldl (fun s step => s.step step.1 step.2) s

/-- Prunes forget what is `P` old, and intervals are positive and not longer. -/
def LimiterCall.Within (P : ℕ) : LimiterCall → Prop
  | .checkAndMark _ _ minInterval => 0 < minInterval ∧ minInterval ≤ P
  | .pruneOlderThan minInterval => minInterval = P

/-- A step makes only such calls. -/
def LimiterStep.Within (P : ℕ) : LimiterStep → Prop
  | .read call => call.Within P
  | _ => True

/-! ### The stamps account for what was let pass -/

/-- What was let pass, as traffic that is dated by its readings. -/
def passTraffic : Traffic Pass (UInt32 × RecordKey) where
  time := Pass.reading
  gap := Pass.interval
  carries a k := a.ifindex = k.1 ∧ a.key == k.2

/-- The later pass took the lock at least its interval after the reading of the earlier one. -/
def Pass.SpacedBefore (a b : Pass) : Prop :=
  a.ifindex = b.ifindex → a.key == b.key → a.reading + b.interval ≤ b.locked

/-- The invariant of the limiter at `now`. -/
structure Limiter.Ok (P : ℕ) (s : Limiter) (now : ℕ) : Prop where
  waiting : ∀ w ∈ s.waiting, w.1 ≤ now ∧ w.2.Within P
  covered : passTraffic.Covered P (fun _ _ => False) (fun k => s.tracker.stamp? k.1 k.2) now
    s.passed
  locked : ∀ a ∈ s.passed, a.reading ≤ a.locked
  spaced : s.passed.Pairwise Pass.SpacedBefore

section Ok

variable {P now now' : ℕ} {s : Limiter}

theorem ok_start (P now : ℕ) : Limiter.start.Ok P now where
  waiting := by simp [Limiter.start]
  covered := Traffic.covered_nil
  locked := by simp [Limiter.start]
  spaced := List.Pairwise.nil

/-- Time passes. -/
theorem Limiter.Ok.mono (h : s.Ok P now) (hle : now ≤ now') : s.Ok P now' where
  waiting w hw := ⟨(h.waiting w hw).1.trans hle, (h.waiting w hw).2⟩
  covered := h.covered.raise hle fun _ st hst => Or.inl ⟨st, hst, min_le_left _ _⟩
  locked := h.locked
  spaced := h.spaced

/-- A pass that is stamped with its reading, and spaced from all earlier ones. -/
theorem Limiter.Ok.append {t : MulticastTracker} {waiting : List (ℕ × LimiterCall)} {b : Pass}
    (h : s.Ok P now) (hwait : waiting ⊆ s.waiting) (hle : b.reading ≤ now)
    (hlocked : b.reading ≤ b.locked) (hspaced : ∀ a ∈ s.passed, a.SpacedBefore b)
    (hstamp : ∀ i k, t.stamp? i k =
      if i = b.ifindex ∧ k == b.key then some b.reading else s.tracker.stamp? i k)
    (hforward : ∀ st, s.tracker.stamp? b.ifindex b.key = some st → min st now ≤ b.reading) :
    (⟨t, waiting, s.passed ++ [b]⟩ : Limiter).Ok P now where
  waiting w hw := h.waiting w (hwait hw)
  covered := by
    have hraise : passTraffic.Covered P (fun _ _ => False) (fun k => t.stamp? k.1 k.2) now
        s.passed := by
      refine h.covered.raise le_rfl ?_
      intro k st hst
      left
      by_cases hk : k.1 = b.ifindex ∧ k.2 == b.key
      · refine ⟨b.reading, by rw [hstamp, if_pos hk], hforward st ?_⟩
        rw [← hst, hk.1, s.tracker.stamp?_congr _ hk.2]
      · exact ⟨st, by rw [hstamp, if_neg hk]; exact hst, min_le_left _ _⟩
    refine hraise.append_of_le hle ?_
    rintro k ⟨hi, hk⟩
    left
    rw [hstamp, if_pos ⟨hi.symm, BEq.symm hk⟩]
    rfl
  locked := by
    intro a ha
    rcases List.mem_append.1 ha with ha | ha
    · exact h.locked a ha
    · rw [List.mem_singleton.1 ha]
      exact hlocked
  spaced := by
    rw [List.pairwise_append]
    refine ⟨h.spaced, List.pairwise_singleton _ _, ?_⟩
    intro a ha b' hb'
    rw [List.mem_singleton.1 hb']
    exact hspaced a ha

/-- A successful `check_and_mark` with an old reading: the stamp that it saw, if any, is its
interval older than the reading. -/
theorem Limiter.Ok.check {waiting : List (ℕ × LimiterCall)} {reading m : ℕ} {i : UInt32}
    {r : Record} (h : s.Ok P now) (hwait : waiting ⊆ s.waiting) (hle : reading ≤ now)
    (hpos : 0 < m) (hm : m ≤ P) (hallow : s.tracker.allows reading i r m = true) :
    (⟨s.tracker.mark reading i r, waiting,
      s.passed ++ [⟨i, RecordKey.of r, reading, now, m⟩]⟩ : Limiter).Ok P now := by
  rw [MulticastTracker.allows_iff] at hallow
  refine h.append hwait hle hle ?_ ?_ ?_
  · intro a ha hi hk
    simp only at hi hk ⊢
    rcases (h.covered a ha).2 (i, RecordKey.of r) ⟨hi, hk⟩ with ⟨st, hst, has⟩ | hold | hex
    · have hgap := hallow st hst
      have hread : a.reading ≤ st := has
      omega
    · have hread : a.reading + P ≤ now := hold
      omega
    · exact hex.elim
  · intro j k
    exact s.tracker.stamp?_mark reading i r j k
  · intro st hst
    have hgap := hallow st hst
    simp only
    omega

/-- **One step keeps the invariant.** -/
theorem ok_step (h : s.Ok P now) (hle : now ≤ now') {step : LimiterStep} (hstep : step.Within P) :
    (s.step now' step).Ok P now' := by
  have h' := h.mono hle
  cases step with
  | mark i r =>
    refine h'.append (List.Subset.refl _) le_rfl le_rfl ?_ (s.tracker.stamp?_mark now' i r) ?_
    · intro a ha _ _
      exact (h'.covered a ha).1
    · intro st _
      exact min_le_right _ _
  | read call =>
    refine ⟨?_, h'.covered, h'.locked, h'.spaced⟩
    intro w hw
    rcases List.mem_append.1 hw with hw | hw
    · exact h'.waiting w hw
    · rw [List.mem_singleton.1 hw]
      exact ⟨le_rfl, hstep⟩
  | lock n =>
    unfold Limiter.step
    dsimp only
    split
    · exact h'
    · rename_i reading i r m hwait
      obtain ⟨hread, hpos, hm⟩ := h'.waiting _ (List.mem_of_getElem? hwait)
      rw [MulticastTracker.checkAndMark_eq]
      by_cases hallow : s.tracker.allows reading i r m = true
      · simp only [hallow, if_true]
        exact h'.check (List.eraseIdx_subset) hread hpos hm hallow
      · simp only [hallow, Bool.false_eq_true, if_false, List.append_nil]
        exact ⟨fun w hw => h'.waiting w (List.eraseIdx_subset hw), h'.covered, h'.locked, h'.spaced⟩
    · rename_i reading m hwait
      obtain ⟨hread, hm⟩ := h'.waiting _ (List.mem_of_getElem? hwait)
      have hP : m = P := hm
      refine ⟨fun w hw => h'.waiting w (List.eraseIdx_subset hw), ?_, h'.locked, h'.spaced⟩
      refine h'.covered.raise le_rfl ?_
      intro k st hst
      rw [MulticastTracker.stamp?_pruneOlderThan, hst]
      by_cases hfresh : reading - st < m
      · exact Or.inl ⟨st, by simp [hfresh], min_le_left _ _⟩
      · -- what an old reading finds a horizon old is at least that old
        right
        simp only at hread
        omega

theorem ok_run {steps : List (ℕ × LimiterStep)} (h : s.Ok P now)
    (hsorted : (now :: steps.map Prod.fst).Pairwise (· ≤ ·))
    (hsteps : ∀ step ∈ steps, step.2.Within P) : ∃ now', (s.run steps).Ok P now' := by
  induction steps generalizing s now with
  | nil => exact ⟨now, h⟩
  | cons step steps ih =>
    rw [List.map_cons, List.pairwise_cons] at hsorted
    have hle := hsorted.1 step.1 List.mem_cons_self
    have hnext := ok_step h hle (hsteps step List.mem_cons_self)
    exact ih hnext hsorted.2 fun step' hstep' => hsteps step' (List.mem_cons_of_mem _ hstep')

end Ok

/-- **Transmissions are spaced from the readings of earlier ones.**  In every interleaving of
`mark`, `check_and_mark` and `prune_older_than` calls, a record that is let pass takes the lock at
least its interval after the reading that was made for each earlier pass of the record on that
interface.  So if no call waits longer than `δ` for the lock, passes are spaced by their interval
less `δ`. -/
theorem passes_spaced {P : ℕ} {steps : List (ℕ × LimiterStep)}
    (hsorted : (steps.map Prod.fst).Pairwise (· ≤ ·)) (hsteps : ∀ step ∈ steps, step.2.Within P) :
    (Limiter.start.run steps).passed.Pairwise (fun a b => a.ifindex = b.ifindex → a.key == b.key →
      a.reading + b.interval ≤ b.locked ∧
        ∀ δ, a.locked ≤ a.reading + δ → a.locked + b.interval ≤ b.locked + δ) ∧
    ∀ a ∈ (Limiter.start.run steps).passed, a.reading ≤ a.locked := by
  have hzero : (0 :: steps.map Prod.fst).Pairwise (· ≤ ·) :=
    List.pairwise_cons.2 ⟨fun t _ => Nat.zero_le t, hsorted⟩
  obtain ⟨now, hok⟩ := ok_run (ok_start P 0) hzero hsteps
  refine ⟨hok.spaced.imp ?_, hok.locked⟩
  intro a b hab hi hk
  have hgap := hab hi hk
  refine ⟨hgap, ?_⟩
  intro δ hδ
  omega

/-- Two handlers answer with the same record a second apart; each waits 100 ms for the lock. -/
def twoHandlers : List (ℕ × LimiterStep) :=
  [(0, .read (.checkAndMark 2 trackedAddress minMulticastInterval)), (fromMillis 100, .lock 0),
    (fromSecs 1, .read (.checkAndMark 2 trackedAddress minMulticastInterval)),
    (fromMillis 1100, .lock 0)]

theorem passes_spaced_twoHandlers :
    ∃ a b, (Limiter.start.run twoHandlers).passed = [a, b] ∧
      a.locked + b.interval ≤ b.locked + fromMillis 100 := by
  have hsorted : (twoHandlers.map Prod.fst).Pairwise (· ≤ ·) := by
    simp [twoHandlers, fromSecs, fromMillis]
  have hsteps : ∀ step ∈ twoHandlers, step.2.Within minMulticastInterval := by
    simp [twoHandlers, LimiterStep.Within, LimiterCall.Within, minMulticastInterval, fromSecs]
  have hspaced := (passes_spaced hsorted hsteps).1
  have hrun : (Limiter.start.run twoHandlers).passed =
      [⟨2, RecordKey.of trackedAddress, 0, fromMillis 100, minMulticastInterval⟩,
        ⟨2, RecordKey.of trackedAddress, fromSecs 1, fromMillis 1100, minMulticastInterval⟩] := rfl
  refine ⟨_, _, hrun, ?_⟩
  rw [hrun] at hspaced
  exact ((List.pairwise_pair.1 hspaced) rfl BEq.rfl).2 _ (by simp [fromMillis])

/-- **The bound is sharp**: a call that waits for the lock as long as the interval lets another one
pass at the same instant. -/
theorem passes_at_once (i : UInt32) (r : Record) (m : ℕ) :
    (Limiter.start.run [(0, .read (.checkAndMark i r m)), (m, .lock 0),
      (m, .read (.checkAndMark i r m)), (m, .lock 0)]).passed =
        [⟨i, RecordKey.of r, 0, m, m⟩, ⟨i, RecordKey.of r, m, m, m⟩] := by
  have hfirst : MulticastTracker.new.allows 0 i r m = true := rfl
  have hsecond : (MulticastTracker.new.mark 0 i r).allows m i r m = true := by
    rw [MulticastTracker.allows_iff]
    intro s hs
    rw [MulticastTracker.stamp?_mark, if_pos ⟨rfl, BEq.rfl⟩] at hs
    cases hs
    exact le_rfl
  simp [Limiter.run, Limiter.step, Limiter.start, MulticastTracker.checkAndMark_eq, hfirst, hsecond]

end Nmdns
