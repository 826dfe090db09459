import Nmdns.Lib.RateLog
import Nmdns.Timing

/-!
# The tracker as a function of its history

The tracker keeps one stamp for each interface and record and forgets old stamps.  It answers as if
it remembered every transmission.

* `TrackerEvent`, `MulticastTracker.step`, `MulticastTracker.run`: `mark`, `check_and_mark` and
  `prune_older_than` in any order, each at its reading of the clock;
* `sends`: what a run has multicast; `answers`: what its calls of `check_and_mark` return;
* `historyAnswers`: the answers of a tracker that keeps every transmission and never prunes;
* `Recalls`: what the stamps say about the transmissions; `recalls_step` keeps it, and
  `answers_eq_historyAnswers` follows;
* `tracker_eq_history`: the answers by the history alone, with or without prunes, key by key.
-/

namespace Nmdns

/-- A call of the tracker. -/
inductive TrackerCall
  | mark (ifindex : UInt32) (rec : Record)
  | checkAndMark (ifindex : UInt32) (rec : Record) (minInterval : ℕ)
  | pruneOlderThan (minInterval : ℕ)

/-- A call and the reading of the clock it makes. -/
structure TrackerEvent where
  time : ℕ
  call : TrackerCall

/-- The tracker after a call, and the answer of a `check_and_mark`. -/
def MulticastTracker.step (t : MulticastTracker) (ev : TrackerEvent) :
    MulticastTracker × Option Bool :=
  match ev.call with
  | .mark ifindex rec => (t.mark ev.time ifindex rec, none)
  | .checkAndMark ifindex rec minInterval =>
    let (t', ok) := t.checkAndMark ev.time ifindex rec minInterval
    (t', some ok)
  | .pruneOlderThan minInterval => (t.pruneOlderThan ev.time minInterval, none)

/-- The tracker after a sequence of calls. -/
def MulticastTracker.run (t : MulticastTracker) (h : List TrackerEvent) : MulticastTracker :=
  h.foldl (fun t ev => (t.step ev).1) t

/-- The answers of the calls of `check_and_mark` in a run, in order. -/
def MulticastTracker.answers (t : MulticastTracker) : List TrackerEvent → List (TrackerEvent × Bool)
  | [] => []
  | ev :: h =>
    match (t.step ev).2 with
    | some ok => (ev, ok) :: (t.step ev).1.answers h
    | none => (t.step ev).1.answers h

/-- A record that is multicast. -/
structure Send where
  time : ℕ
  ifindex : UInt32
  key : RecordKey

/-- What a call multicasts: a `mark` always, a `check_and_mark` if it succeeds. -/
def TrackerEvent.sent (ev : TrackerEvent) (answer : Option Bool) : List Send :=
  match ev.call with
  | .mark ifindex rec => [⟨ev.time, ifindex, RecordKey.of rec⟩]
  | .checkAndMark ifindex rec _ =>
    if answer = some true then [⟨ev.time, ifindex, RecordKey.of rec⟩] else []
  | .pruneOlderThan _ => []

/-- What a run multicasts. -/
def MulticastTracker.sends (t : MulticastTracker) : List TrackerEvent → List Send
  | [] => []
  | ev :: h => ev.sent (t.step ev).2 ++ (t.step ev).1.sends h

/-- The transmission is of this record on this interface. -/
def Send.isOf (a : Send) (ifindex : UInt32) (k : RecordKey) : Bool :=
  a.ifindex == ifindex && a.key == k

/-- The call concerns this record on this interface. -/
def TrackerEvent.isOf (ev : TrackerEvent) (ifindex : UInt32) (k : RecordKey) : Bool :=
  match ev.call with
  | .mark i rec | .checkAndMark i rec _ => i == ifindex && RecordKey.of rec == k
  | .pruneOlderThan _ => false

/-- The call is no prune. -/
def TrackerEvent.notPrune (ev : TrackerEvent) : Bool :=
  match ev.call with
  | .pruneOlderThan _ => false
  | _ => true

/-- Prunes forget what is `P` old, and no interval is longer. -/
def TrackerEvent.Within (P : ℕ) (ev : TrackerEvent) : Prop :=
  match ev.call with
  | .mark _ _ => True
  | .checkAndMark _ _ minInterval => minInterval ≤ P
  | .pruneOlderThan minInterval => minInterval = P

/-! ### The history as a specification -/

/-- The answer to a call by the transmissions so far: true if each of the same record on the same
interface is at least the interval old. -/
def historyAnswer (log : List Send) (ev : TrackerEvent) : Option Bool :=
  match ev.call with
  | .checkAndMark ifindex rec minInterval =>
    some (decide (∀ a ∈ log, a.isOf ifindex (RecordKey.of rec) = true →
      ¬ ev.time - a.time < minInterval))
  | _ => none

/-- The answers of a tracker that remembers every transmission. -/
def historyAnswers (log : List Send) : List TrackerEvent → List (TrackerEvent × Bool)
  | [] => []
  | ev :: h =>
    match historyAnswer log ev with
    | some ok => (ev, ok) :: historyAnswers (log ++ ev.sent (historyAnswer log ev)) h
    | none => historyAnswers (log ++ ev.sent (historyAnswer log ev)) h

/-- Prunes leave no trace in the history. -/
theorem historyAnswers_filter_notPrune (log : List Send) (h : List TrackerEvent) :
    historyAnswers log (h.filter TrackerEvent.notPrune) = historyAnswers log h := by
  induction h generalizing log with
  | nil => rfl
  | cons ev h ih =>
    obtain ⟨t, call⟩ := ev
    cases call with
    | mark i r => exact ih _
    | checkAndMark i r m => exact congrArg (_ :: ·) (ih _)
    | pruneOlderThan m =>
      show historyAnswers log (h.filter TrackerEvent.notPrune) = historyAnswers (log ++ []) h
      rw [ih, List.append_nil]

/-- A call multicasts what it concerns. -/
theorem filter_sent (ev : TrackerEvent) (answer : Option Bool) (i : UInt32) (k : RecordKey) :
    (ev.sent answer).filter (fun a => a.isOf i k) = if ev.isOf i k then ev.sent answer else [] := by
  obtain ⟨t, call⟩ := ev
  cases call with
  | mark j r => simp [TrackerEvent.sent, TrackerEvent.isOf, Send.isOf, List.filter_cons]
  | checkAndMark j r m =>
    by_cases hok : answer = some true
    · simp [TrackerEvent.sent, TrackerEvent.isOf, Send.isOf, List.filter_cons, hok]
    · simp [TrackerEvent.sent, hok]
  | pruneOlderThan m => rfl

/-- The transmissions of other records, or on other interfaces, do not matter. -/
theorem historyAnswer_filter (log : List Send) {ev : TrackerEvent} {i : UInt32} {k : RecordKey}
    (h : ev.isOf i k = true) :
    historyAnswer (log.filter fun a => a.isOf i k) ev = historyAnswer log ev := by
  obtain ⟨t, call⟩ := ev
  cases call with
  | mark j r => rfl
  | pruneOlderThan m => rfl
  | checkAndMark j r m =>
    obtain ⟨hj, hk⟩ := Bool.and_eq_true_iff.1 h
    cases eq_of_beq hj
    have hof : ∀ a : Send, a.isOf i (RecordKey.of r) = a.isOf i k := by
      intro a
      unfold Send.isOf
      rw [BEq.congr_right hk]
    unfold historyAnswer
    simp only [hof, List.mem_filter, and_imp, Option.some.injEq, decide_eq_decide]
    exact forall₂_congr fun a ha => ⟨fun hall hisOf => hall hisOf hisOf, fun hall _ => hall⟩

theorem historyAnswers_filter_isOf (log : List Send) (h : List TrackerEvent) (i : UInt32)
    (k : RecordKey) :
    historyAnswers (log.filter fun a => a.isOf i k) (h.filter fun ev => ev.isOf i k) =
      (historyAnswers log h).filter fun x => x.1.isOf i k := by
  induction h generalizing log with
  | nil => rfl
  | cons ev h ih =>
    have hlog := ih (log ++ ev.sent (historyAnswer log ev))
    rw [List.filter_append, filter_sent] at hlog
    by_cases hev : ev.isOf i k = true
    · rw [if_pos hev] at hlog
      rw [List.filter_cons, if_pos hev, historyAnswers, historyAnswers,
        historyAnswer_filter log hev, hlog]
      cases historyAnswer log ev with
      | none => rfl
      | some ok => simp [hev]
    · rw [if_neg hev, List.append_nil] at hlog
      rw [List.filter_cons, if_neg hev, historyAnswers, hlog]
      cases historyAnswer log ev with
      | none => rfl
      | some ok => simp [hev]

/-! ### What the stamps recall -/

/-- Transmissions as messages with one key. -/
def sendTraffic : Traffic Send (UInt32 × RecordKey) :=
  ⟨Send.time, fun _ => 0, fun a k => a.isOf k.1 k.2 = true⟩

/-- The stamps account for every transmission that is not `P` old, and for no others. -/
structure Recalls (P now : ℕ) (t : MulticastTracker) (log : List Send) : Prop where
  covered : sendTraffic.Covered P (fun _ _ => False) (fun k => t.stamp? k.1 k.2) now log
  sound : ∀ i k s, t.stamp? i k = some s → ∃ a ∈ log, a.time = s ∧ a.isOf i k = true

section Recalls

variable {P now time : ℕ} {t : MulticastTracker} {log : List Send}

theorem recalls_new : Recalls P 0 MulticastTracker.new [] :=
  ⟨Traffic.covered_nil, fun _ _ _ h => nomatch h⟩

/-- The stamps decide what the history decides. -/
theorem Recalls.allows_iff (h : Recalls P now t log) (hle : now ≤ time) {m : ℕ} (hm : m ≤ P)
    (i : UInt32) (r : Record) :
    t.allows time i r m = true ↔
      ∀ a ∈ log, a.isOf i (RecordKey.of r) = true → ¬ time - a.time < m := by
  rw [MulticastTracker.allows_iff]
  constructor
  · intro hall a ha hof
    obtain ⟨hnow, hcov⟩ := h.covered a ha
    rcases hcov (i, RecordKey.of r) hof with ⟨s, hs, has⟩ | hold | hex
    · have hms := hall s hs
      have has' : a.time ≤ s := has
      omega
    · have hold' : a.time + P ≤ now := hold
      omega
    · exact hex.elim
  · intro hall s hs
    obtain ⟨a, ha, rfl, hof⟩ := h.sound i _ s hs
    exact Nat.not_lt.1 (hall a ha hof)

theorem Recalls.mark (h : Recalls P now t log) (hle : now ≤ time) (i : UInt32) (r : Record) :
    Recalls P time (t.mark time i r) (log ++ [⟨time, i, RecordKey.of r⟩]) := by
  constructor
  · have hcov : sendTraffic.Covered P (fun _ _ => False)
        (fun k => (t.mark time i r).stamp? k.1 k.2) time log := by
      refine h.covered.stamps hle fun k => ?_
      rw [MulticastTracker.stamp?_mark]
      split_ifs
      · exact Or.inr rfl
      · exact Or.inl rfl
    refine Traffic.Covered.append (b := (⟨time, i, RecordKey.of r⟩ : Send)) hcov
      fun k hk => Or.inl ?_
    obtain ⟨hi, hkey⟩ := Bool.and_eq_true_iff.1 hk
    rw [MulticastTracker.stamp?_mark, if_pos ⟨(eq_of_beq hi).symm, BEq.symm hkey⟩]
    rfl
  · intro j k s hs
    rw [MulticastTracker.stamp?_mark] at hs
    split_ifs at hs with hof
    · cases hs
      refine ⟨⟨time, i, RecordKey.of r⟩, List.mem_append_right _ (List.mem_singleton.2 rfl), rfl,
        ?_⟩
      exact Bool.and_eq_true_iff.2 ⟨beq_iff_eq.2 hof.1.symm, BEq.symm hof.2⟩
    · obtain ⟨a, ha, hat⟩ := h.sound j k s hs
      exact ⟨a, List.mem_append_left _ ha, hat⟩

theorem Recalls.pruneOlderThan (h : Recalls P now t log) (hle : now ≤ time) :
    Recalls P time (t.pruneOlderThan time P) log := by
  constructor
  · exact h.covered.prune hle fun k => t.stamp?_pruneOlderThan time P k.1 k.2
  · intro i k s hs
    rw [MulticastTracker.stamp?_pruneOlderThan, Option.filter_eq_some_iff] at hs
    exact h.sound i k s hs.1

theorem Recalls.later (h : Recalls P now t log) (hle : now ≤ time) : Recalls P time t log :=
  ⟨h.covered.stamps hle fun _ => Or.inl rfl, h.sound⟩

/-- **One call**: the tracker answers by the history and goes on recalling it. -/
theorem recalls_step (h : Recalls P now t log) {ev : TrackerEvent} (hle : now ≤ ev.time)
    (hw : ev.Within P) :
    (t.step ev).2 = historyAnswer log ev ∧
      Recalls P ev.time (t.step ev).1 (log ++ ev.sent (t.step ev).2) := by
  obtain ⟨time, call⟩ := ev
  cases call with
  | mark i r => exact ⟨rfl, h.mark hle i r⟩
  | pruneOlderThan m =>
    cases (show m = P from hw)
    refine ⟨rfl, ?_⟩
    show Recalls P time (t.pruneOlderThan time P) (log ++ [])
    rw [List.append_nil]
    exact h.pruneOlderThan hle
  | checkAndMark i r m =>
    have hiff := h.allows_iff hle hw i r
    unfold MulticastTracker.step historyAnswer TrackerEvent.sent
    simp only [MulticastTracker.checkAndMark_eq]
    by_cases hok : t.allows time i r m = true
    · rw [if_pos hok]
      exact ⟨congrArg some (decide_eq_true (hiff.1 hok)).symm, h.mark hle i r⟩
    · rw [if_neg hok]
      refine ⟨congrArg some (decide_eq_false fun hall => hok (hiff.2 hall)).symm, ?_⟩
      simpa using h.later hle

/-- **A whole run** answers by the history. -/
theorem answers_eq_historyAnswers (h : Recalls P now t log) {evs : List TrackerEvent}
    (hclock : evs.Pairwise fun ev ev' => ev.time ≤ ev'.time) (hnow : ∀ ev ∈ evs, now ≤ ev.time)
    (hw : ∀ ev ∈ evs, ev.Within P) : t.answers evs = historyAnswers log evs := by
  induction evs generalizing t log now with
  | nil => rfl
  | cons ev evs ih =>
    obtain ⟨hle, hclock⟩ := List.pairwise_cons.1 hclock
    obtain ⟨hans, hrec⟩ := recalls_step h (hnow ev List.mem_cons_self) (hw ev List.mem_cons_self)
    have hrest := ih hrec hclock hle fun ev' hev' => hw ev' (List.mem_cons_of_mem _ hev')
    rw [MulticastTracker.answers, historyAnswers, hrest, hans]

/-- After a run the tracker recalls what the run has multicast. -/
theorem recalls_run (h : Recalls P now t log) {evs : List TrackerEvent}
    (hclock : evs.Pairwise fun ev ev' => ev.time ≤ ev'.time) (hnow : ∀ ev ∈ evs, now ≤ ev.time)
    (hw : ∀ ev ∈ evs, ev.Within P) (hle : now ≤ time) (htime : ∀ ev ∈ evs, ev.time ≤ time) :
    Recalls P time (t.run evs) (log ++ t.sends evs) := by
  induction evs generalizing t log now with
  | nil =>
    rw [MulticastTracker.sends, List.append_nil]
    exact h.later hle
  | cons ev evs ih =>
    obtain ⟨hle, hclock⟩ := List.pairwise_cons.1 hclock
    obtain ⟨-, hrec⟩ := recalls_step h (hnow ev List.mem_cons_self) (hw ev List.mem_cons_self)
    rw [MulticastTracker.sends, ← List.append_assoc]
    exact ih hrec hclock hle (fun ev' hev' => hw ev' (List.mem_cons_of_mem _ hev'))
      (htime ev List.mem_cons_self) fun ev' hev' => htime ev' (List.mem_cons_of_mem _ hev')

end Recalls

/-- **The tracker equals its history.**  A `check_and_mark` succeeds if and only if nothing of the
same record and interface was multicast within its interval; prunes may be left out or put in
anywhere; and the calls of each record and interface are answered as if there were no others. -/
theorem tracker_eq_history {P : ℕ} {h : List TrackerEvent}
    (hclock : h.Pairwise fun ev ev' => ev.time ≤ ev'.time) (hw : ∀ ev ∈ h, ev.Within P) :
    (∀ pre time i r m post, h = pre ++ ⟨time, .checkAndMark i r m⟩ :: post →
      (((MulticastTracker.new.run pre).checkAndMark time i r m).2 = true ↔
        ∀ a ∈ MulticastTracker.new.sends pre, a.isOf i (RecordKey.of r) = true →
          ¬ time - a.time < m)) ∧
      (∀ h' : List TrackerEvent, (h'.Pairwise fun ev ev' => ev.time ≤ ev'.time) →
        (∀ ev ∈ h', ev.Within P) →
        h'.filter TrackerEvent.notPrune = h.filter TrackerEvent.notPrune →
        MulticastTracker.new.answers h' = MulticastTracker.new.answers h) ∧
      ∀ i k, MulticastTracker.new.answers (h.filter fun ev => ev.isOf i k) =
        (MulticastTracker.new.answers h).filter fun x => x.1.isOf i k := by
  have hanswers : ∀ h' : List TrackerEvent, (h'.Pairwise fun ev ev' => ev.time ≤ ev'.time) →
      (∀ ev ∈ h', ev.Within P) → MulticastTracker.new.answers h' = historyAnswers [] h' :=
    fun h' hclock' hw' =>
      answers_eq_historyAnswers recalls_new hclock' (fun _ _ => Nat.zero_le _) hw'
  refine ⟨?_, fun h' hclock' hw' hsame => ?_, fun i k => ?_⟩
  · rintro pre time i r m post rfl
    obtain ⟨hpre, hcheck, hle⟩ := List.pairwise_append.1 hclock
    have hrec := recalls_run recalls_new hpre (fun _ _ => Nat.zero_le _)
      (fun ev hev => hw ev (List.mem_append_left _ hev)) (Nat.zero_le time)
      fun ev hev => hle ev hev _ List.mem_cons_self
    have hm : m ≤ P := hw _ (List.mem_append_right _ List.mem_cons_self)
    rw [List.nil_append] at hrec
    rw [← hrec.allows_iff le_rfl hm, MulticastTracker.checkAndMark_eq]
    split_ifs with hok <;> simp [hok]
  · rw [hanswers h hclock hw, hanswers h' hclock' hw', ← historyAnswers_filter_notPrune [] h',
      hsame, historyAnswers_filter_notPrune]
  · rw [hanswers h hclock hw, ← historyAnswers_filter_isOf]
    exact hanswers _ (hclock.filter _) fun ev hev => hw ev (List.mem_of_mem_filter hev)

/-- The address of a host. -/
def trackedAddress : Record :=
  ⟨⟨[[104], [108, 111, 99, 97, 108]], true⟩, .in, 120, .a 0xC0A80101, true⟩

/-- The address is announced, defended against a probe 300 ms later, and asked for after 2 s. -/
def trackedRun (prunes : List TrackerEvent) : List TrackerEvent :=
  [⟨0, .mark 2 trackedAddress⟩,
    ⟨fromMillis 300, .checkAndMark 2 trackedAddress probeDefenseInterval⟩] ++ prunes ++
    [⟨fromSecs 2, .checkAndMark 2 trackedAddress minMulticastInterval⟩]

theorem tracker_eq_history_pruned :
    MulticastTracker.new.answers (trackedRun [⟨fromSecs 2, .pruneOlderThan minMulticastInterval⟩]) =
      MulticastTracker.new.answers (trackedRun []) := by
  refine (tracker_eq_history (P := minMulticastInterval) (h := trackedRun []) ?_ ?_).2.1 _ ?_ ?_ rfl
  · simp [trackedRun, fromSecs, fromMillis]
  · simp [trackedRun, TrackerEvent.Within, probeDefenseInterval, minMulticastInterval, fromSecs,
      fromMillis]
  · simp [trackedRun, fromSecs, fromMillis]
  · simp [trackedRun, TrackerEvent.Within, probeDefenseInterval, minMulticastInterval, fromSecs,
      fromMillis]

end Nmdns
