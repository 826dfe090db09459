import Mathlib.Tactic
import Mathlib.Data.List.Pairwise

/-!
# A log of transmissions and a rate limiter

Messages carry keys.  A limiter keeps a time stamp for some of the keys and forgets stamps that are
older than a horizon.

* `Traffic`: when a message went out, which keys it carries, the gap it keeps to earlier messages;
* `Traffic.Spaced`: a message keeps its gap to every earlier one that shares a key with it;
* `Traffic.Covered`: every key of a message is stamped no earlier than the message, or the message
  is a horizon old, or the key is exempt from the limiter;
* `Covered.stamps`, `Covered.prune`, `Covered.append`, `Spaced.append`: the rules for a limiter that
  updates its stamps, forgets old ones, and lets a message through.
-/

/-- Messages of type `μ` that carry keys of type `κ`. -/
structure Traffic (μ κ : Type*) where
  time : μ → ℕ
  gap : μ → ℕ
  carries : μ → κ → Prop

namespace Traffic

variable {μ κ : Type*} (τ : Traffic μ κ)

/-- Messages that share a key are spaced by the gap of the later one. -/
def Spaced (log : List μ) : Prop :=
  log.Pairwise fun a b => (∃ k, τ.carries a k ∧ τ.carries b k) → τ.time a + τ.gap b ≤ τ.time b

/-- At time `now` the stamps account for every key of the log that is not exempt. -/
def Covered (horizon : ℕ) (exempt : μ → κ → Prop) (stamp : κ → Option ℕ) (now : ℕ)
    (log : List μ) : Prop :=
  ∀ a ∈ log, τ.time a ≤ now ∧ ∀ k, τ.carries a k →
    (∃ s, stamp k = some s ∧ τ.time a ≤ s) ∨ τ.time a + horizon ≤ now ∨ exempt a k

variable {τ} {horizon : ℕ} {exempt : μ → κ → Prop} {stamp stamp' : κ → Option ℕ} {now now' : ℕ}
  {log : List μ} {b : μ}

theorem spaced_nil : τ.Spaced [] := List.Pairwise.nil

theorem covered_nil : τ.Covered horizon exempt stamp now [] := by
  intro a ha
  cases ha

/-- Time passes, and each stamp is at most moved forward, or to the present, or is a horizon old. -/
theorem Covered.raise (h : τ.Covered horizon exempt stamp now log) (hle : now ≤ now')
    (hstamp : ∀ k s, stamp k = some s →
      (∃ s', stamp' k = some s' ∧ min s now' ≤ s') ∨ horizon ≤ now' - s) :
    τ.Covered horizon exempt stamp' now' log := by
  intro a ha
  obtain ⟨htime, hkeys⟩ := h a ha
  refine ⟨by omega, ?_⟩
  intro k hk
  rcases hkeys k hk with ⟨s, hs, has⟩ | hold | hex
  · rcases hstamp k s hs with ⟨s', hs', hss⟩ | hold
    · exact Or.inl ⟨s', hs', by omega⟩
    · exact Or.inr (Or.inl (by omega))
  · exact Or.inr (Or.inl (by omega))
  · exact Or.inr (Or.inr hex)

/-- Time passes, and each stamp is kept, set to the present, or a horizon old. -/
theorem Covered.advance (h : τ.Covered horizon exempt stamp now log) (hle : now ≤ now')
    (hstamp : ∀ k s, stamp k = some s →
      stamp' k = some s ∨ stamp' k = some now' ∨ horizon ≤ now' - s) :
    τ.Covered horizon exempt stamp' now' log := by
  refine h.raise hle ?_
  intro k s hs
  rcases hstamp k s hs with hkept | hset | hold
  · exact Or.inl ⟨s, hkept, min_le_left _ _⟩
  · exact Or.inl ⟨now', hset, min_le_right _ _⟩
  · exact Or.inr hold

/-- Time passes, and each stamp is kept or set to the present. -/
theorem Covered.stamps (h : τ.Covered horizon exempt stamp now log) (hle : now ≤ now')
    (hstamp : ∀ k, stamp' k = stamp k ∨ stamp' k = some now') :
    τ.Covered horizon exempt stamp' now' log := by
  refine h.advance hle ?_
  intro k s hs
  rcases hstamp k with hkept | hset
  · exact Or.inl (hkept.trans hs)
  · exact Or.inr (Or.inl hset)

/-- Stamps that are a horizon old may be forgotten. -/
theorem Covered.prune (h : τ.Covered horizon exempt stamp now log) (hle : now ≤ now')
    (hstamp : ∀ k, stamp' k = (stamp k).filter fun s => decide (now' - s < horizon)) :
    τ.Covered horizon exempt stamp' now' log := by
  refine h.advance hle ?_
  intro k s hs
  by_cases hfresh : now' - s < horizon
  · left
    rw [hstamp, hs]
    simp [hfresh]
  · exact Or.inr (Or.inr (not_lt.1 hfresh))

/-- A message is covered when its keys are stamped with its time or exempt. -/
theorem Covered.append_of_le (h : τ.Covered horizon exempt stamp now log) (hle : τ.time b ≤ now)
    (hb : ∀ k, τ.carries b k → stamp k = some (τ.time b) ∨ exempt b k) :
    τ.Covered horizon exempt stamp now (log ++ [b]) := by
  intro a ha
  rcases List.mem_append.1 ha with ha | ha
  · exact h a ha
  · rw [List.mem_singleton.1 ha]
    refine ⟨hle, ?_⟩
    intro k hk
    rcases hb k hk with hk | hk
    · exact Or.inl ⟨τ.time b, hk, le_rfl⟩
    · exact Or.inr (Or.inr hk)

/-- A message that goes out now is covered when its keys are stamped or exempt. -/
theorem Covered.append (h : τ.Covered horizon exempt stamp (τ.time b) log)
    (hb : ∀ k, τ.carries b k → stamp k = some (τ.time b) ∨ exempt b k) :
    τ.Covered horizon exempt stamp (τ.time b) (log ++ [b]) :=
  h.append_of_le le_rfl hb

/-- A message that keeps its gap to all earlier ones with a common key keeps the log spaced. -/
theorem Spaced.append_of_gap (hs : τ.Spaced log)
    (hgap : ∀ a ∈ log, ∀ k, τ.carries a k → τ.carries b k → τ.time a + τ.gap b ≤ τ.time b) :
    τ.Spaced (log ++ [b]) := by
  unfold Spaced
  rw [List.pairwise_append]
  refine ⟨hs, List.pairwise_singleton _ _, ?_⟩
  intro a ha b' hb'
  rw [List.mem_singleton.1 hb']
  rintro ⟨k, hak, hbk⟩
  exact hgap a ha k hak hbk

/-- **A message that the limiter lets through keeps the log spaced**: the stamps of its keys are a
gap old, and it keeps the gap to exempt messages by itself. -/
theorem Spaced.append (hs : τ.Spaced log) (h : τ.Covered horizon exempt stamp now log)
    (hnow : now ≤ τ.time b) (hgap : 0 < τ.gap b) (hhor : τ.gap b ≤ horizon)
    (hallow : ∀ k, τ.carries b k → ∀ s, stamp k = some s → τ.gap b ≤ τ.time b - s)
    (hexempt : ∀ a ∈ log, ∀ k, τ.carries a k → τ.carries b k → exempt a k →
      τ.time a + τ.gap b ≤ τ.time b) :
    τ.Spaced (log ++ [b]) := by
  refine hs.append_of_gap ?_
  intro a ha k hak hbk
  rcases (h a ha).2 k hak with ⟨s, hs, has⟩ | hold | hex
  · have := hallow k hbk s hs
    omega
  · omega
  · exact hexempt a ha k hak hbk hex

end Traffic
