import Mathlib.Tactic

/-!
# Registers driven by a history of events

A register holds at most one value.  Seen from one register, an event sets it, clears it or leaves
it alone (`Effect`).  After a history of events the register holds what the last event that did not
leave it alone made of it.

* `contents eff h`: the value of the register after the history `h`;
* `contents_append_singleton`: one more event;
* `split_append_singleton`: where an event of a history stands;
* `contents_eq_some_iff`: the register holds `a` exactly when some event set it to `a` and every
  later event left it alone.
-/

/-- What an event does to one register. -/
inductive Effect (α : Type*)
  | set (a : α)
  | clear
  | keep

namespace Effect

variable {α ε : Type*}

/-- The register after one event. -/
def apply : Effect α → Option α → Option α
  | .set a, _ => some a
  | .clear, _ => none
  | .keep, v => v

/-- The register after a history of events, empty at its start. -/
def contents (eff : ε → Effect α) (h : List ε) : Option α :=
  h.foldl (fun v ev => (eff ev).apply v) none

@[simp] theorem contents_nil (eff : ε → Effect α) : contents eff [] = none := rfl

theorem contents_append_singleton (eff : ε → Effect α) (h : List ε) (ev : ε) :
    contents eff (h ++ [ev]) = (eff ev).apply (contents eff h) := by
  simp [contents, List.foldl_append]

/-- An event of a history is its last one or belongs to the part before. -/
theorem split_append_singleton {h pre post : List ε} {last ev : ε}
    (hh : h ++ [last] = pre ++ ev :: post) :
    (post = [] ∧ h = pre ∧ last = ev) ∨
      ∃ post', post = post' ++ [last] ∧ h = pre ++ ev :: post' := by
  rcases List.eq_nil_or_concat post with rfl | ⟨post', last', rfl⟩
  · obtain ⟨hpre, hlast⟩ := List.append_inj' hh rfl
    exact Or.inl ⟨rfl, hpre, List.singleton_inj.1 hlast⟩
  · rw [List.concat_eq_append, ← List.cons_append, ← List.append_assoc] at hh
    obtain ⟨hpre, hlast⟩ := List.append_inj' hh rfl
    exact Or.inr ⟨post', by rw [List.concat_eq_append, List.singleton_inj.1 hlast], hpre⟩

/-- The register holds `a` exactly when an event set it to `a` and all later ones left it alone. -/
theorem contents_eq_some_iff {eff : ε → Effect α} {h : List ε} {a : α} :
    contents eff h = some a ↔
      ∃ pre ev post, h = pre ++ ev :: post ∧ eff ev = .set a ∧ ∀ ev' ∈ post, eff ev' = .keep := by
  induction h using List.reverseRecOn with
  | nil => simp
  | append_singleton h last ih =>
    rw [contents_append_singleton]
    constructor
    · intro hs
      cases hl : eff last with
      | set b =>
        rw [hl] at hs
        cases hs
        exact ⟨h, last, [], rfl, hl, by simp⟩
      | clear =>
        rw [hl] at hs
        cases hs
      | keep =>
        rw [hl] at hs
        obtain ⟨pre, ev, post, rfl, hset, hkeep⟩ := ih.1 hs
        refine ⟨pre, ev, post ++ [last], by simp, hset, fun ev' hev' => ?_⟩
        rcases List.mem_append.1 hev' with hev' | hev'
        · exact hkeep ev' hev'
        · rw [List.mem_singleton.1 hev']
          exact hl
    · rintro ⟨pre, ev, post, hh, hset, hkeep⟩
      rcases split_append_singleton hh with ⟨rfl, rfl, rfl⟩ | ⟨post', rfl, rfl⟩
      · rw [hset]
        rfl
      · rw [hkeep last (by simp)]
        exact ih.2 ⟨pre, ev, post', rfl, hset, fun ev' hev' => hkeep ev' (by simp [hev'])⟩

end Effect
