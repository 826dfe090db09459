import Mathlib.Tactic
import Mathlib.Data.List.Basic

/-!
# The elements of a list at some of its positions

* `List.atPositions l js`: the elements of `l` at the positions `js`;
* `atPositions_range_ne`: all positions but one;
* `atPositions_range_filter`: the positions of the elements without a property;
* `exists_last_split`: the last element with a property;
* `filterMap_eraseIdx_of_none`, `exists_filterMap_eraseIdx`: erasing an element before and after
  `filterMap`.
-/

namespace List

variable {α : Type*}

/-- The elements at the given positions; positions outside the list are passed over. -/
def atPositions (l : List α) (js : List ℕ) : List α := js.filterMap fun j => l[j]?

/-- Positions in the tail of a list. -/
theorem atPositions_cons_map_succ (a : α) (l : List α) (js : List ℕ) :
    (a :: l).atPositions (js.map Nat.succ) = l.atPositions js := by
  unfold atPositions
  rw [filterMap_map]
  rfl

theorem atPositions_range (l : List α) : l.atPositions (range l.length) = l := by
  induction l with
  | nil => rfl
  | cons a l ih =>
    rw [length_cons, range_succ_eq_map]
    show a :: (a :: l).atPositions ((range l.length).map Nat.succ) = a :: l
    rw [atPositions_cons_map_succ, ih]

/-- All positions but one. -/
theorem atPositions_range_ne (l : List α) (i : ℕ) :
    l.atPositions ((range l.length).filter fun j => j != i) = l.eraseIdx i := by
  induction l generalizing i with
  | nil => rfl
  | cons a l ih =>
    rw [length_cons, range_succ_eq_map, filter_cons, filter_map]
    cases i with
    | zero =>
      have hall : (range l.length).filter ((fun j => j != 0) ∘ Nat.succ) = range l.length :=
        filter_eq_self.2 fun j _ => rfl
      rw [if_neg (by decide), hall, atPositions_cons_map_succ, atPositions_range]
      rfl
    | succ i =>
      have hsucc : ((fun j => j != i + 1) ∘ Nat.succ) = fun j => j != i := by
        funext j
        simp
      rw [if_pos (by simp), hsucc]
      show a :: (a :: l).atPositions (((range l.length).filter fun j => j != i).map Nat.succ) = _
      rw [atPositions_cons_map_succ, ih]
      rfl

/-- The positions of the elements without a property. -/
theorem atPositions_range_filter (l : List α) (p : α → Bool) :
    l.atPositions ((range l.length).filter fun j => !(l[j]?.any p)) = l.filter fun a => !p a := by
  induction l with
  | nil => rfl
  | cons a l ih =>
    rw [length_cons, range_succ_eq_map, filter_cons, filter_map, filter_cons]
    have hsucc : ((fun j => !((a :: l)[j]?.any p)) ∘ Nat.succ) = fun j => !(l[j]?.any p) := rfl
    rw [hsucc]
    have htail : (a :: l).atPositions
        (((range l.length).filter fun j => !(l[j]?.any p)).map Nat.succ) =
          l.filter fun a => !p a := by
      rw [atPositions_cons_map_succ, ih]
    by_cases hp : p a = true
    · rw [if_neg (by simp [hp]), if_neg (by simp [hp]), htail]
    · rw [if_pos (by simp [hp]), if_pos (by simp [hp])]
      exact congrArg (a :: ·) htail

/-- The last element with a property. -/
theorem exists_last_split {p : α → Prop} {l : List α} (h : ∃ a ∈ l, p a) :
    ∃ pre a post, l = pre ++ a :: post ∧ p a ∧ ∀ b ∈ post, ¬ p b := by
  induction l using List.reverseRecOn with
  | nil => simp at h
  | append_singleton l x ih =>
    by_cases hx : p x
    · exact ⟨l, x, [], rfl, hx, by simp⟩
    · obtain ⟨a, ha, hpa⟩ := h
      have ha' : a ∈ l := by
        rcases mem_append.1 ha with ha | ha
        · exact ha
        · rw [mem_singleton.1 ha] at hpa
          exact absurd hpa hx
      obtain ⟨pre, b, post, rfl, hb, hpost⟩ := ih ⟨a, ha', hpa⟩
      refine ⟨pre, b, post ++ [x], by simp, hb, fun c hc => ?_⟩
      rcases mem_append.1 hc with hc | hc
      · exact hpost c hc
      · rw [mem_singleton.1 hc]
        exact hx

section FilterMap

variable {β : Type*} {f : α → Option β} {l : List α} {n : ℕ} {a : α}

theorem filterMap_eraseIdx_of_none (hn : l[n]? = some a) (hf : f a = none) :
    (l.eraseIdx n).filterMap f = l.filterMap f := by
  induction l generalizing n with
  | nil => cases hn
  | cons x l ih =>
    cases n with
    | zero =>
      cases hn
      rw [eraseIdx_cons_zero, filterMap_cons_none hf]
    | succ n =>
      rw [eraseIdx_cons_succ, filterMap_cons, filterMap_cons, ih (by simpa using hn)]

theorem exists_filterMap_eraseIdx {b : β} (hn : l[n]? = some a) (hf : f a = some b) :
    ∃ m, (l.filterMap f)[m]? = some b ∧
      (l.eraseIdx n).filterMap f = (l.filterMap f).eraseIdx m := by
  induction l generalizing n with
  | nil => cases hn
  | cons x l ih =>
    cases n with
    | zero =>
      cases hn
      refine ⟨0, ?_, ?_⟩
      · rw [filterMap_cons_some hf, getElem?_cons_zero]
      · rw [eraseIdx_cons_zero, filterMap_cons_some hf, eraseIdx_cons_zero]
    | succ n =>
      obtain ⟨m, hm, herase⟩ := ih (n := n) (by simpa using hn)
      rw [eraseIdx_cons_succ]
      cases hx : f x with
      | none =>
        rw [filterMap_cons_none hx, filterMap_cons_none hx]
        exact ⟨m, hm, herase⟩
      | some y =>
        rw [filterMap_cons_some hx, filterMap_cons_some hx]
        exact ⟨m + 1, by rwa [getElem?_cons_succ], by rw [eraseIdx_cons_succ, herase]⟩

end FilterMap

end List
