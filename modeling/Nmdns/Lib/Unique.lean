import Nmdns.Lib.KeyedMap

/-!
# Collecting without repetition

A list is built element by element beside the set of keys seen so far: an element is appended only
if its key is new.  The set may start with keys that belong to no element (`seed`).

* `push`, `pushAll`;
* `Coherent`: the collected elements have distinct keys, none of them a seed, and the set of seen
  keys is exactly the seeds and their keys; `Coherent.pushAll` keeps it;
* `mem_pushAll`, `subset_pushAll`, `seen_pushAll`, `mem_pushAll_iff`: what is collected.
-/

namespace Unique

variable {α κ : Type*} [BEq κ] (key : α → κ)

/-- Append `a` unless its key has been seen. -/
def push (acc : List α × List κ) (a : α) : List α × List κ :=
  if acc.2.any fun k => k == key a then acc else (acc.1 ++ [a], key a :: acc.2)

/-- Append the elements of a list one after the other. -/
def pushAll (acc : List α × List κ) (l : List α) : List α × List κ := l.foldl (push key) acc

/-- The collected elements and the seen keys fit together. -/
structure Coherent (seed : List κ) (acc : List α × List κ) : Prop where
  distinct : acc.1.Pairwise fun a b => (key a == key b) = false
  fresh : ∀ a ∈ acc.1, (seed.any fun k => k == key a) = false
  seen : ∀ k, (acc.2.any fun l => l == k) =
    ((seed.any fun l => l == k) || acc.1.any fun a => key a == k)

theorem pushAll_cons (acc : List α × List κ) (a : α) (l : List α) :
    pushAll key acc (a :: l) = pushAll key (push key acc a) l := rfl

theorem pushAll_append (acc : List α × List κ) (l l' : List α) :
    pushAll key acc (l ++ l') = pushAll key (pushAll key acc l) l' :=
  List.foldl_append

/-- Appending one batch after the other is appending their concatenation. -/
theorem foldl_pushAll {β : Type*} (f : β → List α) (l : List β) (acc : List α × List κ) :
    l.foldl (fun acc b => pushAll key acc (f b)) acc = pushAll key acc (l.flatMap f) := by
  induction l generalizing acc with
  | nil => rfl
  | cons b l ih => rw [List.foldl_cons, ih, List.flatMap_cons, pushAll_append]

theorem coherent_seed (seed : List κ) : Coherent key seed (([] : List α), seed) where
  distinct := List.Pairwise.nil
  fresh := by simp
  seen := by simp

variable {key} {seed : List κ} {acc : List α × List κ}

theorem Coherent.push (h : Coherent key seed acc) (a : α) :
    Coherent key seed (push key acc a) := by
  unfold Unique.push
  split_ifs with hseen
  · exact h
  · rw [Bool.not_eq_true, h.seen, Bool.or_eq_false_iff] at hseen
    obtain ⟨hseed, hnew⟩ := hseen
    rw [List.any_eq_false] at hnew
    refine ⟨?_, ?_, ?_⟩
    · rw [List.pairwise_append]
      refine ⟨h.distinct, List.pairwise_singleton _ _, fun b hb c hc => ?_⟩
      rw [List.mem_singleton.1 hc]
      simpa using hnew b hb
    · intro b hb
      rcases List.mem_append.1 hb with hb | hb
      · exact h.fresh b hb
      · rw [List.mem_singleton.1 hb]
        exact hseed
    · intro k
      rw [List.any_cons, h.seen, List.any_append, List.any_cons, List.any_nil, Bool.or_false]
      cases key a == k <;> cases seed.any fun l => l == k <;> simp

theorem Coherent.pushAll (h : Coherent key seed acc) (l : List α) :
    Coherent key seed (pushAll key acc l) := by
  induction l generalizing acc with
  | nil => exact h
  | cons a l ih => exact ih (h.push a)

theorem seen_push_of_seen {k : κ} (a : α) (h : (acc.2.any fun l => l == k) = true) :
    ((push key acc a).2.any fun l => l == k) = true := by
  unfold push
  split_ifs
  · exact h
  · rw [List.any_cons, h, Bool.or_true]

/-- Nothing is collected that was not offered, or whose key had been seen. -/
theorem mem_pushAll {l : List α} {a : α} (h : a ∈ (pushAll key acc l).1) :
    a ∈ acc.1 ∨ (a ∈ l ∧ (acc.2.any fun k => k == key a) = false) := by
  induction l generalizing acc with
  | nil => exact Or.inl h
  | cons b l ih =>
    rcases ih h with hb | ⟨hl, hfresh⟩
    · unfold push at hb
      split_ifs at hb with hseen
      · exact Or.inl hb
      · rcases List.mem_append.1 hb with hb | hb
        · exact Or.inl hb
        · rw [List.mem_singleton.1 hb]
          exact Or.inr ⟨List.mem_cons_self, Bool.not_eq_true _ ▸ hseen⟩
    · refine Or.inr ⟨List.mem_cons_of_mem _ hl, ?_⟩
      -- the seen keys only grow
      by_contra hseen
      rw [seen_push_of_seen b (Bool.not_eq_false _ ▸ hseen)] at hfresh
      cases hfresh

/-- What has been collected stays. -/
theorem subset_pushAll (acc : List α × List κ) (l : List α) : acc.1 ⊆ (pushAll key acc l).1 := by
  induction l generalizing acc with
  | nil => exact List.Subset.refl _
  | cons b l ih =>
    refine List.Subset.trans ?_ (ih _)
    unfold push
    split_ifs
    · exact List.Subset.refl _
    · exact List.subset_append_left _ _

/-- Every element offered ends with its key among the seen ones. -/
theorem seen_pushAll [EquivBEq κ] {l : List α} {a : α}
    (h : (acc.2.any fun k => k == key a) = true ∨ a ∈ l) :
    ((pushAll key acc l).2.any fun k => k == key a) = true := by
  induction l generalizing acc with
  | nil =>
    rcases h with h | h
    · exact h
    · cases h
  | cons b l ih =>
    rw [pushAll_cons]
    rcases h with h | h
    · exact ih (Or.inl (seen_push_of_seen b h))
    · rcases List.mem_cons.1 h with rfl | h
      · refine ih (Or.inl ?_)
        unfold push
        split_ifs with hs
        · exact hs
        · rw [List.any_cons, BEq.rfl, Bool.true_or]
      · exact ih (Or.inr h)

/-- Every element offered is represented by a collected one with an equal key, or by a seed. -/
theorem exists_mem_pushAll [EquivBEq κ] (hc : Coherent key seed acc) {l : List α} {a : α}
    (h : a ∈ l) :
    (seed.any fun k => k == key a) = true ∨ ∃ b ∈ (pushAll key acc l).1, key b == key a := by
  have hs : ((pushAll key acc l).2.any fun k => k == key a) = true := seen_pushAll (Or.inr h)
  rw [(hc.pushAll l).seen, Bool.or_eq_true] at hs
  exact hs.imp_right fun hb => List.any_eq_true.1 hb

/-- Where elements with equal keys are equal, everything offered is collected unless its key is a
seed. -/
theorem mem_pushAll_iff [EquivBEq κ] {l : List α}
    (hkey : ∀ a ∈ l, ∀ b ∈ l, key a == key b → a = b) {a : α} :
    a ∈ (pushAll key ([], seed) l).1 ↔ a ∈ l ∧ (seed.any fun k => k == key a) = false := by
  constructor
  · intro h
    rcases mem_pushAll h with h | h
    · cases h
    · exact h
  · rintro ⟨hl, hfresh⟩
    rcases exists_mem_pushAll (coherent_seed key seed) hl with hseed | ⟨b, hb, hba⟩
    · rw [hfresh] at hseed
      cases hseed
    · rcases mem_pushAll hb with hb' | ⟨hbl, -⟩
      · cases hb'
      · rw [← hkey b hbl a hl hba]
        exact hb

end Unique
