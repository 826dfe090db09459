import Mathlib.Tactic
import Mathlib.Data.List.Pairwise

/-!
# Finite maps keyed up to an equivalence

A hash map whose keys are compared by a Boolean equality that need not be structural: two keys
may be equal for the map and still be different values.  The map is the list of its entries,
with no two equal keys among them.

* `equivBEq_of_fold`: an equality that compares canonical forms is an equivalence;
* `KeyedMap κ ν`: the map, `find?`, `insert`, `erase`, `retain`;
* `IterOrder`: the order in which the entries are visited, an unspecified permutation of them;
* `minByKey`: the first visited element with a minimal weight; `IterOrder.sortedBy` visits the
  keys by rank;
* `Same`: two maps with the same bindings, whatever the order of their entries.

`find?_erase`, `find?_retain` and `find?_insert` say what each operation does to every binding.
-/

/-- A Boolean equality that compares canonical forms is an equivalence. -/
theorem equivBEq_of_fold {α β : Type*} [BEq α] (fold : α → β)
    (h : ∀ a b : α, (a == b) = true ↔ fold a = fold b) : EquivBEq α where
  symm {a b} hab := (h b a).2 ((h a b).1 hab).symm
  trans {a b c} hab hbc := (h a c).2 (((h a b).1 hab).trans ((h b c).1 hbc))
  rfl {a} := (h a a).2 rfl

/-- Pairs compared component by component. -/
instance instEquivBEqProd {α β : Type*} [BEq α] [EquivBEq α] [BEq β] [EquivBEq β] :
    EquivBEq (α × β) where
  symm {a b} hab := by
    obtain ⟨h₁, h₂⟩ := Bool.and_eq_true_iff.1 hab
    exact Bool.and_eq_true_iff.2 ⟨BEq.symm h₁, BEq.symm h₂⟩
  trans {a b c} hab hbc := by
    obtain ⟨h₁, h₂⟩ := Bool.and_eq_true_iff.1 hab
    obtain ⟨h₃, h₄⟩ := Bool.and_eq_true_iff.1 hbc
    exact Bool.and_eq_true_iff.2 ⟨BEq.trans h₁ h₃, BEq.trans h₂ h₄⟩
  rfl {a} := Bool.and_eq_true_iff.2 ⟨BEq.rfl, BEq.rfl⟩

/-- A finite map: entries with pairwise different keys. -/
structure KeyedMap (κ ν : Type*) [BEq κ] where
  entries : List (κ × ν)
  distinct : entries.Pairwise fun p q => (p.1 == q.1) = false

/-- The order in which a hash map is iterated: some permutation of its entries. -/
structure IterOrder (κ ν : Type*) where
  visit : List (κ × ν) → List (κ × ν)
  perm : ∀ l, (visit l).Perm l

/-- The order of the entry list itself. -/
def IterOrder.id (κ ν : Type*) : IterOrder κ ν := ⟨fun l => l, fun l => List.Perm.refl l⟩

/-- The first element of smallest weight. -/
def minByKey {α : Type*} (weight : α → ℕ) : List α → Option α
  | [] => none
  | a :: l =>
    match minByKey weight l with
    | none => some a
    | some b => if weight a ≤ weight b then some a else some b

theorem minByKey_eq_none {α : Type*} {weight : α → ℕ} {l : List α} :
    minByKey weight l = none ↔ l = [] := by
  cases l with
  | nil => simp [minByKey]
  | cons a l =>
    simp only [minByKey, reduceCtorEq, iff_false]
    split
    · simp
    · split_ifs <;> simp

/-- The minimum of a list is its head or the minimum of its tail. -/
theorem minByKey_cons_eq_some {α : Type*} {weight : α → ℕ} {x a : α} {l : List α}
    (h : minByKey weight (x :: l) = some a) :
    (l = [] ∧ a = x) ∨ ∃ b, minByKey weight l = some b ∧
      ((weight x ≤ weight b ∧ a = x) ∨ (weight b < weight x ∧ a = b)) := by
  simp only [minByKey] at h
  split at h
  · rename_i hnone
    cases h
    exact Or.inl ⟨minByKey_eq_none.1 hnone, rfl⟩
  · rename_i b hb
    refine Or.inr ⟨b, hb, ?_⟩
    split_ifs at h with hle
    · cases h
      exact Or.inl ⟨hle, rfl⟩
    · cases h
      exact Or.inr ⟨not_le.1 hle, rfl⟩

theorem minByKey_eq_some {α : Type*} {weight : α → ℕ} {l : List α} {a : α}
    (h : minByKey weight l = some a) : a ∈ l ∧ ∀ b ∈ l, weight a ≤ weight b := by
  induction l generalizing a with
  | nil => simp [minByKey] at h
  | cons x l ih =>
    rcases minByKey_cons_eq_some h with ⟨rfl, rfl⟩ | ⟨b, hb, ⟨hle, rfl⟩ | ⟨hlt, rfl⟩⟩
    · simp
    · obtain ⟨-, hmin⟩ := ih hb
      refine ⟨List.mem_cons_self, ?_⟩
      intro c hc
      rcases List.mem_cons.1 hc with rfl | hc
      · exact le_rfl
      · exact hle.trans (hmin c hc)
    · obtain ⟨hmem, hmin⟩ := ih hb
      refine ⟨List.mem_cons_of_mem _ hmem, ?_⟩
      intro c hc
      rcases List.mem_cons.1 hc with rfl | hc
      · exact hlt.le
      · exact hmin c hc

/-- Of the elements of smallest weight, the one visited first. -/
theorem minByKey_first {α : Type*} {weight : α → ℕ} {before : α → α → Prop} {l : List α}
    (hl : l.Pairwise before) {a b : α} (h : minByKey weight l = some a) (hb : b ∈ l)
    (hw : weight b = weight a) : a = b ∨ before a b := by
  induction l with
  | nil => cases hb
  | cons x l ih =>
    obtain ⟨hx, hl⟩ := List.pairwise_cons.1 hl
    rcases minByKey_cons_eq_some h with ⟨rfl, rfl⟩ | ⟨c, hc, ⟨hle, rfl⟩ | ⟨hlt, rfl⟩⟩
    · exact Or.inl (List.mem_singleton.1 hb).symm
    · exact (List.mem_cons.1 hb).imp Eq.symm (hx b)
    · rcases List.mem_cons.1 hb with rfl | hb
      · exact absurd hw hlt.ne'
      · exact ih hl hc hb

/-- The order that visits the keys by rank. -/
def IterOrder.sortedBy {κ α : Type*} (ν : Type*) [LinearOrder α] (rank : κ → α) :
    IterOrder κ ν :=
  ⟨fun l => l.mergeSort fun p q => decide (rank p.1 ≤ rank q.1), fun l => List.mergeSort_perm l _⟩

theorem IterOrder.pairwise_sortedBy {κ ν α : Type*} [LinearOrder α] (rank : κ → α)
    (l : List (κ × ν)) :
    ((IterOrder.sortedBy ν rank).visit l).Pairwise fun p q => rank p.1 ≤ rank q.1 := by
  refine (List.pairwise_mergeSort ?_ ?_ l).imp fun h => of_decide_eq_true h
  · simp only [decide_eq_true_eq]
    exact fun _ _ _ => le_trans
  · simp only [Bool.or_eq_true, decide_eq_true_eq]
    exact fun _ _ => le_total _ _

namespace KeyedMap

variable {κ ν : Type*} [BEq κ]

/-- The map with no entries. -/
def empty : KeyedMap κ ν := ⟨[], List.Pairwise.nil⟩

/-- The number of entries. -/
def length (m : KeyedMap κ ν) : ℕ := m.entries.length

/-- The value bound to `k`. -/
def find? (m : KeyedMap κ ν) (k : κ) : Option ν :=
  (m.entries.find? fun p => p.1 == k).map Prod.snd

/-- The entries in the order `σ` visits them. -/
def iter (m : KeyedMap κ ν) (σ : IterOrder κ ν) : List (κ × ν) := σ.visit m.entries

/-- Keep the entries that satisfy `keep`. -/
def retain (m : KeyedMap κ ν) (keep : κ → ν → Bool) : KeyedMap κ ν :=
  ⟨m.entries.filter fun p => keep p.1 p.2, m.distinct.filter _⟩

/-- Remove the binding of `k`. -/
def erase (m : KeyedMap κ ν) (k : κ) : KeyedMap κ ν := m.retain fun k' _ => !(k' == k)

/-- Bind `k` to `v`.  A binding that is already there keeps its place and its key. -/
def insert (m : KeyedMap κ ν) (k : κ) (v : ν) : KeyedMap κ ν :=
  if h : m.entries.any fun p => p.1 == k then
    ⟨m.entries.map fun p => if p.1 == k then (p.1, v) else p, by
      rw [List.pairwise_map]
      refine m.distinct.imp fun {p q} hpq => ?_
      split_ifs <;> exact hpq⟩
  else
    ⟨m.entries ++ [(k, v)], by
      rw [List.pairwise_append]
      refine ⟨m.distinct, List.pairwise_singleton _ _, fun p hp q hq => ?_⟩
      rw [List.mem_singleton] at hq
      subst hq
      simp only [List.any_eq_true, not_exists, not_and, Bool.not_eq_true] at h
      exact h p hp⟩

/-- Two maps with the same bindings. -/
def Same (m m' : KeyedMap κ ν) : Prop := ∀ k, m.find? k = m'.find? k

@[simp] theorem find?_empty (k : κ) : (empty : KeyedMap κ ν).find? k = none := rfl

theorem mem_iter {m : KeyedMap κ ν} {σ : IterOrder κ ν} {p : κ × ν} :
    p ∈ m.iter σ ↔ p ∈ m.entries := (σ.perm m.entries).mem_iff

section Equiv

variable [EquivBEq κ]

theorem find?_congr (m : KeyedMap κ ν) {k k' : κ} (h : k == k') : m.find? k = m.find? k' := by
  unfold find?
  congr 2
  funext p
  exact BEq.congr_right h

/-- Two entries with equal keys are one entry. -/
theorem eq_of_key_beq (m : KeyedMap κ ν) {p q : κ × ν} (hp : p ∈ m.entries) (hq : q ∈ m.entries)
    (h : p.1 == q.1) : p = q := by
  by_contra hne
  have hsymm : Std.Symm fun p q : κ × ν => (p.1 == q.1) = false :=
    ⟨fun _ _ hab => BEq.symm_false hab⟩
  have hfalse := m.distinct.forall hp hq hne
  rw [h] at hfalse
  exact Bool.noConfusion hfalse

/-- A binding is an entry whose key is equal to the key asked for. -/
theorem find?_eq_some_iff {m : KeyedMap κ ν} {k : κ} {v : ν} :
    m.find? k = some v ↔ ∃ k', (k', v) ∈ m.entries ∧ k' == k := by
  unfold find?
  constructor
  · intro h
    obtain ⟨⟨k', v'⟩, hp, rfl⟩ := Option.map_eq_some_iff.1 h
    exact ⟨k', List.mem_of_find?_eq_some hp, by simpa using List.find?_some hp⟩
  · rintro ⟨k', hmem, hk⟩
    have hs : (m.entries.find? fun p => p.1 == k).isSome := by
      rw [List.find?_isSome]
      exact ⟨_, hmem, hk⟩
    obtain ⟨p, hp⟩ := Option.isSome_iff_exists.1 hs
    have hpk : p.1 == k := by simpa using List.find?_some hp
    rw [hp, m.eq_of_key_beq (List.mem_of_find?_eq_some hp) hmem (BEq.trans hpk (BEq.symm hk))]
    rfl

/-- What `retain` does to one binding, when it treats equal keys alike. -/
theorem find?_retain (m : KeyedMap κ ν) {keep : κ → ν → Bool}
    (hk : ∀ k k' v, k == k' → keep k v = keep k' v) (k : κ) :
    (m.retain keep).find? k = (m.find? k).filter (keep k) := by
  ext v
  rw [find?_eq_some_iff, Option.filter_eq_some_iff, find?_eq_some_iff]
  constructor
  · rintro ⟨k', hmem, hkk⟩
    obtain ⟨hmem, hkeep⟩ := List.mem_filter.1 hmem
    exact ⟨⟨k', hmem, hkk⟩, by rw [← hk k' k v hkk]; exact hkeep⟩
  · rintro ⟨⟨k', hmem, hkk⟩, hkeep⟩
    refine ⟨k', List.mem_filter.2 ⟨hmem, ?_⟩, hkk⟩
    rw [hk k' k v hkk]
    exact hkeep

theorem find?_erase (m : KeyedMap κ ν) (k k' : κ) :
    (m.erase k).find? k' = if k' == k then none else m.find? k' := by
  unfold erase
  rw [find?_retain m (fun a b _ hab => by rw [BEq.congr_left hab])]
  cases h : k' == k <;> cases m.find? k' <;> simp [Option.filter]

/-- Under the inserted key, whether it was bound before or not. -/
theorem find?_insert_self (m : KeyedMap κ ν) {k k' : κ} (v : ν) (hk : k' == k) :
    (m.insert k v).find? k' = some v := by
  rw [find?_eq_some_iff]
  unfold insert
  split_ifs with h
  · obtain ⟨p, hp, hpk⟩ := List.any_eq_true.1 h
    exact ⟨p.1, List.mem_map.2 ⟨p, hp, by rw [if_pos hpk]⟩, BEq.trans hpk (BEq.symm hk)⟩
  · exact ⟨k, List.mem_append_right _ (List.mem_singleton.2 rfl), BEq.symm hk⟩

/-- Under any other key nothing changes. -/
theorem find?_insert_ne (m : KeyedMap κ ν) {k k' : κ} (v : ν) (hk : ¬ k' == k) :
    (m.insert k v).find? k' = m.find? k' := by
  ext w
  rw [find?_eq_some_iff, find?_eq_some_iff]
  unfold insert
  split_ifs with h
  · simp only [List.mem_map]
    constructor
    · rintro ⟨k₀, ⟨q, hq, hqe⟩, hk₀⟩
      split_ifs at hqe with hqk
      · cases hqe
        exact absurd (BEq.trans (BEq.symm hk₀) hqk) hk
      · subst hqe
        exact ⟨_, hq, hk₀⟩
    · rintro ⟨k₀, hmem, hk₀⟩
      refine ⟨k₀, ⟨_, hmem, ?_⟩, hk₀⟩
      rw [if_neg]
      exact fun hkk => hk (BEq.trans (BEq.symm hk₀) hkk)
  · simp only [List.mem_append, List.mem_singleton]
    constructor
    · rintro ⟨k₀, hmem | hmem, hk₀⟩
      · exact ⟨k₀, hmem, hk₀⟩
      · cases hmem
        exact absurd (BEq.symm hk₀) hk
    · rintro ⟨k₀, hmem, hk₀⟩
      exact ⟨k₀, Or.inl hmem, hk₀⟩

theorem find?_insert (m : KeyedMap κ ν) (k k' : κ) (v : ν) :
    (m.insert k v).find? k' = if k' == k then some v else m.find? k' := by
  by_cases hk : k' == k
  · rw [if_pos hk, m.find?_insert_self v hk]
  · rw [if_neg hk, m.find?_insert_ne v hk]

end Equiv

/-! ### Counting -/

theorem length_retain_le (m : KeyedMap κ ν) (keep : κ → ν → Bool) :
    (m.retain keep).length ≤ m.length := List.length_filter_le _ _

theorem length_insert_le (m : KeyedMap κ ν) (k : κ) (v : ν) :
    (m.insert k v).length ≤ m.length + 1 := by
  unfold insert length
  split_ifs
  · rw [List.length_map]
    exact Nat.le_succ _
  · rw [List.length_append]
    exact le_rfl

/-- Binding a bound key again adds no entry. -/
theorem length_insert_of_bound [EquivBEq κ] (m : KeyedMap κ ν) {k : κ} (hk : m.find? k ≠ none)
    (v : ν) : (m.insert k v).length = m.length := by
  have hany : (m.entries.any fun p => p.1 == k) = true := by
    obtain ⟨w, hw⟩ := Option.ne_none_iff_exists'.1 hk
    obtain ⟨k', hmem, hkk⟩ := find?_eq_some_iff.1 hw
    exact List.any_eq_true.2 ⟨_, hmem, hkk⟩
  unfold insert length
  rw [dif_pos hany, List.length_map]

/-- Removing an entry removes that entry only. -/
theorem entries_perm_erase [EquivBEq κ] (m : KeyedMap κ ν) {p : κ × ν} (hp : p ∈ m.entries) :
    m.entries.Perm (p :: (m.erase p.1).entries) := by
  obtain ⟨pre, post, hsplit⟩ := List.append_of_mem hp
  have hd := m.distinct
  rw [hsplit, List.pairwise_append, List.pairwise_cons] at hd
  obtain ⟨-, ⟨hpost, -⟩, hpre⟩ := hd
  have hpre' : pre.filter (fun q => !(q.1 == p.1)) = pre := by
    refine List.filter_eq_self.2 fun q hq => ?_
    rw [hpre q hq p List.mem_cons_self]
    rfl
  have hpost' : post.filter (fun q => !(q.1 == p.1)) = post := by
    refine List.filter_eq_self.2 fun q hq => ?_
    rw [BEq.symm_false (hpost q hq)]
    rfl
  have herase : (m.erase p.1).entries = pre ++ post := by
    show m.entries.filter (fun q => !(q.1 == p.1)) = pre ++ post
    rw [hsplit, List.filter_append, List.filter_cons, hpre', hpost', BEq.rfl]
    simp
  rw [herase, hsplit]
  exact List.perm_middle

theorem length_erase [EquivBEq κ] (m : KeyedMap κ ν) {p : κ × ν} (hp : p ∈ m.entries) :
    (m.erase p.1).length + 1 = m.length :=
  (m.entries_perm_erase hp).length_eq.symm

/-- Removing an entry leaves fewer. -/
theorem length_erase_lt [EquivBEq κ] (m : KeyedMap κ ν) {p : κ × ν} (hp : p ∈ m.entries) :
    (m.erase p.1).length < m.length := by
  have := m.length_erase hp
  omega

/-- The number of entries whose value satisfies `P`. -/
def count (P : ν → Bool) (m : KeyedMap κ ν) : ℕ := m.entries.countP fun p => P p.2

theorem count_eq_length {P : ν → Bool} {m : KeyedMap κ ν} (h : ∀ p ∈ m.entries, P p.2 = true) :
    m.count P = m.length :=
  List.countP_eq_length.2 h

/-- A new binding does not lower a count. -/
theorem count_le_insert [EquivBEq κ] (P : ν → Bool) (m : KeyedMap κ ν) {k : κ}
    (hk : m.find? k = none) (v : ν) : m.count P ≤ (m.insert k v).count P := by
  have hany : ¬ (m.entries.any fun p => p.1 == k) = true := by
    intro hany
    obtain ⟨p, hp, hpk⟩ := List.any_eq_true.1 hany
    rw [find?_eq_some_iff.2 ⟨p.1, hp, hpk⟩] at hk
    cases hk
  unfold insert count
  rw [dif_neg hany, List.countP_append]
  exact Nat.le_add_right _ _

/-- **Removing the lightest entry**: the entries of weight `d` or more stay as many as they were, or
all that are left are such. -/
theorem min_count_le_erase [EquivBEq κ] {weight : ν → ℕ} {m : KeyedMap κ ν} {p : κ × ν}
    (hp : p ∈ m.entries) (hleast : ∀ q ∈ m.entries, weight p.2 ≤ weight q.2) (d : ℕ) :
    min (m.count fun v => decide (d ≤ weight v)) (m.length - 1) ≤
      (m.erase p.1).count fun v => decide (d ≤ weight v) := by
  have hperm := m.entries_perm_erase hp
  by_cases hd : d ≤ weight p.2
  · have hall : ∀ q ∈ (m.erase p.1).entries, decide (d ≤ weight q.2) = true := fun q hq =>
      decide_eq_true (hd.trans (hleast q (hperm.symm.subset (List.mem_cons_of_mem _ hq))))
    have hcount : (m.erase p.1).count (fun v => decide (d ≤ weight v)) = (m.erase p.1).length :=
      count_eq_length hall
    have hlen := m.length_erase hp
    omega
  · have hcount := hperm.countP_eq fun q : κ × ν => decide (d ≤ weight q.2)
    rw [List.countP_cons_of_neg (by simpa using hd)] at hcount
    exact (Nat.min_le_left _ _).trans_eq hcount

section Card

variable [EquivBEq κ] {δ : Type*} [DecidableEq δ] {fold : κ → δ}

/-- The canonical forms of the bound keys. -/
def keys (fold : κ → δ) (m : KeyedMap κ ν) : Finset δ :=
  (m.entries.map fun p => fold p.1).toFinset

omit [EquivBEq κ] in
theorem card_keys_le (fold : κ → δ) (m : KeyedMap κ ν) : (m.keys fold).card ≤ m.length :=
  (List.toFinset_card_le _).trans (List.length_map _).le

theorem fold_mem_keys (hfold : ∀ a b : κ, (a == b) = true ↔ fold a = fold b) (m : KeyedMap κ ν)
    {k : κ} (hk : m.find? k ≠ none) : fold k ∈ m.keys fold := by
  obtain ⟨v, hv⟩ := Option.ne_none_iff_exists'.1 hk
  obtain ⟨k', hmem, hkk⟩ := find?_eq_some_iff.1 hv
  rw [keys, List.mem_toFinset, ← (hfold k' k).1 hkk]
  exact List.mem_map_of_mem hmem

/-- A map has no more entries than there are keys, counted by their canonical forms. -/
theorem length_le_card (hfold : ∀ a b : κ, (a == b) = true ↔ fold a = fold b) (m : KeyedMap κ ν)
    {S : Finset δ} (hS : ∀ k v, m.find? k = some v → fold k ∈ S) : m.length ≤ S.card := by
  have hnodup : (m.entries.map fun p => fold p.1).Nodup := by
    rw [List.Nodup, List.pairwise_map]
    refine m.distinct.imp fun {p q} hpq heq => ?_
    rw [(hfold p.1 q.1).2 heq] at hpq
    exact Bool.noConfusion hpq
  have hsub : (m.entries.map fun p => fold p.1).toFinset ⊆ S := by
    intro d hd
    rw [List.mem_toFinset, List.mem_map] at hd
    obtain ⟨p, hp, rfl⟩ := hd
    exact hS p.1 p.2 (find?_eq_some_iff.2 ⟨p.1, hp, BEq.rfl⟩)
  calc m.length = (m.entries.map fun p => fold p.1).length := (List.length_map _).symm
    _ = (m.entries.map fun p => fold p.1).toFinset.card :=
        (List.toFinset_card_of_nodup hnodup).symm
    _ ≤ S.card := Finset.card_le_card hsub

/-- A key that is not bound leaves room among the keys. -/
theorem length_lt_card (hfold : ∀ a b : κ, (a == b) = true ↔ fold a = fold b) (m : KeyedMap κ ν)
    {S : Finset δ} (hS : ∀ k v, m.find? k = some v → fold k ∈ S) {k : κ} (hk : fold k ∈ S)
    (hnone : m.find? k = none) : m.length < S.card := by
  have hle : m.length ≤ (S.erase (fold k)).card := by
    refine length_le_card hfold m fun k' v hv => Finset.mem_erase.2 ⟨fun heq => ?_, hS k' v hv⟩
    rw [find?_congr m ((hfold k' k).2 heq), hnone] at hv
    cases hv
  have hcard := Finset.card_erase_of_mem hk
  have hpos := Finset.card_pos.2 ⟨_, hk⟩
  omega

/-- A map whose keys are all bound in another one is no longer than that one. -/
theorem length_le_of_bound (hfold : ∀ a b : κ, (a == b) = true ↔ fold a = fold b)
    {m m' : KeyedMap κ ν} (h : ∀ k, m.find? k ≠ none → m'.find? k ≠ none) :
    m.length ≤ m'.length := by
  refine (length_le_card hfold m fun k v hv => m'.fold_mem_keys hfold (h k ?_)).trans
    (m'.card_keys_le fold)
  rw [hv]
  exact Option.some_ne_none v

/-- It is shorter if it leaves one of them out. -/
theorem length_lt_of_bound (hfold : ∀ a b : κ, (a == b) = true ↔ fold a = fold b)
    {m m' : KeyedMap κ ν} (h : ∀ k, m.find? k ≠ none → m'.find? k ≠ none) {k : κ}
    (hk : m.find? k = none) (hk' : m'.find? k ≠ none) : m.length < m'.length := by
  refine (length_lt_card hfold m (fun k v hv => m'.fold_mem_keys hfold (h k ?_))
    (m'.fold_mem_keys hfold hk') hk).trans_le (m'.card_keys_le fold)
  rw [hv]
  exact Option.some_ne_none v

end Card

end KeyedMap
