import Mathlib.Combinatorics.SimpleGraph.Acyclic
import Mathlib.Data.Fintype.Card
import Mathlib.Tactic

/-!
# Flooding through bridges

Links are joined by bridges.  A bridge copies what it hears on one of its links to each of its
others, but never handles a copy of its own.  `Trail o t` says that `t` is the way of a copy of
something that started on the link `o`, the latest hop first.

* `incidence`: the bipartite graph of links and bridges;
* `Trail.exists_path`: in an acyclic graph a trail is a path, so that it meets every bridge and
  every link at most once (`Trail.nodup`) and is determined by its end (`Trail.unique`);
* `exists_trail`: every link that is connected to the origin is the end of a trail;
* `Spread`: the ways of all copies of one message, as they come to be one after the other;
  in an acyclic graph no two of them end on one link (`Spread.nodup_links`), and when no bridge has
  anything left to copy there is one on every connected link (`Spread.mem_of_quiet`);
* `bounded_iff_isAcyclic`: with finitely many bridges, floods end exactly in acyclic graphs.
-/

namespace Bridges

variable {N L : Type*}

/-- The graph of links and bridges, for the bridges that are attached to a link. -/
def incidence (att : N → L → Prop) : SimpleGraph (L ⊕ N) where
  Adj
    | .inl l, .inr n => att n l
    | .inr n, .inl l => att n l
    | _, _ => False
  symm := ⟨by rintro (l | n) (l' | n') h <;> exact h⟩
  loopless := ⟨by rintro (l | n) h <;> exact h⟩

/-- The link on which a copy is after its hops. -/
def here (o : L) : List (N × L) → L
  | [] => o
  | hop :: _ => hop.2

/-- The way of a copy: each hop is made by a bridge that is attached to both links, and not by the
one that made the hop before. -/
inductive Trail (att : N → L → Prop) (o : L) : List (N × L) → Prop
  | nil : Trail att o []
  | hop {t : List (N × L)} {n : N} {l : L} (ht : Trail att o t) (hin : att n (here o t))
      (hout : att n l) (hlink : l ≠ here o t) (hnew : ∀ h ∈ t.head?, h.1 ≠ n) :
      Trail att o ((n, l) :: t)

/-- The vertices of a trail. -/
def vertices (o : L) : List (N × L) → List (L ⊕ N)
  | [] => [.inl o]
  | (n, l) :: t => .inl l :: .inr n :: vertices o t

variable {att : N → L → Prop} {o : L} {t t' : List (N × L)}

theorem vertices_injective (o : L) : Function.Injective (vertices o : List (N × L) → _) := by
  intro t t' h
  induction t generalizing t' with
  | nil =>
    cases t' with
    | nil => rfl
    | cons hop t' => simp [vertices] at h
  | cons hop t ih =>
    cases t' with
    | nil => simp [vertices] at h
    | cons hop' t' =>
      simp only [vertices, List.cons.injEq, Sum.inl.injEq, Sum.inr.injEq] at h
      obtain ⟨hl, hn, ht⟩ := h
      rw [ih ht, Prod.ext hn hl]

theorem inl_here_mem_vertices (o : L) (t : List (N × L)) : Sum.inl (here o t) ∈ vertices o t := by
  cases t <;> simp [here, vertices]

theorem inr_mem_vertices {n : N} (h : n ∈ t.map Prod.fst) : Sum.inr n ∈ vertices o t := by
  induction t with
  | nil => cases h
  | cons hop t ih =>
    rw [List.map_cons, List.mem_cons] at h
    rcases h with rfl | h
    · simp [vertices]
    · simp [vertices, ih h]

/-! ### Trails are paths -/

/-- A trail is a walk that does not turn back, from its end to its origin. -/
theorem Trail.exists_walk (h : Trail att o t) :
    ∃ p : (incidence att).Walk (.inl (here o t)) (.inl o),
      p.support = vertices o t ∧ p.edges.IsChain (· ≠ ·) ∧
        ∀ e ∈ p.edges.head?, ∃ hop ∈ t.head?, e = s(.inl hop.2, .inr hop.1) := by
  induction h with
  | nil => exact ⟨.nil, rfl, List.isChain_nil, fun e he => nomatch he⟩
  | @hop t n l ht hin hout hlink hnew ih =>
    obtain ⟨p, hsupp, hchain, hhead⟩ := ih
    have hadj : (incidence att).Adj (.inl l) (.inr n) := hout
    have hadj' : (incidence att).Adj (.inr n) (.inl (here o t)) := hin
    let q : (incidence att).Walk (.inl l) (.inl o) := .cons hadj (.cons hadj' p)
    have hedges : q.edges = s(.inl l, .inr n) :: s(.inr n, .inl (here o t)) :: p.edges := rfl
    have hhere : here o ((n, l) :: t) = l := rfl
    rw [hhere]
    refine ⟨q, congrArg (fun vs => Sum.inl l :: Sum.inr n :: vs) hsupp, ?_, ?_⟩
    · rw [hedges, List.isChain_cons_cons, List.isChain_cons]
      refine ⟨?_, ?_, hchain⟩
      · -- the bridge does not send back to the link it heard
        simp [hlink]
      · -- the next bridge is another one
        intro e he
        obtain ⟨hop, hhop, rfl⟩ := hhead e he
        have hne := hnew hop hhop
        simp [Ne.symm hne]
    · intro e he
      rw [hedges] at he
      cases he
      exact ⟨(n, l), rfl, rfl⟩

theorem Trail.exists_path (hG : (incidence att).IsAcyclic) (h : Trail att o t) :
    ∃ p : (incidence att).Walk (.inl (here o t)) (.inl o), p.IsPath ∧ p.support = vertices o t := by
  obtain ⟨p, hsupp, hchain, -⟩ := h.exists_walk
  exact ⟨p, (hG.isPath_iff_isChain p).2 hchain, hsupp⟩

/-- **Nothing is visited twice.** -/
theorem Trail.nodup (hG : (incidence att).IsAcyclic) (h : Trail att o t) :
    (vertices o t).Nodup := by
  obtain ⟨p, hpath, hsupp⟩ := h.exists_path hG
  rw [← hsupp]
  exact hpath.support_nodup

/-- **A link is reached in one way only.** -/
theorem Trail.unique (hG : (incidence att).IsAcyclic) (h : Trail att o t) (h' : Trail att o t')
    (hend : here o t = here o t') : t = t' := by
  obtain ⟨p, hpath, hsupp⟩ := h.exists_path hG
  obtain ⟨p', hpath', hsupp'⟩ := h'.exists_path hG
  apply vertices_injective o
  rw [← hsupp, ← hsupp']
  generalize here o t = l at p hpath hend
  subst hend
  have hsub := hG.subsingleton_path (.inl (here o t')) (.inl o)
  have heq : p = p' := congrArg Subtype.val (hsub.elim ⟨p, hpath⟩ ⟨p', hpath'⟩)
  rw [heq]

theorem nodup_bridges (h : (vertices o t).Nodup) : (t.map Prod.fst).Nodup := by
  induction t with
  | nil => exact List.nodup_nil
  | cons hop t ih =>
    obtain ⟨n, l⟩ := hop
    simp only [vertices, List.nodup_cons] at h
    rw [List.map_cons, List.nodup_cons]
    exact ⟨fun hmem => h.2.1 (inr_mem_vertices hmem), ih h.2.2⟩

/-- A trail has no more hops than there are bridges. -/
theorem Trail.length_le [Fintype N] (hG : (incidence att).IsAcyclic) (h : Trail att o t) :
    t.length ≤ Fintype.card N := by
  rw [← List.length_map (f := Prod.fst)]
  exact (nodup_bridges (h.nodup hG)).length_le_card

/-! ### Paths are trails -/

theorem exists_trail_of_isPath {l : L} (p : (incidence att).Walk (.inl l) (.inl o))
    (hp : p.IsPath) : ∃ t, Trail att o t ∧ here o t = l ∧ vertices o t = p.support := by
  induction hlen : p.length using Nat.strong_induction_on generalizing l with
  | _ k ih =>
    subst hlen
    cases p with
    | nil => exact ⟨[], .nil, rfl, rfl⟩
    | @cons _ v _ hadj q =>
      cases v with
      | inl l' => exact hadj.elim
      | inr n =>
        cases q with
        | @cons _ v' _ hadj' r =>
          cases v' with
          | inr n' => exact hadj'.elim
          | inl l' =>
            simp only [SimpleGraph.Walk.cons_isPath_iff, SimpleGraph.Walk.support_cons,
              List.mem_cons, not_or] at hp
            obtain ⟨⟨hr, hn⟩, -, hl⟩ := hp
            obtain ⟨t, ht, rfl, hsupp⟩ := ih r.length (by simp) r hr rfl
            refine ⟨(n, l) :: t, .hop ht hadj' hadj ?_ ?_, rfl, by simp [vertices, hsupp]⟩
            · rintro rfl
              exact hl (hsupp ▸ inl_here_mem_vertices o t)
            · intro hop hhop heq
              have hmem : n ∈ t.map Prod.fst :=
                List.mem_map.2 ⟨hop, List.mem_of_mem_head? hhop, heq⟩
              exact hn (hsupp ▸ inr_mem_vertices hmem)

/-- **Every link that is connected to the origin is reached.** -/
theorem exists_trail {l : L} (h : (incidence att).Reachable (.inl l) (.inl o)) :
    ∃ t, Trail att o t ∧ here o t = l := by
  classical
  obtain ⟨p⟩ := h
  obtain ⟨t, ht, hend, -⟩ := exists_trail_of_isPath p.toPath.1 p.toPath.2
  exact ⟨t, ht, hend⟩

/-! ### Floods -/

/-- The bridge `n` may copy to the link `l` what came along `t`: it is attached to both links, and
it has not sent the copy itself. -/
structure Hop (att : N → L → Prop) (o : L) (t : List (N × L)) (n : N) (l : L) : Prop where
  hears : att n (here o t)
  sends : att n l
  link : l ≠ here o t
  foreign : ∀ h ∈ t.head?, h.1 ≠ n

theorem Hop.trail {n : N} {l : L} (h : Hop att o t n l) (ht : Trail att o t) :
    Trail att o ((n, l) :: t) :=
  .hop ht h.hears h.sends h.link h.foreign

/-- A flood from the link `o`: the ways of all copies that were made, and which bridge has heard
which copy.  A bridge hears a copy once, and then puts at most one copy of it on each of its other
links, or exactly one if nothing is lost (`full`). -/
inductive Spread (att : N → L → Prop) (full : Prop) (o : L) :
    List (List (N × L)) → List (ℕ × N) → Prop
  | start : Spread att full o [[]] []
  | hear {ways : List (List (N × L))} {heard : List (ℕ × N)} {i : ℕ} {t : List (N × L)} {n : N}
      {ls : List L} (h : Spread att full o ways heard) (hi : ways[i]? = some t)
      (hnew : (i, n) ∉ heard) (hnodup : ls.Nodup) (hhop : ∀ l ∈ ls, Hop att o t n l)
      (hfull : full → ∀ l, Hop att o t n l → l ∈ ls) :
      Spread att full o (ways ++ ls.map fun l => (n, l) :: t) ((i, n) :: heard)

/-- What holds of every flood: the ways are trails, no two copies have come the same way, and a copy
was made when the one before it was heard. -/
structure Spread.Sound (att : N → L → Prop) (full : Prop) (o : L) (ways : List (List (N × L)))
    (heard : List (ℕ × N)) : Prop where
  trail : ∀ t ∈ ways, Trail att o t
  nodup : ways.Nodup
  origin : [] ∈ ways
  parent : ∀ n l t, (n, l) :: t ∈ ways → ∃ i, ways[i]? = some t ∧ (i, n) ∈ heard
  heard_lt : ∀ p ∈ heard, p.1 < ways.length
  heard_nodup : heard.Nodup
  copied : full → ∀ p ∈ heard, ∀ t, ways[p.1]? = some t → ∀ l, Hop att o t p.2 l →
    (p.2, l) :: t ∈ ways

variable {full : Prop} {ways : List (List (N × L))} {heard : List (ℕ × N)}

/-- **One hearing** keeps all this. -/
theorem Spread.Sound.hear (h : Spread.Sound att full o ways heard) {i : ℕ} {n : N} {ls : List L}
    (hi : ways[i]? = some t) (hnew : (i, n) ∉ heard) (hnodup : ls.Nodup)
    (hhop : ∀ l ∈ ls, Hop att o t n l) (hfull : full → ∀ l, Hop att o t n l → l ∈ ls) :
    Spread.Sound att full o (ways ++ ls.map fun l => (n, l) :: t) ((i, n) :: heard) := by
  have hlt : i < ways.length := (List.getElem?_eq_some_iff.1 hi).1
  have hold : ∀ {j : ℕ} {t' : List (N × L)}, ways[j]? = some t' →
      (ways ++ ls.map fun l => (n, l) :: t)[j]? = some t' := by
    intro j t' hj
    rw [List.getElem?_append_left (List.getElem?_eq_some_iff.1 hj).1]
    exact hj
  refine ⟨?_, ?_, List.mem_append_left _ h.origin, ?_, ?_, ?_, ?_⟩
  · intro t' ht'
    rcases List.mem_append.1 ht' with ht' | ht'
    · exact h.trail t' ht'
    · obtain ⟨l, hl, rfl⟩ := List.mem_map.1 ht'
      exact (hhop l hl).trail (h.trail t (List.mem_of_getElem? hi))
  · -- a copy that has come the same way would have been made when this bridge heard this copy
    refine List.Nodup.append h.nodup (hnodup.map fun l l' heq => by simpa using heq) ?_
    intro t' hmem hmem'
    obtain ⟨l, hl, rfl⟩ := List.mem_map.1 hmem'
    obtain ⟨j, hj, hheard⟩ := h.parent n l t hmem
    have hji : j = i := by
      have hjlt := (List.getElem?_eq_some_iff.1 hj).1
      exact (List.getElem?_inj hjlt h.nodup).1 (hj.trans hi.symm)
    exact hnew (hji ▸ hheard)
  · intro n' l t' hmem
    rcases List.mem_append.1 hmem with hmem | hmem
    · obtain ⟨j, hj, hheard⟩ := h.parent n' l t' hmem
      exact ⟨j, hold hj, List.mem_cons_of_mem _ hheard⟩
    · obtain ⟨l', -, heq⟩ := List.mem_map.1 hmem
      cases heq
      exact ⟨i, hold hi, List.mem_cons_self⟩
  · intro p hp
    rw [List.length_append]
    rcases List.mem_cons.1 hp with rfl | hp
    · exact Nat.lt_add_right _ hlt
    · exact Nat.lt_add_right _ (h.heard_lt p hp)
  · exact List.nodup_cons.2 ⟨hnew, h.heard_nodup⟩
  · intro hf p hp t' ht' l hl
    have hplt : p.1 < ways.length := by
      rcases List.mem_cons.1 hp with rfl | hp
      · exact hlt
      · exact h.heard_lt p hp
    rw [List.getElem?_append_left hplt] at ht'
    rcases List.mem_cons.1 hp with rfl | hp
    · obtain rfl : t' = t := Option.some.inj (ht'.symm.trans hi)
      exact List.mem_append_right _ (List.mem_map_of_mem (hfull hf l hl))
    · exact List.mem_append_left _ (h.copied hf p hp t' ht' l hl)

theorem Spread.sound (h : Spread att full o ways heard) : Spread.Sound att full o ways heard := by
  induction h with
  | start =>
    refine ⟨?_, List.nodup_singleton _, List.mem_singleton_self _, ?_, ?_, List.nodup_nil, ?_⟩
    · intro t ht
      rw [List.mem_singleton.1 ht]
      exact .nil
    · intro n l t ht
      cases List.mem_singleton.1 ht
    · intro p hp
      cases hp
    · intro _ p hp
      cases hp
  | hear h hi hnew hnodup hhop hfull ih => exact ih.hear hi hnew hnodup hhop hfull

/-- **Without cycles, no link gets two copies.** -/
theorem Spread.nodup_links (hG : (incidence att).IsAcyclic) (h : Spread att full o ways heard) :
    (ways.map (here o)).Nodup := by
  refine List.Nodup.map_on ?_ h.sound.nodup
  intro t ht t' ht' heq
  exact (h.sound.trail t ht).unique hG (h.sound.trail t' ht') heq

/-- Once every copy was heard by all bridges on its link, and nothing was lost, there is a copy that
has come along each trail. -/
theorem Spread.mem_of_quiet (h : Spread att True o ways heard)
    (hquiet : ∀ i t, ways[i]? = some t → ∀ n, att n (here o t) → (i, n) ∈ heard)
    (ht : Trail att o t) : t ∈ ways := by
  induction ht with
  | nil => exact h.sound.origin
  | @hop t n l ht hin hout hlink hnew ih =>
    obtain ⟨i, hi⟩ := List.getElem?_of_mem ih
    exact h.sound.copied trivial (i, n) (hquiet i t hi n hin) t hi l ⟨hin, hout, hlink, hnew⟩

section Bounds

variable [Fintype N] {links : N → List L} (hlinks : ∀ n l, att n l → l ∈ links n)

include hlinks in
/-- Without cycles, there are no more copies than attachments. -/
theorem Spread.length_le (hG : (incidence att).IsAcyclic) (h : Spread att full o ways heard) :
    ways.length ≤ 1 + ∑ n, (links n).length := by
  have hsub : ways.map (here o) ⊆ o :: (Finset.univ : Finset N).toList.flatMap links := by
    intro l hl
    obtain ⟨t, ht, rfl⟩ := List.mem_map.1 hl
    cases h.sound.trail t ht with
    | nil => exact List.mem_cons_self
    | @hop t n l ht hin hout hlink hnew =>
      refine List.mem_cons_of_mem _ (List.mem_flatMap.2 ⟨n, ?_, hlinks n l hout⟩)
      exact Finset.mem_toList.2 (Finset.mem_univ n)
  have hle := (List.subperm_of_subset (h.nodup_links hG) hsub).length_le
  rw [List.length_map, List.length_cons, List.length_flatMap, Finset.sum_map_toList] at hle
  omega

/-- There are no more hearings than copies and bridges. -/
theorem Spread.heard_length_le (h : Spread att full o ways heard) :
    heard.length ≤ ways.length * Fintype.card N := by
  classical
  have hsub : heard.toFinset ⊆ (Finset.range ways.length) ×ˢ (Finset.univ : Finset N) := by
    intro p hp
    rw [List.mem_toFinset] at hp
    rw [Finset.mem_product]
    exact ⟨Finset.mem_range.2 (h.sound.heard_lt p hp), Finset.mem_univ _⟩
  have hle := Finset.card_le_card hsub
  rwa [List.toFinset_card_of_nodup h.sound.heard_nodup, Finset.card_product, Finset.card_range,
    Finset.card_univ] at hle

end Bounds

/-! ### Floods that do not end -/

/-- Around a cycle one can go forever without turning back. -/
theorem exists_endless_walk {V : Type*} {G : SimpleGraph V} (hG : ¬ G.IsAcyclic) :
    ∃ x : ℕ → V, (∀ i, G.Adj (x i) (x (i + 1))) ∧ ∀ i, x i ≠ x (i + 2) := by
  unfold SimpleGraph.IsAcyclic at hG
  push Not at hG
  obtain ⟨v, c, hc⟩ := hG
  have hlen := hc.three_le_length
  have hmod : ∀ i, i % c.length < c.length := fun i => Nat.mod_lt i (by omega)
  refine ⟨fun i => c.getVert (i % c.length), ?_, ?_⟩
  · intro i
    show G.Adj (c.getVert (i % c.length)) (c.getVert ((i + 1) % c.length))
    have hadj := c.adj_getVert_succ (hmod i)
    have hone : 1 % c.length = 1 := Nat.mod_eq_of_lt (by omega)
    rw [Nat.add_mod, hone]
    by_cases hlast : i % c.length + 1 = c.length
    · -- the last vertex is the first one again
      rw [hlast, c.getVert_length] at hadj
      rw [hlast, Nat.mod_self, c.getVert_zero]
      exact hadj
    · have hlt := hmod i
      have hnext : (i % c.length + 1) % c.length = i % c.length + 1 := Nat.mod_eq_of_lt (by omega)
      rw [hnext]
      exact hadj
  · intro i heq
    have hi := hmod i
    have hi' := hmod (i + 2)
    have hinj := hc.getVert_injOn' (show i % c.length ≤ c.length - 1 by omega)
      (show (i + 2) % c.length ≤ c.length - 1 by omega) heq
    -- a cycle is longer than two
    have hdvd : c.length ∣ 2 := by
      have hmodeq : i + 0 ≡ i + 2 [MOD c.length] := hinj
      exact (Nat.modEq_zero_iff_dvd.1 (Nat.ModEq.add_left_cancel' i hmodeq).symm)
    have := Nat.le_of_dvd (by omega) hdvd
    omega

/-- Along a walk that does not turn back, a copy travels forever. -/
theorem exists_long_trail (hG : ¬ (incidence att).IsAcyclic) :
    ∃ o, ∀ k, ∃ t, Trail att o t ∧ t.length = k := by
  obtain ⟨x, hadj, hback⟩ := exists_endless_walk hG
  -- start on a link
  obtain ⟨i₀, o, ho⟩ : ∃ i o, x i = .inl o := by
    cases h0 : x 0 with
    | inl o => exact ⟨0, o, h0⟩
    | inr n =>
      have hadj0 := hadj 0
      cases h1 : x 1 with
      | inl o => exact ⟨1, o, h1⟩
      | inr n' =>
        rw [h0, h1] at hadj0
        exact hadj0.elim
  have hlong : ∀ k, ∃ t, Trail att o t ∧ t.length = k ∧ x (i₀ + 2 * k) = .inl (here o t) ∧
      ∀ h ∈ t.head?, x (i₀ + 2 * k - 1) = .inr h.1 := by
    intro k
    induction k with
    | zero => exact ⟨[], .nil, rfl, ho, fun h hh => nomatch hh⟩
    | succ k ih =>
      obtain ⟨t, ht, hlen, hend, hlast⟩ := ih
      have h₁ := hadj (i₀ + 2 * k)
      have h₂ := hadj (i₀ + 2 * k + 1)
      rw [hend] at h₁
      cases hn : x (i₀ + 2 * k + 1) with
      | inl l =>
        rw [hn] at h₁
        exact h₁.elim
      | inr n =>
        rw [hn] at h₁ h₂
        cases hl : x (i₀ + 2 * k + 1 + 1) with
        | inr n' =>
          rw [hl] at h₂
          exact h₂.elim
        | inl l =>
          rw [hl] at h₂
          refine ⟨(n, l) :: t, .hop ht h₁ h₂ ?_ ?_, by simp [hlen], rfl, ?_⟩
          · rintro rfl
            exact hback (i₀ + 2 * k) (hend.trans hl.symm)
          · rintro h hh rfl
            have hk : 0 < k := by
              rw [← hlen]
              exact List.length_pos_of_mem (List.mem_of_mem_head? hh)
            have hidx : i₀ + 2 * k - 1 + 2 = i₀ + 2 * k + 1 := by omega
            exact hback (i₀ + 2 * k - 1) ((hlast h hh).trans (by rw [hidx, hn]))
          · intro h hh
            cases hh
            exact hn
  refine ⟨o, fun k => ?_⟩
  obtain ⟨t, ht, hlen, -⟩ := hlong k
  exact ⟨t, ht, hlen⟩

/-- **Floods end exactly in acyclic graphs.** -/
theorem bounded_iff_isAcyclic [Finite N] :
    (∀ o, ∃ b, ∀ t, Trail att o t → t.length ≤ b) ↔ (incidence att).IsAcyclic := by
  constructor
  · intro h
    by_contra hG
    obtain ⟨o, hlong⟩ := exists_long_trail hG
    obtain ⟨b, hb⟩ := h o
    obtain ⟨t, ht, hlen⟩ := hlong (b + 1)
    have := hb t ht
    omega
  · intro hG o
    have := Fintype.ofFinite N
    exact ⟨Fintype.card N, fun t ht => ht.length_le hG⟩

/-- Two bridges with one link in common make no cycle. -/
theorem isAcyclic_of_two [Finite N] (htwo : ∀ n n' n'' : N, n = n' ∨ n' = n'' ∨ n = n'')
    (hcommon : ∀ n n', n ≠ n' → ∀ l l', att n l → att n' l → att n l' → att n' l' → l = l') :
    (incidence att).IsAcyclic := by
  rw [← bounded_iff_isAcyclic]
  refine fun o => ⟨2, fun t ht => ?_⟩
  rcases ht with _ | @⟨t, n, l, ht, hin, hout, hlink, hnew⟩
  · simp
  rcases ht with _ | @⟨t, n', l', ht, hin', hout', hlink', hnew'⟩
  · simp
  rcases ht with _ | @⟨t, n'', l'', ht, hin'', hout'', hlink'', hnew''⟩
  · simp
  -- the first and the third bridge would be the same, and share two links with the second
  have hne : n' ≠ n := hnew (n', l') rfl
  have hne' : n'' ≠ n' := hnew' (n'', l'') rfl
  have heq : n = n'' := by
    rcases htwo n n' n'' with h | h | h
    · exact absurd h.symm hne
    · exact absurd h.symm hne'
    · exact h
  subst heq
  exact absurd (hcommon n' n hne l' l'' hout' hin hin' hout'') hlink'

/-- Two bridges between the same two links make one. -/
theorem not_isAcyclic_of_parallel {n n' : N} (hn : n ≠ n') {l l' : L} (hl : l ≠ l')
    (h₁ : att n l) (h₂ : att n l') (h₃ : att n' l) (h₄ : att n' l') :
    ¬ (incidence att).IsAcyclic := by
  intro hG
  have hway : Trail att l [(n, l')] := .hop .nil h₁ h₂ (Ne.symm hl) (fun h hh => nomatch hh)
  have hway' : Trail att l [(n', l')] := .hop .nil h₃ h₄ (Ne.symm hl) (fun h hh => nomatch hh)
  have heq := hway.unique hG hway' rfl
  simp [hn] at heq

end Bridges
