import Mathlib.Tactic

/-!
# Prefixes of bit vectors

The first bits of a word, counted from the most significant one, and the masks that select them.

* `SamePrefix p x y`: the first `p` bits of `x` and `y` coincide;
* `leadingMask w p`: `p` ones, then zeros; `and_leadingMask_eq_iff`: words agree under the mask
  exactly when they have the same prefix;
* `checkedMask`: the mask computed by a subtraction and a shift that may overflow;
* `leadingRun x`: the number of ones before the first zero; `Contiguous x`: no one after a zero;
  `eq_leadingMask_of_contiguous`: a contiguous word is the mask of its leading run.
-/

namespace BitVec

variable {w : ℕ}

/-- The first `p` bits of `x` and `y` coincide. -/
def SamePrefix (p : ℕ) (x y : BitVec w) : Prop := ∀ i < p, x.getMsbD i = y.getMsbD i

/-- The word of `p` ones followed by zeros. -/
def leadingMask (w p : ℕ) : BitVec w := if p = 0 then 0 else allOnes w <<< (w - p)

/-- A subtraction of unsigned numbers that fails on underflow. -/
def checkedSub (a b : ℕ) : Option ℕ := if b ≤ a then some (a - b) else none

/-- A shift that fails when the amount reaches the width of the word. -/
def checkedShl (x : BitVec w) (n : ℕ) : Option (BitVec w) := if n < w then some (x <<< n) else none

/-- The computation of `leadingMask` with both checks. -/
def checkedMask (w p : ℕ) : Option (BitVec w) :=
  if p = 0 then some 0 else (checkedSub w p).bind (checkedShl (allOnes w))

theorem getMsbD_leadingMask (w p i : ℕ) :
    (leadingMask w p).getMsbD i = (decide (i < w) && decide (i < p)) := by
  unfold leadingMask
  split_ifs with hp
  · subst hp
    simp
  · rw [getMsbD_shiftLeft, getMsbD_allOnes, ← Bool.decide_and, decide_eq_decide]
    omega

/-- **Masks compare prefixes.** -/
theorem and_leadingMask_eq_iff {p : ℕ} (hp : p ≤ w) (x y : BitVec w) :
    x &&& leadingMask w p = y &&& leadingMask w p ↔ SamePrefix p x y := by
  constructor
  · intro h i hi
    have hbit := congrArg (fun z => getMsbD z i) h
    have hw : i < w := by omega
    simpa [getMsbD_leadingMask, hi, hw] using hbit
  · intro h
    refine eq_of_getMsbD_eq fun i hi => ?_
    rw [getMsbD_and, getMsbD_and, getMsbD_leadingMask]
    by_cases hip : i < p
    · rw [h i hip]
    · simp [hip]

/-- Within the width, neither check fails. -/
theorem checkedMask_eq {p : ℕ} (hp : p ≤ w) : checkedMask w p = some (leadingMask w p) := by
  unfold checkedMask leadingMask
  split_ifs with h0
  · rfl
  · have hlt : w - p < w := by omega
    rw [checkedSub, if_pos hp, Option.bind_some, checkedShl, if_pos hlt]

/-! ### Leading ones -/

/-- An addition of unsigned `n`-bit numbers that fails on overflow. -/
def checkedAdd (n a b : ℕ) : Option ℕ := if a + b < 2 ^ n then some (a + b) else none

/-- The bits of a word, the most significant one first. -/
def msbs (x : BitVec w) : List Bool := (List.range w).map x.getMsbD

/-- The number of ones before the first zero. -/
def leadingRun (x : BitVec w) : ℕ := (x.msbs.takeWhile id).length

/-- Ones first, then zeros. -/
def Contiguous (x : BitVec w) : Prop := ∀ i j, i ≤ j → x.getMsbD j = true → x.getMsbD i = true

@[simp] theorem length_msbs (x : BitVec w) : x.msbs.length = w := by
  simp [msbs]

theorem getElem?_msbs (x : BitVec w) {i : ℕ} (hi : i < w) : x.msbs[i]? = some (x.getMsbD i) := by
  simp [msbs, hi]

/-- Before its end a run has ones only. -/
theorem getElem?_of_lt_takeWhile (l : List Bool) {i : ℕ} (hi : i < (l.takeWhile id).length) :
    l[i]? = some true := by
  induction l generalizing i with
  | nil => simp at hi
  | cons b l ih =>
    cases b with
    | false => simp at hi
    | true =>
      cases i with
      | zero => rfl
      | succ i =>
        apply ih
        simpa using hi

/-- A run does not end before a one. -/
theorem getElem?_takeWhile_ne (l : List Bool) : l[(l.takeWhile id).length]? ≠ some true := by
  induction l with
  | nil => simp
  | cons b l ih =>
    cases b with
    | false => simp
    | true => simpa using ih

theorem leadingRun_le (x : BitVec w) : x.leadingRun ≤ w := by
  have hle := (List.takeWhile_prefix id (l := x.msbs)).length_le
  rwa [length_msbs] at hle

theorem getMsbD_of_lt_leadingRun (x : BitVec w) {i : ℕ} (hi : i < x.leadingRun) :
    x.getMsbD i = true := by
  have hw : i < w := lt_of_lt_of_le hi x.leadingRun_le
  have hbit := getElem?_of_lt_takeWhile x.msbs hi
  rw [x.getElem?_msbs hw] at hbit
  exact Option.some.inj hbit

theorem getMsbD_leadingRun (x : BitVec w) : x.getMsbD x.leadingRun = false := by
  rcases Nat.lt_or_ge x.leadingRun w with hw | hw
  · have hbit := getElem?_takeWhile_ne x.msbs
    rw [← leadingRun, x.getElem?_msbs hw] at hbit
    rw [← Bool.not_eq_true]
    intro htrue
    exact hbit (congrArg some htrue)
  · exact getMsbD_of_ge x _ hw

theorem contiguous_leadingMask (w p : ℕ) : (leadingMask w p).Contiguous := by
  intro i j hij hj
  rw [getMsbD_leadingMask, Bool.and_eq_true, decide_eq_true_eq, decide_eq_true_eq] at hj ⊢
  omega

/-- **A contiguous word is a mask**: as many ones as its leading run has. -/
theorem eq_leadingMask_of_contiguous {x : BitVec w} (h : x.Contiguous) :
    x = leadingMask w x.leadingRun := by
  apply eq_of_getMsbD_eq
  intro i hi
  rw [getMsbD_leadingMask, decide_eq_true hi, Bool.true_and]
  by_cases hrun : i < x.leadingRun
  · rw [x.getMsbD_of_lt_leadingRun hrun, decide_eq_true hrun]
  · rw [decide_eq_false hrun, ← Bool.not_eq_true]
    intro htrue
    have hend := h x.leadingRun i (by omega) htrue
    rw [x.getMsbD_leadingRun] at hend
    cases hend

end BitVec
