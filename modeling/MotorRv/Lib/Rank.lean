import Mathlib.Data.List.Sort
import Mathlib.Algebra.BigOperators.Group.List.Basic
import Mathlib.Tactic.Linarith

/-!
# Ranks and running totals

A monotone key sorts the elements of a list into buckets. The running total of the bucket sizes
counts the elements with smaller keys (`sum_take_counts`), and in the sorted list these come first
(`getElem_iff_lt_countP`). So the element of rank `r` has the key at which the running total passes
`r` (`key_eq_of_rank`).

The elements are of any type with any relation that the keys respect, and the number of buckets is a
parameter. The counts are those of the list in whatever order it came (`counts_perm`), while a rank
refers to the sorted list; the scan over the buckets never sorts anything. That the first bucket
whose running total passes the rank is the bucket of the element of that rank is all that a quantile
needs from its histogram.
-/

namespace Lib

variable {α : Type*} {le : α → α → Prop}

/-- A downward closed predicate holds of the first elements of a sorted list, as many as it has. -/
theorem getElem_iff_lt_countP {p : α → Bool} (hp : ∀ x y, le x y → p y → p x) :
    ∀ {l : List α}, l.Pairwise le → ∀ {r : ℕ} (hr : r < l.length), p l[r] ↔ r < l.countP p
  | [], _, _, hr => absurd hr (Nat.not_lt_zero _)
  | x :: xs, hl, r, hr => by
    obtain ⟨hx, hxs⟩ := List.pairwise_cons.mp hl
    by_cases hpx : p x
    · rw [List.countP_cons_of_pos hpx]
      cases r with
      | zero => simp [hpx]
      | succ r =>
        rw [List.getElem_cons_succ, getElem_iff_lt_countP hp hxs]
        omega
    · -- nothing after an element without the property has it
      have hnone : (x :: xs).countP p = 0 := by
        rw [List.countP_eq_zero]
        rintro y hy hpy
        obtain rfl | hy := List.mem_cons.mp hy
        · exact hpx hpy
        · exact hpx (hp x y (hx y hy) hpy)
      rw [hnone]
      simp only [Nat.not_lt_zero, iff_false]
      exact List.countP_eq_zero.mp hnone _ (List.getElem_mem hr)

/-- How many elements have each of the first `n` keys. -/
def counts (key : α → ℕ) (n : ℕ) (l : List α) : List ℕ :=
  (List.range n).map fun i => l.countP (key · = i)

variable {key : α → ℕ} {n : ℕ} {l : List α}

theorem length_counts : (counts key n l).length = n := by simp [counts]

theorem counts_nil : counts key n [] = List.replicate n 0 := by
  refine List.ext_getElem (by simp [counts]) fun i _ _ => ?_
  simp [counts]

/-- One element more is one more in its bucket. -/
theorem counts_cons (x : α) : counts key n (x :: l) = (counts key n l).modify (key x) (· + 1) := by
  refine List.ext_getElem (by simp [counts]) fun i hi _ => ?_
  simp only [counts, List.getElem_map, List.getElem_range, List.getElem_modify, List.countP_cons]
  by_cases h : key x = i
  · simp [h]
  · simp [h]

theorem counts_perm {l' : List α} (h : l.Perm l') : counts key n l = counts key n l' := by
  simp only [counts, h.countP_eq]

theorem countP_lt_succ (key : α → ℕ) (k : ℕ) : ∀ l : List α,
    l.countP (key · < k + 1) = l.countP (key · < k) + l.countP (key · = k)
  | [] => rfl
  | x :: xs => by
    simp only [List.countP_cons, countP_lt_succ key k xs, decide_eq_true_eq]
    split_ifs <;> omega

/-- The running total of the buckets counts the smaller keys. -/
theorem sum_take_counts {k : ℕ} (hk : k ≤ n) :
    ((counts key n l).take k).sum = l.countP (key · < k) := by
  have hmin : min k n = k := Nat.min_eq_left hk
  rw [counts, ← List.map_take, List.take_range, hmin]
  clear hk hmin
  induction k with
  | zero => simp
  | succ k ih =>
    rw [List.range_succ, List.map_append, List.sum_append, ih, countP_lt_succ]
    simp

/-- The element of rank `r` has the key at which the running total passes `r`. -/
theorem key_eq_of_rank (hkey : ∀ x y, le x y → key x ≤ key y) (hl : l.Pairwise le) {r i : ℕ} {x : α}
    (hx : l[r]? = some x) (hi : i < n) (hlow : ((counts key n l).take i).sum ≤ r)
    (hhigh : r < ((counts key n l).take (i + 1)).sum) : key x = i := by
  rw [sum_take_counts (by omega)] at hlow hhigh
  obtain ⟨hr, rfl⟩ := List.getElem?_eq_some_iff.mp hx
  have hdown : ∀ k, key l[r] < k ↔ r < l.countP (key · < k) := by
    intro k
    rw [← getElem_iff_lt_countP (p := fun x => key x < k) _ hl hr, decide_eq_true_eq]
    intro x y hxy hy
    have := hkey x y hxy
    simp only [decide_eq_true_eq] at hy ⊢
    omega
  have hsucc := (hdown (i + 1)).mpr hhigh
  have hlt : ¬ key l[r] < i := fun h => absurd ((hdown i).mp h) (by omega)
  omega

end Lib
