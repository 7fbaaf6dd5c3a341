import Mathlib.Algebra.Order.Round
import Mathlib.Algebra.Order.Archimedean.Basic
import Mathlib.Algebra.Ring.Int.Parity
import Mathlib.Tactic.Linarith
import Mathlib.Tactic.FieldSimp
import Mathlib.Tactic.Ring

/-!
# Rounding to integers

Rounding toward zero, to the nearest integer with ties away from zero, and to the nearest integer
with ties to even. Each is given by a formula and known by what it says: a candidate that is near
enough, on the right side, is the rounded value. For a quotient of integers this is a statement
about the remainder.

The characterisations come first (`truncate_of_nonneg`, `halfAway_of_nonneg`, `halfToEven_of_near`
and `halfToEven_of_tie`, with their mirror images): each takes a candidate and inequalities about
it, and no floor or ceiling is left in a proof that uses them. The second half says, for a quotient
of integers, which of these inequalities the truncated quotient and its remainder satisfy, since
that is what a machine division returns: `truncate_div`, `halfAway_div` and `halfToEven_div` read
the rounded value off `tdiv` and `tmod`, with the sign of the remainder that of the dividend.
-/

namespace Lib

variable {K : Type*} [Field K] [LinearOrder K] [IsStrictOrderedRing K] [FloorRing K]

/-- Toward zero. -/
def truncate (x : K) : ℤ := if x < 0 then ⌈x⌉ else ⌊x⌋

/-- To the nearest integer, ties away from zero. -/
def halfAway (x : K) : ℤ := if x < 0 then ⌈x - 1 / 2⌉ else ⌊x + 1 / 2⌋

/-- To the nearest integer, ties to even. -/
def halfToEven (x : K) : ℤ :=
  if x - ⌊x⌋ < 1 / 2 then ⌊x⌋
  else if 1 / 2 < x - ⌊x⌋ then ⌊x⌋ + 1
  else if Even ⌊x⌋ then ⌊x⌋ else ⌊x⌋ + 1

variable {x : K} {z : ℤ}

omit [IsStrictOrderedRing K] in

/-- Truncation of what is not negative, from the bounds of the result. -/
theorem truncate_of_nonneg (hx : 0 ≤ x) (hlow : (z : K) ≤ x) (hhigh : x < z + 1) :
    truncate x = z := by
  rw [truncate, if_neg hx.not_gt]
  exact Int.floor_eq_iff.mpr ⟨hlow, hhigh⟩

omit [IsStrictOrderedRing K] in

/-- Truncation of what is negative, from the bounds of the result. -/
theorem truncate_of_neg (hx : x < 0) (hlow : (z : K) - 1 < x) (hhigh : x ≤ z) : truncate x = z := by
  rw [truncate, if_pos hx]
  exact Int.ceil_eq_iff.mpr ⟨hlow, hhigh⟩

/-- Rounding of what is not negative, from the bounds of the result. -/
theorem halfAway_of_nonneg (hx : 0 ≤ x) (hlow : (z : K) - 1 / 2 ≤ x) (hhigh : x < z + 1 / 2) :
    halfAway x = z := by
  rw [halfAway, if_neg hx.not_gt]
  exact Int.floor_eq_iff.mpr ⟨by linarith, by linarith⟩

/-- Rounding of what is negative, from the bounds of the result. -/
theorem halfAway_of_neg (hx : x < 0) (hlow : (z : K) - 1 / 2 < x) (hhigh : x ≤ z + 1 / 2) :
    halfAway x = z := by
  rw [halfAway, if_pos hx]
  exact Int.ceil_eq_iff.mpr ⟨by linarith, by linarith⟩

/-- The nearest integer. -/
theorem halfToEven_of_near (h : |x - z| < 1 / 2) : halfToEven x = z := by
  obtain ⟨hlow, hhigh⟩ := abs_lt.mp h
  unfold halfToEven
  obtain hle | hlt := le_or_gt (z : K) x
  · have hfloor : ⌊x⌋ = z := Int.floor_eq_iff.mpr ⟨hle, by linarith⟩
    rw [hfloor, if_pos hhigh]
  · have hfloor : ⌊x⌋ = z - 1 := by
      refine Int.floor_eq_iff.mpr ⟨?_, ?_⟩
      · push_cast
        linarith
      · push_cast
        linarith
    rw [hfloor]
    push_cast
    rw [if_neg (by linarith), if_pos (by linarith), sub_add_cancel]

/-- Between two integers, the even one. -/
theorem halfToEven_of_tie (h : |x - z| = 1 / 2) (hz : Even z) : halfToEven x = z := by
  unfold halfToEven
  obtain hpos | hneg := (abs_eq (by norm_num)).mp h
  · have hfloor : ⌊x⌋ = z := Int.floor_eq_iff.mpr ⟨by linarith, by linarith⟩
    rw [hfloor, if_neg (by linarith), if_neg (by linarith), if_pos hz]
  · have hfloor : ⌊x⌋ = z - 1 := by
      refine Int.floor_eq_iff.mpr ⟨?_, ?_⟩
      · push_cast
        linarith
      · push_cast
        linarith
    have hodd : ¬ Even (z - 1) := by
      rw [Int.even_sub_one, not_not]
      exact hz
    rw [hfloor]
    push_cast
    rw [if_neg (by linarith), if_neg (by linarith), if_neg hodd, sub_add_cancel]

/-! ### Quotients -/

section Quotient

variable {n d : ℤ}

omit [IsStrictOrderedRing K] in

/-- The distance of a quotient to an integer, over the denominator. -/
theorem div_sub_intCast (hd : 0 < d) (n z : ℤ) : (n : K) / d - z = ((n - z * d : ℤ) : K) / d := by
  have hd' : (d : K) ≠ 0 := by exact_mod_cast hd.ne'
  push_cast
  field_simp

/-- The distance of a quotient from an integer, in terms of the remainder. -/
theorem abs_div_sub_lt (hd : 0 < d) (h : 2 * |n - z * d| < d) : |(n : K) / d - z| < 1 / 2 := by
  have hd' : (0 : K) < d := by exact_mod_cast hd
  rw [div_sub_intCast hd, abs_div, abs_of_pos hd', div_lt_iff₀ hd']
  have : (2 : K) * |((n - z * d : ℤ) : K)| < d := by exact_mod_cast h
  linarith

/-- A tie is a remainder of half the denominator. -/
theorem abs_div_sub_eq (hd : 0 < d) (h : 2 * |n - z * d| = d) : |(n : K) / d - z| = 1 / 2 := by
  have hd' : (0 : K) < d := by exact_mod_cast hd
  rw [div_sub_intCast hd, abs_div, abs_of_pos hd', div_eq_iff hd'.ne']
  have : (2 : K) * |((n - z * d : ℤ) : K)| = d := by exact_mod_cast h
  linarith

theorem div_nonneg_iff_of_pos (hd : 0 < d) : (0 : K) ≤ (n : K) / d ↔ 0 ≤ n := by
  have hd' : (0 : K) < d := by exact_mod_cast hd
  rw [le_div_iff₀ hd', zero_mul]
  exact_mod_cast Iff.rfl

theorem div_neg_iff_of_pos (hd : 0 < d) : (n : K) / d < 0 ↔ n < 0 := by
  rw [← not_le, div_nonneg_iff_of_pos hd, not_le]

/-- The quotient that truncates is the truncated quotient. -/
theorem truncate_div (hd : 0 < d) : truncate ((n : K) / d) = n.tdiv d := by
  have hd' : (0 : K) < d := by exact_mod_cast hd
  have hsplit := Int.mul_tdiv_add_tmod n d
  obtain hneg | hpos := lt_or_ge n 0
  · have hlow := Int.lt_tmod_of_pos n hd
    have hr : n.tmod d ≤ 0 := by
      rw [← neg_neg n, Int.neg_tmod]
      exact neg_nonpos.mpr (Int.tmod_nonneg d (by omega))
    refine truncate_of_neg ((div_neg_iff_of_pos hd).mpr hneg) ?_ ?_
    · rw [lt_div_iff₀ hd']
      exact_mod_cast (by linarith : (n.tdiv d - 1) * d < n)
    · rw [div_le_iff₀ hd']
      exact_mod_cast (by linarith : n ≤ n.tdiv d * d)
  · have hlt := Int.tmod_lt_of_pos n hd
    have hr := Int.tmod_nonneg d hpos
    refine truncate_of_nonneg ((div_nonneg_iff_of_pos hd).mpr hpos) ?_ ?_
    · rw [le_div_iff₀ hd']
      exact_mod_cast (by linarith : n.tdiv d * d ≤ n)
    · rw [div_lt_iff₀ hd']
      exact_mod_cast (by linarith : n < (n.tdiv d + 1) * d)

/-- The remainder has the sign of the dividend. -/
theorem tmod_cases (hd : 0 < d) (n : ℤ) : n = d * n.tdiv d + n.tmod d ∧ |n.tmod d| < d ∧
    (0 ≤ n → 0 ≤ n.tmod d ∧ 0 ≤ n.tdiv d) ∧ (n < 0 → n.tmod d ≤ 0 ∧ n.tdiv d ≤ 0) := by
  refine ⟨(Int.mul_tdiv_add_tmod n d).symm, ?_, fun hn => ?_, fun hn => ?_⟩
  · exact abs_lt.mpr ⟨Int.lt_tmod_of_pos n hd, Int.tmod_lt_of_pos n hd⟩
  · exact ⟨Int.tmod_nonneg d hn, Int.tdiv_nonneg hn hd.le⟩
  · rw [← neg_neg n, Int.neg_tmod, Int.neg_tdiv]
    have := Int.tmod_nonneg d (a := -n) (by omega)
    have := Int.tdiv_nonneg (a := -n) (by omega) hd.le
    omega

/-- The floor of a quotient, from truncated division. -/
theorem floor_div (hd : 0 < d) : ⌊(n : K) / d⌋ =
    if n.tmod d = 0 then n.tdiv d else if n < 0 then n.tdiv d - 1 else n.tdiv d := by
  have hd' : (0 : K) < d := by exact_mod_cast hd
  obtain ⟨hsplit, hlt, hpos, hneg⟩ := tmod_cases hd n
  have hlt := abs_lt.mp hlt
  have hfloor : ∀ z : ℤ, z * d ≤ n → n < (z + 1) * d → ⌊(n : K) / d⌋ = z := fun z hlow hhigh =>
    Int.floor_eq_iff.mpr ⟨by rw [le_div_iff₀ hd']; exact_mod_cast hlow,
      by rw [div_lt_iff₀ hd']; exact_mod_cast hhigh⟩
  split_ifs with hr hn
  · exact hfloor _ (by linarith) (by linarith)
  · have hr' := lt_of_le_of_ne (hneg hn).1 hr
    exact hfloor _ (by linarith) (by linarith)
  · have hr' := (hpos (not_lt.mp hn)).1
    exact hfloor _ (by linarith) (by linarith)

/-- The quotient rounded half away from zero, from truncated division. -/
theorem halfAway_div (hd : 0 < d) : halfAway ((n : K) / d) =
    if d ≤ |n.tmod d| * 2 then n.tdiv d + (if n < 0 then -1 else 1) else n.tdiv d := by
  have hd' : (0 : K) < d := by exact_mod_cast hd
  obtain ⟨hsplit, hlt, hpos, hneg⟩ := tmod_cases hd n
  have hlt := abs_lt.mp hlt
  obtain hn | hn := lt_or_ge n 0
  · -- below zero a candidate `z` is right when `(2 z - 1) d < 2 n ≤ (2 z + 1) d`
    have hround : ∀ z : ℤ, 2 * z * d - d < 2 * n → 2 * n ≤ 2 * z * d + d →
        halfAway ((n : K) / d) = z := by
      intro z hlow hhigh
      have hlow' : 2 * (z : K) * d - d < 2 * n := by exact_mod_cast hlow
      have hhigh' : 2 * (n : K) ≤ 2 * z * d + d := by exact_mod_cast hhigh
      refine halfAway_of_neg ((div_neg_iff_of_pos hd).mpr hn) ?_ ?_
      · rw [lt_div_iff₀ hd']
        linarith
      · rw [div_le_iff₀ hd']
        linarith
    rw [abs_of_nonpos (hneg hn).1, if_pos hn]
    split_ifs with hup
    · exact hround _ (by linarith) (by linarith)
    · exact hround _ (by linarith) (by linarith [(hneg hn).1])
  · have hround : ∀ z : ℤ, 2 * z * d - d ≤ 2 * n → 2 * n < 2 * z * d + d →
        halfAway ((n : K) / d) = z := by
      intro z hlow hhigh
      have hlow' : 2 * (z : K) * d - d ≤ 2 * n := by exact_mod_cast hlow
      have hhigh' : 2 * (n : K) < 2 * z * d + d := by exact_mod_cast hhigh
      refine halfAway_of_nonneg ((div_nonneg_iff_of_pos hd).mpr hn) ?_ ?_
      · rw [le_div_iff₀ hd']
        linarith
      · rw [div_lt_iff₀ hd']
        linarith
    rw [abs_of_nonneg (hpos hn).1, if_neg hn.not_gt]
    split_ifs with hup
    · exact hround _ (by linarith) (by linarith)
    · exact hround _ (by linarith [(hpos hn).1]) (by linarith)

/-- The quotient rounded half to even, from truncated division. -/
theorem halfToEven_div (hd : 0 < d) : halfToEven ((n : K) / d) =
    if d < |n.tmod d| * 2 ∨ (|n.tmod d| * 2 = d ∧ (n.tdiv d).tmod 2 ≠ 0) then
      n.tdiv d + (if n < 0 then -1 else 1) else n.tdiv d := by
  obtain ⟨hsplit, hlt, hpos, hneg⟩ := tmod_cases hd n
  have hbelow : n - n.tdiv d * d = n.tmod d := by linarith
  have heven : (n.tdiv d).tmod 2 = 0 ↔ Even (n.tdiv d) := by
    rw [← Int.dvd_iff_tmod_eq_zero, even_iff_two_dvd]
  -- the next integer is `d - |r|` away
  have habove : |n - (n.tdiv d + (if n < 0 then -1 else 1)) * d| = d - |n.tmod d| := by
    obtain hn | hn := lt_or_ge n 0
    · rw [if_pos hn, abs_of_nonpos (hneg hn).1, abs_of_nonneg] <;> linarith [abs_lt.mp hlt]
    · rw [if_neg hn.not_gt, abs_of_nonneg (hpos hn).1, abs_of_nonpos] <;> linarith [abs_lt.mp hlt]
  have hstep : Odd (if n < 0 then (-1 : ℤ) else 1) := by split_ifs <;> decide
  generalize (if n < 0 then (-1 : ℤ) else 1) = u at habove hstep ⊢
  split_ifs with hup
  · obtain hmore | ⟨htie, hodd⟩ := hup
    · exact halfToEven_of_near (abs_div_sub_lt hd (by linarith))
    · refine halfToEven_of_tie (abs_div_sub_eq hd (by linarith)) ?_
      exact (Int.not_even_iff_odd.mp fun h => hodd (heven.mpr h)).add_odd hstep
  · rw [not_or, not_lt, not_and, not_not] at hup
    obtain hless | htie := lt_or_eq_of_le hup.1
    · exact halfToEven_of_near (abs_div_sub_lt hd (by rw [hbelow]; linarith))
    · exact halfToEven_of_tie (abs_div_sub_eq hd (by rw [hbelow]; linarith)) (heven.mp (hup.2 htie))

end Quotient

end Lib
