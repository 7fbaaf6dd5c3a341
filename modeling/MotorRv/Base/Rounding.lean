import MotorRv.Base.Fixed
import MotorRv.Lib.RoundTo
import Mathlib.Data.Rat.Floor

/-!
# What a product divided by an integer is

`mulDiv` rounds the exact quotient by its policy, and refuses a rounded value that does not fit.
The refusal is missing where the quotient is exact, and from the truncating policy altogether: what
comes out there is the low 64 bits.

The exact quotient is a rational number and `Rounding.round` the integer that each policy makes of
it. `mulDiv_eq` reduces the function to one test on the remainder, and `mulDiv_eq_round_iff` says
for which arguments the result is the rounded quotient, or an abort in its place if that does not
fit: for all of them, except for exact or truncated quotients that are out of range.
-/

namespace MotorRv

/-- The integer a policy makes of a rational. -/
def Rounding.round : Rounding → ℚ → ℤ
  | .towardZero, x => Lib.truncate x
  | .towardNegInf, x => ⌊x⌋
  | .halfUp, x => Lib.halfAway x
  | .halfEven, x => Lib.halfToEven x

variable {n d : ℤ}

/-- Every policy keeps an exact quotient. -/
theorem Rounding.round_of_tmod_eq_zero (R : Rounding) (hd : 0 < d) (h : n.tmod d = 0) :
    R.round (n / d) = n.tdiv d := by
  have hne : ¬ (0 : ℤ) * 2 = d := by omega
  cases R with
  | towardZero => exact Lib.truncate_div hd
  | towardNegInf => exact (Lib.floor_div hd).trans (if_pos h)
  | halfUp =>
    refine (Lib.halfAway_div hd).trans (if_neg ?_)
    rw [h, abs_zero]
    omega
  | halfEven =>
    refine (Lib.halfToEven_div hd).trans (if_neg ?_)
    rw [h, abs_zero, not_or]
    exact ⟨by omega, fun htie => hne htie.1⟩

/-- Only an inexact quotient that is not truncated is checked. -/
theorem mulDiv_eq (R : Rounding) (a b : Raw) (hd : 0 < d) : mulDiv R a b d =
    if d ∣ a.toInt * b.toInt ∨ R = .towardZero then
      .ok (Int64.ofInt (R.round ((a.toInt * b.toInt : ℤ) / d)))
    else checkedRaw (R.round ((a.toInt * b.toInt : ℤ) / d)) := by
  unfold mulDiv
  rw [if_neg (by omega)]
  generalize a.toInt * b.toInt = n
  simp only [Int.dvd_iff_tmod_eq_zero]
  by_cases hr : n.tmod d = 0
  · rw [if_pos hr, if_pos (.inl hr), R.round_of_tmod_eq_zero hd hr]
  · rw [if_neg hr]
    simp only [hr, false_or]
    cases R with
    | towardZero => rw [if_pos rfl, Rounding.round, Lib.truncate_div hd]
    | towardNegInf => rw [if_neg (c := Rounding.towardNegInf = _) (by decide), Rounding.round,
        Lib.floor_div hd, if_neg hr]
    | halfUp => rw [if_neg (c := Rounding.halfUp = _) (by decide), Rounding.round,
        Lib.halfAway_div hd]
    | halfEven => rw [if_neg (c := Rounding.halfEven = _) (by decide), Rounding.round,
        Lib.halfToEven_div hd]

/-- A truncated quotient fits when the dividend is less than `2 ^ 63` divisors above zero, and less
than one more below. -/
theorem fitsRaw_truncate_iff (hd : 0 < d) :
    fitsRaw (Lib.truncate ((n : ℚ) / d)) ↔ -(2 ^ 63 + 1) * d < n ∧ n < 2 ^ 63 * d := by
  obtain ⟨hsplit, hlt, hpos, hneg⟩ := Lib.tmod_cases hd n
  obtain ⟨hlow, hhigh⟩ := abs_lt.mp hlt
  rw [Lib.truncate_div hd, fitsRaw, decide_eq_true_iff]
  generalize n.tdiv d = q at *
  generalize n.tmod d = r at *
  constructor
  · rintro ⟨hq, hq'⟩
    have hbelow : -2 ^ 63 * d ≤ q * d := mul_le_mul_of_nonneg_right hq hd.le
    have habove : (q + 1) * d ≤ 2 ^ 63 * d := mul_le_mul_of_nonneg_right (by omega) hd.le
    exact ⟨by linarith, by linarith⟩
  · rintro ⟨hn, hn'⟩
    -- a quotient off the range is a whole divisor further, on the side its remainder is on
    refine ⟨not_lt.mp fun hq => ?_, not_le.mp fun hq => ?_⟩
    · have hoff : q * d ≤ (-2 ^ 63 - 1) * d := mul_le_mul_of_nonneg_right (by omega) hd.le
      obtain hsign | hsign := lt_or_ge n 0
      · linarith [(hneg hsign).1]
      · linarith [(hpos hsign).2]
    · have hoff : 2 ^ 63 * d ≤ q * d := mul_le_mul_of_nonneg_right hq hd.le
      obtain hsign | hsign := lt_or_ge n 0
      · linarith [(hneg hsign).2]
      · linarith [(hpos hsign).1]

theorem fitsRaw_round_iff (R : Rounding) (hd : 0 < d) (h : d ∣ n ∨ R = .towardZero) :
    fitsRaw (R.round (n / d)) ↔ -(2 ^ 63 + 1) * d < n ∧ n < 2 ^ 63 * d := by
  have hround : R.round (n / d) = Lib.truncate ((n : ℚ) / d) := by
    obtain hdvd | rfl := h
    · rw [R.round_of_tmod_eq_zero hd (Int.dvd_iff_tmod_eq_zero.mp hdvd), Lib.truncate_div hd]
    · rfl
  rw [hround, fitsRaw_truncate_iff hd]

/-- `mulDiv` returns the rounded quotient where it fits and refuses it where it does not, unless
the quotient is exact or truncated and out of range. -/
theorem mulDiv_eq_round_iff (R : Rounding) (a b : Raw) (hd : 0 < d) :
    mulDiv R a b d = (if fitsRaw (R.round ((a.toInt * b.toInt : ℤ) / d)) then
        .ok (Int64.ofInt (R.round ((a.toInt * b.toInt : ℤ) / d))) else .error .panicOverflow) ↔
      (d ∣ a.toInt * b.toInt ∨ R = .towardZero →
        -(2 ^ 63 + 1) * d < a.toInt * b.toInt ∧ a.toInt * b.toInt < 2 ^ 63 * d) := by
  rw [mulDiv_eq R a b hd]
  generalize a.toInt * b.toInt = n
  by_cases hcast : d ∣ n ∨ R = .towardZero
  · rw [if_pos hcast, ← fitsRaw_round_iff R hd hcast, imp_iff_right hcast]
    split_ifs with hfit
    · exact iff_of_true rfl hfit
    · exact iff_of_false (by simp) hfit
  · rw [if_neg hcast, checkedRaw]
    exact iff_of_true rfl fun h => absurd h hcast

theorem mulDiv_seven_halves : mulDiv .halfEven 7 1 2 = .ok 4 := by
  refine ((mulDiv_eq_round_iff .halfEven 7 1 (d := 2) (by decide)).mpr (by decide)).trans ?_
  have hround : Rounding.round .halfEven (((7 : Raw).toInt * (1 : Raw).toInt : ℤ) / (2 : ℤ)) = 4 :=
    (Lib.halfToEven_div (by decide)).trans (by decide)
  rw [hround]
  rfl

/-- Half of `2 ^ 64` times two is exact, and comes out as zero. -/
theorem not_forall_mulDiv_eq_round : ¬ ∀ (R : Rounding) (a b : Raw) (d : ℤ), 0 < d →
    mulDiv R a b d = if fitsRaw (R.round ((a.toInt * b.toInt : ℤ) / d)) then
      .ok (Int64.ofInt (R.round ((a.toInt * b.toInt : ℤ) / d))) else .error .panicOverflow := by
  intro h
  have hrun : mulDiv .halfEven 4611686018427387904 4 1 = .ok 0 := rfl
  have hround := Rounding.round_of_tmod_eq_zero .halfEven
    (n := (4611686018427387904 : Raw).toInt * (4 : Raw).toInt) (d := 1) (by decide) (by decide)
  have hall := h .halfEven 4611686018427387904 4 1 (by decide)
  rw [hround, hrun, if_neg (by decide)] at hall
  cases hall

end MotorRv
