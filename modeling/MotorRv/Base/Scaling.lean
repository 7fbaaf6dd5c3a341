import MotorRv.Base.Fixed

/-!
# Scaled quantities

A corporate action multiplies a quantity by a factor `num / den`. The product is truncated towards
zero and cast to 64 bits; of what the investor owns only whole shares stay in their bucket, and the
fraction is kept apart. Here this is said with integers, and the scaling functions are shown to
compute it whenever they do not abort, which they do for a factor with a zero only.

The sum of the whole shares and of the fraction is the scaled quantity as it is stored
(`scaledTotal_split`), whether or not the cast has changed it, so nothing is lost by the split
itself. What the cast keeps is the scaled quantity wherever that fits (`scaledTotal_of_fits`); a
quantity that does not fit wraps, as it does in the code, because a truncated quotient is never
checked. Statements about the rows of the state are made with these three numbers and never mention
the scaling functions.
-/

namespace MotorRv

/-- What a cast to 64 bits keeps. -/
def castRaw (x : ℤ) : ℤ := (Int64.ofInt x).toInt

/-- A quantity scaled by a factor, before it is cast to 64 bits. -/
def scaledRaw (q : Raw) (num den : UInt32) : ℤ := (q.toInt * num.toNat).tdiv den.toNat

/-- A scaled quantity as it is stored. -/
def scaledTotal (q : Raw) (num den : UInt32) : ℤ := castRaw (scaledRaw q num den)

/-- The whole shares of a scaled quantity, and the fraction. -/
def wholeShares (q : Raw) (num den : UInt32) : ℤ := (scaledTotal q num den).tdiv kQtyOne * kQtyOne

def fraction (q : Raw) (num den : UInt32) : ℤ := (scaledTotal q num den).tmod kQtyOne

/-! ### Truncation -/

/-- Truncation goes towards zero. -/
theorem tmod_sign (x : ℤ) {k : ℤ} (hk : 0 < k) :
    (0 ≤ x → 0 ≤ x.tmod k ∧ 0 ≤ x.tdiv k) ∧ (x ≤ 0 → x.tmod k ≤ 0 ∧ x.tdiv k ≤ 0) := by
  refine ⟨fun hx => ⟨Int.tmod_nonneg k hx, Int.tdiv_nonneg hx hk.le⟩, fun hx => ?_⟩
  obtain ⟨y, rfl⟩ : ∃ y, x = -y := ⟨-x, by omega⟩
  have h1 := Int.tmod_nonneg k (a := y) (by omega)
  have h2 := Int.tdiv_nonneg (a := y) (by omega) hk.le
  rw [Int.neg_tmod, Int.neg_tdiv]
  omega

theorem scaledRaw_nonneg {q : Raw} (hq : 0 ≤ q.toInt) (num den : UInt32) :
    0 ≤ scaledRaw q num den :=
  Int.tdiv_nonneg (Int.mul_nonneg hq (Int.natCast_nonneg _)) (Int.natCast_nonneg _)

/-- The cast keeps a scaled quantity that fits. -/
theorem scaledTotal_of_fits {q : Raw} {num den : UInt32}
    (h : fitsRaw (scaledRaw q num den) = true) : scaledTotal q num den = scaledRaw q num den := by
  have := of_decide_eq_true h
  exact Int64.toInt_ofInt_of_le this.1 this.2

/-- The whole shares and the fraction together are the scaled quantity. -/
theorem scaledTotal_split (q : Raw) (num den : UInt32) :
    -2 ^ 63 ≤ scaledTotal q num den ∧ scaledTotal q num den < 2 ^ 63 ∧
      wholeShares q num den + fraction q num den = scaledTotal q num den ∧
      |fraction q num den| < kQtyOne ∧ |wholeShares q num den| ≤ |scaledTotal q num den| := by
  have hlow := (Int64.ofInt (scaledRaw q num den)).le_toInt
  have hhigh := (Int64.ofInt (scaledRaw q num den)).toInt_lt
  have hsum := Int.mul_tdiv_add_tmod (scaledTotal q num den) kQtyOne
  have hsign := tmod_sign (scaledTotal q num den) (show 0 < kQtyOne by decide)
  have hlt := Int.tmod_lt_of_pos (scaledTotal q num den) (show 0 < kQtyOne by decide)
  have hgt := Int.lt_tmod_of_pos (scaledTotal q num den) (show 0 < kQtyOne by decide)
  unfold wholeShares fraction kQtyOne at *
  refine ⟨hlow, hhigh, by omega, abs_lt.mpr (by omega), ?_⟩
  obtain hneg | hpos := le_total (scaledTotal q num den) 0
  · have := hsign.2 hneg
    rw [abs_of_nonpos hneg, abs_of_nonpos (by omega)]
    omega
  · have := hsign.1 hpos
    rw [abs_of_nonneg hpos, abs_of_nonneg (by omega)]
    omega

/-! ### The scaling functions -/

section Scale

variable {q : Raw} {num den : UInt32}

/-- A truncated quotient is never checked. -/
theorem scale_eq (hden : den ≠ 0) : mulDiv .towardZero q (Int64.ofInt num.toNat) den.toNat =
    .ok (Int64.ofInt (scaledRaw q num den)) := by
  have hpos : 0 < den.toNat := Nat.pos_of_ne_zero fun h0 => hden (UInt32.toNat_inj.mp h0)
  have hnum : (Int64.ofInt num.toNat).toInt = num.toNat := by
    have := num.toNat_lt
    exact Int64.toInt_ofInt_of_le (by omega) (by omega)
  unfold mulDiv
  rw [if_neg (by omega), hnum]
  exact ite_self _

theorem scaleQtyKeepFraction_eq (hnum : num ≠ 0) (hden : den ≠ 0) :
    scaleQtyKeepFraction q num den = .ok (Int64.ofInt (scaledRaw q num den)) := by
  unfold scaleQtyKeepFraction
  rw [if_neg (by simp [hnum, hden]), scale_eq hden]

theorem scaleQtyTrunc_eq (hnum : num ≠ 0) (hden : den ≠ 0) : ∃ whole rest,
    scaleQtyTrunc q num den = .ok (whole, rest) ∧ whole.toInt = wholeShares q num den ∧
      rest.toInt = fraction q num den := by
  obtain ⟨hlow, hhigh, hsum, hfrac, hwhole⟩ := scaledTotal_split q num den
  have hfrac := abs_lt.mp hfrac
  have hle : |scaledTotal q num den| ≤ 2 ^ 63 := abs_le.mpr (by omega)
  refine ⟨Int64.ofInt (wholeShares q num den), Int64.ofInt (fraction q num den), ?_, ?_, ?_⟩
  · unfold scaleQtyTrunc
    rw [if_neg (by simp [hnum, hden]), scale_eq hden]
    have hrest : (Int64.ofInt (scaledRaw q num den)).toInt -
        (Int64.ofInt (scaledRaw q num den)).toInt.tdiv kQtyOne * kQtyOne = fraction q num den := by
      change scaledTotal q num den - wholeShares q num den = _
      omega
    change Except.ok (_, Int64.ofInt _) = _
    rw [hrest]
    rfl
  · have hb := abs_le.mp (hwhole.trans hle)
    refine Int64.toInt_ofInt_of_le (by omega) ?_
    -- a whole number of shares is never the bound itself
    have hone : wholeShares q num den = (scaledTotal q num den).tdiv kQtyOne * kQtyOne := rfl
    unfold kQtyOne at hone
    omega
  · unfold kQtyOne at hfrac
    exact Int64.toInt_ofInt_of_le (by omega) (by omega)

/-- A scaling that does not abort has a factor without a zero. -/
theorem factor_of_scaleQtyTrunc {r : Raw × Raw} (h : scaleQtyTrunc q num den = .ok r) :
    num ≠ 0 ∧ den ≠ 0 := by
  unfold scaleQtyTrunc at h
  split_ifs at h with hzero
  exact not_or.mp hzero

theorem factor_of_scaleQtyKeepFraction {r : Raw} (h : scaleQtyKeepFraction q num den = .ok r) :
    num ≠ 0 ∧ den ≠ 0 := by
  unfold scaleQtyKeepFraction at h
  split_ifs at h with hzero
  exact not_or.mp hzero

/-- The whole shares and the fraction of what is owned. -/
theorem toInt_scaleQtyTrunc {whole rest : Raw} (h : scaleQtyTrunc q num den = .ok (whole, rest)) :
    whole.toInt = wholeShares q num den ∧ rest.toInt = fraction q num den := by
  obtain ⟨hnum, hden⟩ := factor_of_scaleQtyTrunc h
  obtain ⟨whole', rest', heq, hvalues⟩ := scaleQtyTrunc_eq (q := q) hnum hden
  obtain ⟨rfl, rfl⟩ := Prod.mk.inj (Except.ok.inj (h.symm.trans heq))
  exact hvalues

/-- What is in flight is scaled as it is. -/
theorem toInt_scaleQtyKeepFraction {r : Raw} (h : scaleQtyKeepFraction q num den = .ok r) :
    r.toInt = scaledTotal q num den := by
  obtain ⟨hnum, hden⟩ := factor_of_scaleQtyKeepFraction h
  rw [scaleQtyKeepFraction_eq hnum hden] at h
  obtain rfl := Except.ok.inj h
  rfl

/-- The same for a quantity that fits once it is scaled. -/
theorem scaleQtyTrunc_eq_ok {whole rest : Raw} (hfit : fitsRaw (scaledRaw q num den) = true)
    (h : scaleQtyTrunc q num den = .ok (whole, rest)) :
    whole.toInt = (scaledRaw q num den).tdiv kQtyOne * kQtyOne ∧
      rest.toInt = (scaledRaw q num den).tmod kQtyOne := by
  obtain ⟨hwhole, hrest⟩ := toInt_scaleQtyTrunc h
  rw [hwhole, hrest, wholeShares, fraction, scaledTotal_of_fits hfit]
  exact ⟨rfl, rfl⟩

end Scale

end MotorRv
