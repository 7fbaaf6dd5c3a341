import Mathlib.Data.BitVec
import Mathlib.Logic.Function.Iterate

/-!
# Reflected cyclic redundancy checks

A register of `w` bits takes the bits of a message one at a time. A shift of the register is linear
in exclusive or (`shift_xor`), and it is injective when the polynomial has its top bit
(`shift_injective`). So the register after a message no longer than itself is the register with
the message added in, shifted that often (`run_eq_iterate`); this is what tables of whole bytes rest
on (`iterate_shift_split`), and it is why two messages that differ only in a stretch of at most `w`
bits never agree (`run_ne_of_burst`).

Width and polynomial are parameters. The register is a bit vector and a message a list of bits, the
first bit entering first; complementing the register before and after is left to the checksum that
is built on it. That injectivity is all that detection needs is seen as follows: two messages that
agree outside of a stretch leave registers that differ behind the stretch, because the stretch is no
longer than the register, and from there on equal bits keep different registers different
(`run_injective`).
-/

namespace Lib.Crc

variable {w : ℕ} (poly : BitVec w)

/-- One shift of the register: the bit that falls out feeds the polynomial back. -/
def shift (c : BitVec w) : BitVec w := if c.getLsbD 0 then poly ^^^ (c >>> 1) else c >>> 1

/-- One bit of the message. -/
def bitStep (c : BitVec w) (b : Bool) : BitVec w :=
  shift poly (c ^^^ (BitVec.ofBool b).setWidth w)

/-- The register after the bits of a message. -/
def run (c : BitVec w) (bits : List Bool) : BitVec w := bits.foldl (bitStep poly) c

/-- The register with the given bits, lowest first. -/
def ofBits : List Bool → BitVec w
  | [] => 0
  | b :: bs => (ofBits bs <<< 1) ^^^ (BitVec.ofBool b).setWidth w

theorem getLsbD_ofBits (bs : List Bool) (i : ℕ) :
    (ofBits bs : BitVec w).getLsbD i = (decide (i < w) && bs.getD i false) := by
  induction bs generalizing i with
  | nil => simp [ofBits]
  | cons b bs ih =>
    rw [ofBits, BitVec.getLsbD_xor, BitVec.getLsbD_shiftLeft]
    cases i with
    | zero => simp
    | succ i =>
      rw [Nat.add_sub_cancel, ih]
      by_cases h : i + 1 < w
      · simp [h, show i < w by omega]
      · simp [h]

theorem ofBits_injective {bs bs' : List Bool} (hlen : bs.length = bs'.length) (hw : bs.length ≤ w)
    (h : (ofBits bs : BitVec w) = ofBits bs') : bs = bs' := by
  refine List.ext_getElem hlen fun i hi hi' => ?_
  have hbit : (ofBits bs : BitVec w).getLsbD i = (ofBits bs' : BitVec w).getLsbD i := by rw [h]
  have hiw : i < w := by omega
  rw [getLsbD_ofBits, getLsbD_ofBits] at hbit
  simpa [hiw, hi, hi', List.getD_eq_getElem?_getD] using hbit

/-! ### Linearity -/

theorem shift_xor (c d : BitVec w) : shift poly (c ^^^ d) = shift poly c ^^^ shift poly d := by
  unfold shift
  rw [BitVec.getLsbD_xor, BitVec.ushiftRight_xor_distrib]
  cases c.getLsbD 0 <;> cases d.getLsbD 0
  · simp
  · simp only [Bool.false_xor, if_true, Bool.false_eq_true, if_false]
    ac_rfl
  · simp only [Bool.true_xor, Bool.not_false, if_true, Bool.false_eq_true, if_false]
    ac_rfl
  · -- the polynomial is added twice
    have hcancel : poly ^^^ c >>> 1 ^^^ (poly ^^^ d >>> 1) =
        (poly ^^^ poly) ^^^ (c >>> 1 ^^^ d >>> 1) := by ac_rfl
    simp [hcancel]

theorem iterate_shift_xor (n : ℕ) (c d : BitVec w) :
    (shift poly)^[n] (c ^^^ d) = (shift poly)^[n] c ^^^ (shift poly)^[n] d := by
  induction n generalizing c d with
  | zero => rfl
  | succ n ih => rw [Function.iterate_succ_apply, shift_xor, ih]; rfl

/-- Bits that are low zeros only move down. -/
theorem iterate_shift_eq {n : ℕ} {x : BitVec w} (h : ∀ i < n, x.getLsbD i = false) :
    (shift poly)^[n] x = x >>> n := by
  induction n with
  | zero => simp
  | succ n ih =>
    have hlow : (x >>> n).getLsbD 0 = false := by simpa using h n n.lt_succ_self
    rw [Function.iterate_succ_apply', ih fun i hi => h i (by omega), shift, hlow,
      if_neg Bool.false_ne_true, BitVec.shiftRight_add]

/-- Shifts split: a table looks the low bits up, and the high bits only move down. -/
theorem iterate_shift_split (n : ℕ) (x : BitVec w) {mask : BitVec w}
    (hmask : ∀ i, mask.getLsbD i = decide (i < n ∧ i < w)) :
    (shift poly)^[n] x = (shift poly)^[n] (x &&& mask) ^^^ (x >>> n) := by
  have hsplit : x = (x &&& mask) ^^^ (x &&& ~~~mask) := by
    ext i hi
    simp only [BitVec.getElem_xor, BitVec.getElem_and, BitVec.getElem_not]
    cases x[i] <;> cases mask[i] <;> rfl
  have hhigh : (shift poly)^[n] (x &&& ~~~mask) = x >>> n := by
    rw [iterate_shift_eq]
    · refine BitVec.eq_of_getLsbD_eq fun i _ => ?_
      by_cases hi : n + i < w
      · have hout : mask.getLsbD (n + i) = false := by rw [hmask]; simp
        rw [BitVec.getLsbD_ushiftRight, BitVec.getLsbD_and, BitVec.getLsbD_not,
          BitVec.getLsbD_ushiftRight, hout]
        simp [hi]
      · simp [BitVec.getLsbD_ushiftRight, BitVec.getLsbD_of_ge x (n + i) (Nat.le_of_not_lt hi)]
    · intro i hi
      by_cases hw : i < w
      · simp [hmask, hi, hw]
      · simp [BitVec.getLsbD_of_ge x i (Nat.le_of_not_lt hw)]
  conv_lhs => rw [hsplit, iterate_shift_xor, hhigh]

/-- The bits of a message no longer than the register may all be added in first. -/
theorem run_eq_iterate {bits : List Bool} (h : bits.length ≤ w) (c : BitVec w) :
    run poly c bits = (shift poly)^[bits.length] (c ^^^ ofBits bits) := by
  induction bits generalizing c with
  | nil => simp [run, ofBits]
  | cons b bs ih =>
    rw [List.length_cons] at h
    -- the later bits fall down one place without feeding anything back
    have hdown : shift poly (ofBits bs <<< 1) = ofBits bs := by
      rw [← Function.iterate_one (shift poly), iterate_shift_eq]
      · refine BitVec.eq_of_getLsbD_eq fun i hi => ?_
        rw [BitVec.getLsbD_ushiftRight, BitVec.getLsbD_shiftLeft]
        by_cases hi' : 1 + i < w
        · simp [hi']
        · simp [hi', getLsbD_ofBits, List.getD_eq_getElem?_getD, show bs.length ≤ i by omega]
      · intro i hi
        obtain rfl : i = 0 := by omega
        simp
    have hxor : c ^^^ ofBits (b :: bs) =
        (c ^^^ (BitVec.ofBool b).setWidth w) ^^^ (ofBits bs <<< 1) := by
      rw [ofBits]
      ac_rfl
    rw [run, List.foldl_cons, ← run, ih (by omega), List.length_cons, Function.iterate_succ_apply,
      hxor, shift_xor, hdown, bitStep]

/-! ### Detection -/

variable {poly} (hpoly : poly.getLsbD (w - 1) = true)

include hpoly

theorem eq_zero_of_shift {c : BitVec w} (h : shift poly c = 0) : c = 0 := by
  unfold shift at h
  cases h0 : c.getLsbD 0 with
  | true =>
    -- the polynomial leaves its top bit
    rw [h0, if_pos rfl] at h
    have htop := congrArg (·.getLsbD (w - 1)) h
    have hw : w ≤ 1 + (w - 1) := by omega
    simp [hpoly, BitVec.getLsbD_of_ge c _ hw] at htop
  | false =>
    rw [h0, if_neg Bool.false_ne_true] at h
    refine BitVec.eq_of_getLsbD_eq fun i hi => ?_
    cases i with
    | zero => simpa using h0
    | succ i =>
      have hbit := congrArg (·.getLsbD i) h
      simpa [Nat.add_comm] using hbit

theorem shift_injective : Function.Injective (shift poly) := by
  intro c d h
  have hzero : shift poly (c ^^^ d) = 0 := by rw [shift_xor, h, BitVec.xor_self]; rfl
  exact BitVec.xor_eq_zero_iff.mp (eq_zero_of_shift hpoly hzero)

/-- Registers that differ still differ after a message. -/
theorem run_injective (bits : List Bool) : Function.Injective fun c => run poly c bits := by
  induction bits with
  | nil => exact fun _ _ h => h
  | cons b bs ih =>
    intro c d h
    have hstep : bitStep poly c b = bitStep poly d b := ih h
    exact (BitVec.xor_left_inj _).mp (shift_injective hpoly hstep)

/-- A stretch of at most `w` bits is never mistaken for another one. -/
theorem run_ne_of_burst {bs bs' : List Bool} (hlen : bs.length = bs'.length) (hw : bs.length ≤ w)
    (hne : bs ≠ bs') (c : BitVec w) (rest : List Bool) :
    run poly c (bs ++ rest) ≠ run poly c (bs' ++ rest) := by
  intro h
  simp only [run, List.foldl_append] at h
  have hrun : run poly c bs = run poly c bs' := run_injective hpoly rest h
  rw [run_eq_iterate poly hw, run_eq_iterate poly (hlen ▸ hw), ← hlen] at hrun
  have hadd := (shift_injective hpoly).iterate _ hrun
  exact hne (ofBits_injective hlen hw ((BitVec.xor_right_inj _).mp hadd))

end Lib.Crc
