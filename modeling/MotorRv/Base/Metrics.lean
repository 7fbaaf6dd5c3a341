import MotorRv.Lib.Rank
import Mathlib.Data.Nat.Bitwise
import Mathlib.Tactic.IntervalCases

/-!
# Histograms

A log-linear histogram: 64 buckets an octave. A sample of a bucket is at most one 64th above the
value the bucket stands for (`valueOf_indexOf`), the buckets follow the order of the samples
(`monotone_indexOf`), and so a quantile is within one bucket of the sample of its rank. The counters
are natural numbers, except for the sum, which wraps.

The bucket of a sample is computed from its leading zeros, without a search. `exists_octave` says
that the octaves leave no gap, and in octave `d` the buckets are `2 ^ d` wide, starting at `64 * 2 ^
d` (`indexOf_eq`); below 64 every value has its own bucket.

The loop of `quantile` is the running total of the library on ranks. `quantile_near` is the result
for one rank: the answer is the value of the bucket of the sample with that rank, so it is never
above the sample. The rank itself is computed from a fraction in floating point by the caller, and
is an argument here.
-/

namespace MotorRv

open Lib

/-- Buckets per octave. -/
def kSubBuckets : ℕ := 64
def kOctaves : ℕ := 40
def kBuckets : ℕ := kSubBuckets * kOctaves

/-- The number of leading zeros of a 64-bit value that is not zero. -/
def countlZero (v : UInt64) : ℕ := 63 - v.toNat.log2

structure Histogram where
  buckets : List ℕ
  count : ℕ
  sum : ℕ
  max : ℕ
  length_buckets : buckets.length = kBuckets

namespace Histogram

/-- The bucket of a sample: the octave, and the place in the octave. -/
def indexOf (v : UInt64) : ℕ :=
  if v.toNat < kSubBuckets then v.toNat
  else
    let oitava := 63 - countlZero v
    let desl := oitava - 6
    let sub := (v.toNat >>> desl) &&& (kSubBuckets - 1)
    let i := (desl + 1) * kSubBuckets + sub
    if i < kBuckets then i else kBuckets - 1

/-- The value a bucket stands for: the least sample in it. -/
def valueOf (i : ℕ) : ℕ :=
  if i < kSubBuckets then i
  else
    let oitava := i / kSubBuckets
    let sub := i % kSubBuckets
    let desl := oitava - 1
    (kSubBuckets + sub) <<< desl

def empty : Histogram := ⟨List.replicate kBuckets 0, 0, 0, 0, List.length_replicate⟩

def record (h : Histogram) (v : UInt64) : Histogram where
  buckets := h.buckets.modify (indexOf v) (· + 1)
  count := h.count + 1
  sum := (h.sum + v.toNat) % 2 ^ 64
  max := if h.max < v.toNat then v.toNat else h.max
  length_buckets := by rw [List.length_modify, h.length_buckets]

/-- The loop over the buckets from bucket `i` on, with the samples before it in `acc`. -/
def scan (alvo : ℕ) : List ℕ → ℕ → ℕ → Option ℕ
  | [], _, _ => none
  | b :: bs, i, acc => if alvo < acc + b then some (valueOf i) else scan alvo bs (i + 1) (acc + b)

/-- The value at the rank `alvo`, which the caller's fraction of the count is converted to. -/
def quantile (h : Histogram) (alvo : ℕ) : ℕ :=
  if h.count = 0 then 0 else (scan alvo h.buckets 0 0).getD h.max

/-! ### The buckets -/

theorem indexOf_lt (v : UInt64) : indexOf v < kBuckets := by
  have hk : kSubBuckets < kBuckets := by decide
  unfold indexOf
  split_ifs with hsmall
  · omega
  · dsimp only
    split_ifs with h
    · exact h
    · omega

/-- The octaves from 64 on cover the values without a gap. -/
theorem exists_octave {v : UInt64} (hv : kSubBuckets ≤ v.toNat) :
    ∃ d, 64 * 2 ^ d ≤ v.toNat ∧ v.toNat < 128 * 2 ^ d ∧ 63 - countlZero v = d + 6 := by
  have h0 : v.toNat ≠ 0 := by
    simp only [kSubBuckets] at hv
    omega
  have hlog : 6 ≤ v.toNat.log2 := (Nat.le_log2 h0).mpr hv
  have hlog' : v.toNat.log2 < 64 := (Nat.log2_lt h0).mpr v.toNat_lt
  refine ⟨v.toNat.log2 - 6, ?_, ?_, ?_⟩
  · calc 64 * 2 ^ (v.toNat.log2 - 6) = 2 ^ (6 + (v.toNat.log2 - 6)) := by rw [pow_add]; rfl
      _ = 2 ^ v.toNat.log2 := by rw [Nat.add_sub_cancel' hlog]
      _ ≤ v.toNat := Nat.log2_self_le h0
  · calc v.toNat < 2 ^ (v.toNat.log2 + 1) := Nat.lt_log2_self
      _ = 2 ^ (7 + (v.toNat.log2 - 6)) := by congr 1; omega
      _ = 128 * 2 ^ (v.toNat.log2 - 6) := by rw [pow_add]; rfl
  · rw [countlZero]
    omega

/-- In octave `d` the buckets are `2 ^ d` wide. -/
theorem indexOf_eq {v : UInt64} {d : ℕ} (hlow : 64 * 2 ^ d ≤ v.toNat)
    (hhigh : v.toNat < 128 * 2 ^ d) (hd : 63 - countlZero v = d + 6) :
    64 ≤ v.toNat / 2 ^ d ∧ v.toNat / 2 ^ d < 128 ∧
      indexOf v = min (64 * d + v.toNat / 2 ^ d) (kBuckets - 1) := by
  have hpos : 0 < 2 ^ d := Nat.two_pow_pos d
  have hq : 64 ≤ v.toNat / 2 ^ d := (Nat.le_div_iff_mul_le hpos).mpr hlow
  have hq' : v.toNat / 2 ^ d < 128 := (Nat.div_lt_iff_lt_mul hpos).mpr hhigh
  refine ⟨hq, hq', ?_⟩
  have hlarge : ¬ v.toNat < kSubBuckets := by
    have : 64 ≤ 64 * 2 ^ d := Nat.le_mul_of_pos_right 64 hpos
    simp only [kSubBuckets]
    omega
  have hsub : (v.toNat >>> d) &&& (kSubBuckets - 1) = v.toNat / 2 ^ d - 64 := by
    rw [show kSubBuckets - 1 = 2 ^ 6 - 1 from rfl, Nat.and_two_pow_sub_one_eq_mod,
      Nat.shiftRight_eq_div_pow]
    omega
  rw [indexOf, if_neg hlarge]
  simp only [hd, Nat.add_sub_cancel, hsub]
  have hraw : (d + 1) * kSubBuckets + (v.toNat / 2 ^ d - 64) = 64 * d + v.toNat / 2 ^ d := by
    simp only [kSubBuckets]
    omega
  rw [hraw]
  split_ifs with h
  · rw [Nat.min_eq_left (Nat.le_sub_one_of_lt h)]
  · rw [Nat.min_eq_right (by omega)]

theorem valueOf_eq {d q : ℕ} (hq : 64 ≤ q) (hq' : q < 128) : valueOf (64 * d + q) = q * 2 ^ d := by
  have hoct : (64 * d + q) / 64 - 1 = d := by omega
  have hsub : 64 + (64 * d + q) % 64 = q := by omega
  simp only [valueOf, kSubBuckets, if_neg (show ¬ 64 * d + q < 64 by omega), hoct, hsub,
    Nat.shiftLeft_eq]

/-- A sample is at most one 64th above the value of its bucket. -/
theorem valueOf_indexOf {v : UInt64} (hv : v.toNat < 2 ^ 45) :
    valueOf (indexOf v) ≤ v.toNat ∧
      64 * (v.toNat - valueOf (indexOf v)) ≤ valueOf (indexOf v) := by
  by_cases hsmall : v.toNat < kSubBuckets
  · have hindex : indexOf v = v.toNat := if_pos hsmall
    rw [hindex, valueOf, if_pos hsmall]
    omega
  · obtain ⟨d, hlow, hhigh, hd⟩ := exists_octave (Nat.le_of_not_lt hsmall)
    obtain ⟨hq, hq', hindex⟩ := indexOf_eq hlow hhigh hd
    -- below `2 ^ 45` the last octave is the 39th
    have hlast : d < 39 := by
      by_contra hge
      have : 2 ^ 39 ≤ 2 ^ d := Nat.pow_le_pow_right (by norm_num) (Nat.le_of_not_lt hge)
      omega
    rw [hindex, Nat.min_eq_left (by simp only [kBuckets, kSubBuckets, kOctaves]; omega),
      valueOf_eq hq hq']
    have hmod := Nat.mod_lt v.toNat (Nat.two_pow_pos d)
    have hdiv := Nat.div_add_mod v.toNat (2 ^ d)
    rw [Nat.mul_comm] at hdiv
    have hwide : 64 * 2 ^ d ≤ v.toNat / 2 ^ d * 2 ^ d := Nat.mul_le_mul_right _ hq
    omega

theorem monotone_indexOf {v w : UInt64} (h : v.toNat ≤ w.toNat) : indexOf v ≤ indexOf w := by
  by_cases hw : w.toNat < kSubBuckets
  · have hv : v.toNat < kSubBuckets := by omega
    rw [indexOf, indexOf, if_pos hv, if_pos hw]
    exact h
  obtain ⟨e, hwlow, hwhigh, he⟩ := exists_octave (Nat.le_of_not_lt hw)
  obtain ⟨hwq, hwq', hwindex⟩ := indexOf_eq hwlow hwhigh he
  by_cases hv : v.toNat < kSubBuckets
  · rw [hwindex, indexOf, if_pos hv]
    simp only [kBuckets, kSubBuckets, kOctaves] at *
    omega
  obtain ⟨d, hvlow, hvhigh, hd⟩ := exists_octave (Nat.le_of_not_lt hv)
  obtain ⟨hvq, hvq', hvindex⟩ := indexOf_eq hvlow hvhigh hd
  rw [hvindex, hwindex]
  refine min_le_min_right _ ?_
  obtain hlt | rfl | hgt := Nat.lt_trichotomy d e
  · omega
  · have := Nat.div_le_div_right (c := 2 ^ d) h
    omega
  · -- a smaller sample is in no later octave
    have : 2 ^ (e + 1) ≤ 2 ^ d := Nat.pow_le_pow_right (by norm_num) hgt
    rw [pow_succ] at this
    omega

/-! ### Ranks -/

/-- The histogram of a list of samples. -/
def ofSamples (samples : List UInt64) : Histogram := samples.foldl record empty

theorem ofSamples_buckets (samples : List UInt64) :
    (ofSamples samples).buckets = counts indexOf kBuckets samples ∧
      (ofSamples samples).count = samples.length := by
  suffices h : ∀ (samples before : List UInt64) (h : Histogram),
      h.buckets = counts indexOf kBuckets before → h.count = before.length →
      (samples.foldl record h).buckets = counts indexOf kBuckets (samples.reverse ++ before) ∧
        (samples.foldl record h).count = (samples.reverse ++ before).length by
    obtain ⟨hbuckets, hcount⟩ := h samples [] empty counts_nil.symm rfl
    rw [List.append_nil] at hbuckets hcount
    rw [List.length_reverse] at hcount
    exact ⟨hbuckets.trans (counts_perm samples.reverse_perm), hcount⟩
  intro samples
  induction samples with
  | nil => exact fun before h hbuckets hcount => ⟨hbuckets, hcount⟩
  | cons v vs ih =>
    intro before h hbuckets hcount
    have := ih (v :: before) (record h v) (by rw [counts_cons, ← hbuckets]; rfl)
      (by rw [List.length_cons, ← hcount]; rfl)
    simpa [List.foldl_cons] using this

/-- The loop stops at the bucket where the running total passes the rank. -/
theorem scan_eq_some {alvo : ℕ} : ∀ {bs : List ℕ} {i acc : ℕ}, acc ≤ alvo → alvo < acc + bs.sum →
    ∃ k, k < bs.length ∧ scan alvo bs i acc = some (valueOf (i + k)) ∧
      acc + (bs.take k).sum ≤ alvo ∧ alvo < acc + (bs.take (k + 1)).sum
  | [], i, acc, hacc, hsum => by simp at hsum; omega
  | b :: bs, i, acc, hacc, hsum => by
    rw [List.sum_cons] at hsum
    rw [scan]
    by_cases h : alvo < acc + b
    · exact ⟨0, by simp, by rw [if_pos h]; rfl, by simpa using hacc, by simpa using h⟩
    · obtain ⟨k, hk, hscan, hlow, hhigh⟩ := scan_eq_some (i := i + 1) (Nat.le_of_not_lt h)
        (by omega : alvo < acc + b + bs.sum)
      refine ⟨k + 1, by simpa using hk, ?_, ?_, ?_⟩
      · rw [if_neg h, hscan, Nat.add_assoc, Nat.add_comm 1 k]
      · rw [List.take_succ_cons, List.sum_cons]
        omega
      · rw [List.take_succ_cons, List.sum_cons]
        omega

/-- The quantile at rank `r` is the value of the bucket of the sample of rank `r`, and that sample
is at most one 64th above it. -/
theorem quantile_near {samples : List UInt64} (hsamples : ∀ v ∈ samples, v.toNat < 2 ^ 45) {r : ℕ}
    (hr : r < samples.length) :
    ∃ x, (samples.mergeSort fun a b => a.toNat ≤ b.toNat)[r]? = some x ∧
      (ofSamples samples).quantile r ≤ x.toNat ∧
      64 * (x.toNat - (ofSamples samples).quantile r) ≤ (ofSamples samples).quantile r := by
  obtain ⟨hbuckets, hcount⟩ := ofSamples_buckets samples
  set sorted := samples.mergeSort fun a b => a.toNat ≤ b.toNat with hsorted
  have hperm : sorted.Perm samples := List.mergeSort_perm _ _
  have hpair : sorted.Pairwise fun a b => a.toNat ≤ b.toNat := by
    have hsort : (samples.mergeSort fun a b => decide (a.toNat ≤ b.toNat)).Pairwise
        fun a b => decide (a.toNat ≤ b.toNat) = true :=
      List.pairwise_mergeSort (fun a b c hab hbc => by simp only [decide_eq_true_eq] at *; omega)
        (fun a b => by simp only [Bool.or_eq_true, decide_eq_true_eq]; omega) samples
    simpa using hsort
  have hr' : r < sorted.length := by rw [hperm.length_eq]; exact hr
  have htotal : (counts indexOf kBuckets sorted).sum = sorted.length := by
    have htake : (counts indexOf kBuckets sorted).take kBuckets = counts indexOf kBuckets sorted :=
      List.take_of_length_le length_counts.le
    rw [← htake, sum_take_counts le_rfl, List.countP_eq_length]
    exact fun v _ => by simpa using indexOf_lt v
  rw [← counts_perm hperm] at hbuckets
  -- the scan stops at the bucket in which the rank falls
  obtain ⟨i, hi, hscan, hlow, hhigh⟩ := scan_eq_some (i := 0) (Nat.zero_le r)
    (show r < 0 + (counts indexOf kBuckets sorted).sum by omega)
  rw [Nat.zero_add] at hlow hhigh hscan
  rw [length_counts] at hi
  obtain ⟨x, hx⟩ : ∃ x, sorted[r]? = some x := ⟨_, List.getElem?_eq_getElem hr'⟩
  -- and the sample of that rank is in it
  have hkey : indexOf x = i :=
    key_eq_of_rank (fun _ _ h => monotone_indexOf h) hpair hx hi hlow hhigh
  have hcount' : (ofSamples samples).count ≠ 0 := by omega
  have hquantile : (ofSamples samples).quantile r = valueOf (indexOf x) := by
    rw [quantile, if_neg hcount', hbuckets, hscan, hkey, Option.getD_some]
  refine ⟨x, hx, ?_⟩
  rw [hquantile]
  exact valueOf_indexOf (hsamples _ (hperm.mem_iff.mp (List.mem_of_getElem? hx)))

/-- A quantile is within one bucket of the sample of its rank: the buckets follow the order of the
samples, and there is one for every sample. -/
theorem quantile_within_bucket {samples : List UInt64} (hsamples : ∀ v ∈ samples, v.toNat < 2 ^ 45)
    {r : ℕ} (hr : r < samples.length) :
    (∃ x, (samples.mergeSort fun a b => a.toNat ≤ b.toNat)[r]? = some x ∧
      (ofSamples samples).quantile r ≤ x.toNat ∧
      64 * (x.toNat - (ofSamples samples).quantile r) ≤ (ofSamples samples).quantile r) ∧
    (∀ v w : UInt64, v ≤ w → indexOf v ≤ indexOf w) ∧ ∀ v, indexOf v < kBuckets :=
  ⟨quantile_near hsamples hr,
    fun _ _ h => monotone_indexOf (UInt64.le_iff_toNat_le.mp h), indexOf_lt⟩

/-- Of three samples the second one is in the third octave of width above one. -/
theorem quantile_within_bucket_three : ∃ v, (ofSamples [5, 130, 1000]).quantile 1 = v ∧ v ≤ 130 ∧
    64 * (130 - v) ≤ v := by
  obtain ⟨⟨x, hx, hlow, hhigh⟩, -, -⟩ :=
    @quantile_within_bucket [5, 130, 1000] (by simp) 1 (by simp)
  rw [List.mergeSort_of_pairwise (by decide)] at hx
  obtain rfl : 130 = x := Option.some.inj hx
  exact ⟨_, rfl, hlow, hhigh⟩

end Histogram

end MotorRv
