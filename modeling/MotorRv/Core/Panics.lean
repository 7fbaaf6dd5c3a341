import MotorRv.Core.Buckets
import MotorRv.Lib.Aborts
import MotorRv.Lib.RoundTo

/-!
# Arithmetic that aborts

Sums, averages and quotients are checked, and a result that does not fit in 64 bits aborts the
process. For each event this is the exact condition under which its handler stays clear of that:
the results that it computes from the event and the rows it finds, where it gets so far, fit.

`NoPanic` looks at panics alone, so that an access outside a table or an endless walk, which are
aborts too, does not count; `Numeric` is for computations that can abort in no other way, and then
not to panic is to return. For sums the conditions are that each partial sum fits, from the left.
For products over a divisor the quotient must fit where it is rounded, and an exact or truncated one
is cast without a check.

`Within` bounds the buckets of a state by what a single event may bring, and `Easy` and the `spared`
rules follow the parts of the handlers, each with the condition for what comes after it. The
handlers themselves are gone through in the next module.
-/

namespace MotorRv

open Lib PartitionState Apply

/-- The aborts of the arithmetic. -/
def Abort.Panic : Abort → Prop
  | .panicOverflow | .panicPrecondition => True
  | .outOfBounds | .endlessLoop => False

/-- The computation does not panic. -/
abbrev NoPanic {α : Type} (x : Exec α) : Prop := Avoids Abort.Panic x

/-- The part does not panic from a state. -/
abbrev Spared {α : Type} (m : Apply α) (e : Engine) : Prop := Proc.Spares Abort.Panic m e

/-! ### Arithmetic -/

/-- The result fits in 64 bits. -/
abbrev Fits (x : ℤ) : Prop := fitsRaw x = true

/-- The bounds of a signed 64-bit number. -/
theorem fits_iff {x : ℤ} : Fits x ↔ -2 ^ 63 ≤ x ∧ x < 2 ^ 63 := by
  simp [Fits, fitsRaw]

/-- A result that fits is returned. -/
theorem checkedRaw_of_fits {x : ℤ} (h : Fits x) : checkedRaw x = .ok (Int64.ofInt x) := if_pos h

/-- A result that fits is stored as it is. -/
theorem toInt_of_fits {x : ℤ} (h : Fits x) : (Int64.ofInt x).toInt = x := by
  have := fits_iff.mp h
  exact Int64.toInt_ofInt_of_le this.1 this.2

/-- A checked result does not panic just when it fits. -/
theorem noPanic_checkedRaw {x : ℤ} : NoPanic (checkedRaw x) ↔ Fits x := by
  simp [NoPanic, checkedRaw, avoids_ite, Abort.Panic]

/-- A checked result and the condition for what is done with it. -/
theorem noPanic_checkedRaw_bind {α : Type} {x : ℤ} {f : Raw → Exec α} {P : Prop}
    (h : ∀ r, r.toInt = x → (NoPanic (f r) ↔ P)) :
    NoPanic (checkedRaw x >>= f) ↔ Fits x ∧ P := by
  rw [NoPanic, avoids_bind]
  refine Iff.trans (and_congr_left' noPanic_checkedRaw) (and_congr_right fun hfit => ?_)
  have hok : checkedRaw x = .ok (Int64.ofInt x) := if_pos hfit
  refine ⟨fun hall => ?_, fun hP r hr => (h r (checkedRaw_eq_ok hr)).mpr hP⟩
  exact (h _ (checkedRaw_eq_ok hok)).mp (hall _ hok)

/-- A difference does not panic just when it fits. -/
theorem noPanic_sub {a b : Raw} : NoPanic (Fixed.sub a b) ↔ Fits (a.toInt - b.toInt) :=
  noPanic_checkedRaw

/-- A sum and what is done with it. -/
theorem noPanic_add_bind {α : Type} {a b : Raw} {f : Raw → Exec α} {P : Prop}
    (h : ∀ r, r.toInt = a.toInt + b.toInt → (NoPanic (f r) ↔ P)) :
    NoPanic (Fixed.add a b >>= f) ↔ Fits (a.toInt + b.toInt) ∧ P := noPanic_checkedRaw_bind h

/-- A difference and what is done with it. -/
theorem noPanic_sub_bind {α : Type} {a b : Raw} {f : Raw → Exec α} {P : Prop}
    (h : ∀ r, r.toInt = a.toInt - b.toInt → (NoPanic (f r) ↔ P)) :
    NoPanic (Fixed.sub a b >>= f) ↔ Fits (a.toInt - b.toInt) ∧ P := noPanic_checkedRaw_bind h

/-- The last sum of a change of a row. -/
theorem noPanic_add_ok {α : Type} {a b : Raw} {f : Raw → α} :
    NoPanic (Fixed.add a b >>= fun r => .ok (f r)) ↔ Fits (a.toInt + b.toInt) :=
  (noPanic_add_bind fun _ _ => iff_true_intro (avoids_ok _)).trans (iff_of_eq (and_true _))

/-- Where a difference is all that is computed, it alone has to fit. -/
theorem noPanic_sub_ok {α : Type} {a b : Raw} {f : Raw → α} :
    NoPanic (Fixed.sub a b >>= fun r => .ok (f r)) ↔ Fits (a.toInt - b.toInt) :=
  (noPanic_sub_bind fun _ _ => iff_true_intro (avoids_ok _)).trans (iff_of_eq (and_true _))

/-- The quotient rounded half to even. -/
def halfEven (n d : ℤ) : ℤ :=
  if d < |n.tmod d| * 2 ∨ (|n.tmod d| * 2 = d ∧ (n.tdiv d).tmod 2 ≠ 0) then
    n.tdiv d + (if n < 0 then -1 else 1)
  else n.tdiv d

/-- A quotient rounded to even is half a divisor away at most. -/
theorem two_mul_abs_halfEven_sub_le {n d : ℤ} (hd : 0 < d) : 2 * |halfEven n d * d - n| ≤ d := by
  obtain ⟨hsplit, hlt, hpos, hneg⟩ := Lib.tmod_cases hd n
  unfold halfEven
  generalize n.tdiv d = q at *
  generalize n.tmod d = r at *
  have hmul : ∀ x : ℤ, (q + x) * d - n = x * d - r := fun x => by rw [hsplit]; ring
  have hbounds := abs_lt.mp hlt
  split_ifs with hup hsign
  · -- rounded down, away from zero
    have habs := abs_of_nonpos (hneg hsign).1
    rw [hmul, abs_of_nonpos (by linarith)]
    rw [habs] at hup
    omega
  · -- rounded up, away from zero
    have habs := abs_of_nonneg (hpos (not_lt.mp hsign)).1
    rw [hmul, abs_of_nonneg (by linarith)]
    rw [habs] at hup
    omega
  · have hzero : q * d - n = -r := by rw [hsplit]; ring
    rw [hzero, abs_neg]
    omega

/-- Only a quotient that is not exact is checked. -/
def QuotientFits (n d : ℤ) : Prop := n.tmod d = 0 ∨ Fits (halfEven n d)

/-- A quotient that leaves no remainder is returned without a check; any other is rounded and
checked. -/
theorem mulDiv_halfEven {a b : Raw} {d : ℤ} (hd : 0 < d) : mulDiv .halfEven a b d =
    if (a.toInt * b.toInt).tmod d = 0 then .ok (Int64.ofInt ((a.toInt * b.toInt).tdiv d))
    else checkedRaw (halfEven (a.toInt * b.toInt) d) := by
  unfold mulDiv
  rw [if_neg (by omega)]
  rfl

/-- Where the rounded quotient fits, it is what comes out. -/
theorem mulDiv_of_fits {a b : Raw} {d : ℤ} (hd : 0 < d)
    (h : Fits (halfEven (a.toInt * b.toInt) d)) :
    mulDiv .halfEven a b d = .ok (Int64.ofInt (halfEven (a.toInt * b.toInt) d)) := by
  rw [mulDiv_halfEven hd]
  split_ifs with hexact
  · have hround : halfEven (a.toInt * b.toInt) d = (a.toInt * b.toInt).tdiv d := by
      unfold halfEven
      rw [hexact, abs_zero, if_neg (by omega)]
    rw [hround]
  · exact checkedRaw_of_fits h

/-- The condition for a product over a positive number. -/
theorem noPanic_mulDiv {a b : Raw} {d : ℤ} (hd : 0 < d) :
    NoPanic (mulDiv .halfEven a b d) ↔ QuotientFits (a.toInt * b.toInt) d := by
  rw [mulDiv_halfEven hd, QuotientFits]
  split_ifs with hr
  · simp [NoPanic, hr]
  · rw [or_iff_right hr, noPanic_checkedRaw]

/-- The quotient as it is stored: an exact one is cast. -/
def quotient (n d : ℤ) : ℤ := if n.tmod d = 0 then castRaw (n.tdiv d) else halfEven n d

/-- A quotient that fits is stored as it is rounded. -/
theorem quotient_eq_halfEven {n d : ℤ} (hd : 0 < d) (hfit : Fits (halfEven n d)) :
    quotient n d = halfEven n d := by
  unfold quotient
  split_ifs with hexact
  · have hround : halfEven n d = n.tdiv d := by
      unfold halfEven
      rw [hexact, abs_zero, if_neg (by omega)]
    rw [hround] at hfit ⊢
    have := fits_iff.mp hfit
    exact Int64.toInt_ofInt_of_le (by omega) (by omega)
  · rfl

/-- What comes out is the quotient as the code stores it: unchecked where it is exact. -/
theorem mulDiv_eq_quotient {a b r : Raw} {d : ℤ} (hd : 0 < d)
    (h : mulDiv .halfEven a b d = .ok r) : r.toInt = quotient (a.toInt * b.toInt) d := by
  rw [mulDiv_halfEven hd] at h
  unfold quotient
  split_ifs at h with hr
  · rw [if_pos hr, ← Except.ok.inj h, castRaw]
  · rw [if_neg hr]
    exact checkedRaw_eq_ok h

/-- The average price after `qAdd` more at a cost: the cost and the quantity fit, and so does the
quotient. -/
def AverageFits (qOld pOld : Raw) (qAdd costAdd : ℤ) : Prop :=
  let cost := quotient (qOld.toInt * pOld.toInt) kQtyPriceToMoney + costAdd
  Fits cost ∧ Fits (qOld.toInt + qAdd) ∧
    (0 < qOld.toInt + qAdd → QuotientFits (cost * kQtyPriceToMoney) (qOld.toInt + qAdd))

/-- The computation aborts with nothing but a panic. -/
abbrev Numeric {α : Type} (x : Exec α) : Prop := Avoids (fun d => ¬ Abort.Panic d) x

/-- A computation that may only panic, and does not, returns. -/
theorem exists_ok {α : Type} {x : Exec α} (hx : Numeric x) (hno : NoPanic x) : ∃ a, x = .ok a := by
  cases hxa : x with
  | error d => exact absurd (not_not.mp (hx d hxa)) (hno d hxa)
  | ok a => exact ⟨a, rfl⟩

/-- A result that does not decide whether what comes after panics. -/
theorem noPanic_bind {α β : Type} {x : Exec α} {f : α → Exec β} {P : Prop} (hx : Numeric x)
    (h : ∀ a, x = .ok a → (NoPanic (f a) ↔ P)) : NoPanic (x >>= f) ↔ NoPanic x ∧ P := by
  rw [NoPanic, avoids_bind]
  refine and_congr_right fun hno => ⟨fun hall => ?_, fun hP a ha => (h a ha).mpr hP⟩
  obtain ⟨a, ha⟩ := exists_ok hx hno
  exact (h a ha).mp (hall a ha)

/-- Checked arithmetic stops for no other reason than a panic. -/
theorem numeric_checkedRaw (x : ℤ) : Numeric (checkedRaw x) := by
  simp [Numeric, checkedRaw, avoids_ite, Abort.Panic]

theorem numeric_mulDiv (mode : Rounding) (a b : Raw) (d : ℤ) : Numeric (mulDiv mode a b d) := by
  unfold mulDiv
  refine avoids_ite.mpr ⟨fun _ => by simp [Abort.Panic], fun _ => avoids_ite.mpr ⟨fun _ => ?_, ?_⟩⟩
  · exact avoids_ok _
  · intro _
    cases mode with
    | towardZero => exact avoids_ok _
    | towardNegInf => exact numeric_checkedRaw _
    | halfUp => exact numeric_checkedRaw _
    | halfEven => exact numeric_checkedRaw _

theorem numeric_add_ok {α : Type} (a b : Raw) (f : Raw → α) :
    Numeric (Fixed.add a b >>= fun r => .ok (f r)) :=
  .bind (numeric_checkedRaw _) fun _ _ => avoids_ok _

theorem numeric_sub_ok {α : Type} (a b : Raw) (f : Raw → α) :
    Numeric (Fixed.sub a b >>= fun r => .ok (f r)) :=
  .bind (numeric_checkedRaw _) fun _ _ => avoids_ok _

/-- The average price stops for no other reason than a panic. -/
theorem numeric_average (qOld pOld qAdd costAdd : Raw) :
    Numeric (averagePriceHalfEven qOld pOld qAdd costAdd) := by
  refine .bind (numeric_mulDiv _ _ _ _) fun _ _ => .bind (numeric_checkedRaw _) fun _ _ => ?_
  refine .bind (numeric_checkedRaw _) fun _ _ => avoids_ite.mpr ⟨fun _ => avoids_ok _, fun _ => ?_⟩
  exact numeric_mulDiv _ _ _ _

/-- The condition for the average price, once the cost of the old position is computed. -/
theorem noPanic_average {qOld pOld qAdd costAdd : Raw}
    (hcost : NoPanic (positionCostHalfEven qOld pOld)) :
    NoPanic (averagePriceHalfEven qOld pOld qAdd costAdd) ↔
      AverageFits qOld pOld qAdd.toInt costAdd.toInt := by
  have hone : (Int64.ofInt kQtyPriceToMoney).toInt = kQtyPriceToMoney := by decide
  unfold averagePriceHalfEven AverageFits
  refine (noPanic_bind (numeric_mulDiv _ _ _ _) fun oldCost hold => ?_).trans (and_iff_right hcost)
  rw [← mulDiv_eq_quotient (by decide) hold]
  refine noPanic_add_bind fun total htotal => noPanic_add_bind fun qNew hnew => ?_
  rw [← htotal, ← hnew, NoPanic, avoids_ite]
  constructor
  · rintro ⟨-, hdiv⟩ hpos
    have := (noPanic_mulDiv hpos).mp (hdiv (by omega))
    rwa [hone] at this
  · refine fun h => ⟨fun _ => avoids_pure _, fun hpos => (noPanic_mulDiv (by omega)).mpr ?_⟩
    rw [hone]
    exact h (by omega)

/-- Every sum from left to right fits. -/
def SumFits : ℤ → List ℤ → Prop
  | _, [] => True
  | a, x :: xs => Fits (a + x) ∧ SumFits (a + x) xs

/-- The terms of a sum are added from the left, and each partial sum has to fit. -/
theorem noPanic_sumRaw {xs : List Raw} : ∀ {a : Raw},
    NoPanic (sumRaw a xs) ↔ SumFits a.toInt (xs.map Int64.toInt) := by
  induction xs with
  | nil => exact fun {a} => iff_true_intro (avoids_pure a)
  | cons x xs ih => exact noPanic_add_bind fun r hr => hr ▸ ih

/-- A sum that comes out is the sum of the terms. -/
theorem sumRaw_eq_ok {xs : List Raw} : ∀ {a r : Raw}, sumRaw a xs = .ok r →
    r.toInt = a.toInt + (xs.map Int64.toInt).sum := by
  induction xs with
  | nil =>
    intro a r h
    obtain rfl := Except.ok.inj h
    simp
  | cons x xs ih =>
    intro a r h
    obtain ⟨y, hy, h⟩ := except_bind_eq_ok.mp h
    rw [ih h, Fixed.add_eq_ok hy, List.map_cons, List.sum_cons, add_assoc]

/-- Bounded values have a sum that fits. -/
theorem sumFits_of_abs_le {B : ℤ} {xs : List ℤ} : ∀ {n a : ℤ}, (∀ x ∈ xs, |x| ≤ B) → |a| ≤ n →
    n + xs.length * B < 2 ^ 63 → SumFits a xs ∧ |a + xs.sum| ≤ n + xs.length * B := by
  induction xs with
  | nil =>
    intro n a _ ha _
    exact ⟨trivial, by simpa using ha⟩
  | cons x xs ih =>
    intro n a hxs ha hlt
    have hx := abs_le.mp (hxs x List.mem_cons_self)
    have ha' := abs_le.mp ha
    have hB : 0 ≤ (xs.length : ℤ) * B := Int.mul_nonneg (Int.natCast_nonneg _) (by omega)
    rw [List.length_cons, Nat.cast_succ, add_mul, one_mul] at hlt ⊢
    have hnext := ih (n := n + B) (a := a + x) (fun y hy => hxs y (List.mem_cons_of_mem _ hy))
      (abs_le.mpr (by omega)) (by omega)
    rw [List.sum_cons, ← add_assoc]
    exact ⟨⟨fits_iff.mpr (by omega), hnext.1⟩, hnext.2.trans (by omega)⟩

/-! ### Limits -/

/-- The buckets of a position are within the limits of a single event. -/
structure CustodyRow.Within (c : CustodyRow) : Prop where
  qty : ∀ q ∈ c.buckets, qtyInRange q = true
  price : priceInRange c.avgPrice = true

structure AccountRow.Within (a : AccountRow) : Prop where
  cash : moneyInRange a.cash = true
  overdue : moneyInRange a.overdue = true
  incomeReceivable : moneyInRange a.incomeReceivable = true
  pending : ∀ k, moneyInRange (a.pending k) = true

/-- All accumulated buckets are within the limits of a single event. -/
structure PartitionState.Within (s : PartitionState) : Prop where
  custody : ∀ c ∈ s.custody, c.Within
  accounts : ∀ a ∈ s.accounts, a.Within

instance (c : CustodyRow) : Decidable c.Within :=
  decidable_of_iff (c.buckets.all qtyInRange = true ∧ priceInRange c.avgPrice = true)
    ⟨fun h => ⟨List.all_eq_true.mp h.1, h.2⟩, fun h => ⟨List.all_eq_true.mpr h.1, h.2⟩⟩

instance (a : AccountRow) : Decidable a.Within :=
  decidable_of_iff ((moneyInRange a.cash = true ∧ moneyInRange a.overdue = true) ∧
      moneyInRange a.incomeReceivable = true ∧ ∀ k, moneyInRange (a.pending k) = true)
    ⟨fun h => ⟨h.1.1, h.1.2, h.2.1, h.2.2⟩, fun h => ⟨⟨h.1, h.2⟩, h.3, h.4⟩⟩

instance (s : PartitionState) : Decidable s.Within :=
  decidable_of_iff ((∀ c ∈ s.custody, c.Within) ∧ ∀ a ∈ s.accounts, a.Within)
    ⟨fun h => ⟨h.1, h.2⟩, fun h => ⟨h.1, h.2⟩⟩

/-- The range that the handlers check of a quantity. -/
theorem qty_bounds {q : Raw} (h : qtyInRange q = true) : |q.toInt| ≤ 10000000000000000 := by
  have := of_decide_eq_true h
  unfold kMaxQtyRaw at this
  exact abs_le.mpr (by omega)

/-- The range that the handlers check of money. -/
theorem money_bounds {m : Raw} (h : moneyInRange m = true) : |m.toInt| ≤ 100000000000000000 := by
  have := of_decide_eq_true h
  unfold kMaxMoneyRaw at this
  exact abs_le.mpr (by omega)

/-- The range that the handlers check of a price. -/
theorem price_bounds {p : Raw} (h : priceInRange p = true) :
    0 ≤ p.toInt ∧ p.toInt ≤ 100000000000000 := by
  have := of_decide_eq_true h
  unfold kMaxPriceRaw at this
  omega

namespace CustodyRow.Within

variable {c : CustodyRow}

theorem available (h : c.Within) : |c.available.toInt| ≤ 10000000000000000 :=
  qty_bounds (h.qty _ (by simp [buckets]))

theorem blocked (h : c.Within) : |c.blocked.toInt| ≤ 10000000000000000 :=
  qty_bounds (h.qty _ (by simp [buckets]))

theorem leftovers (h : c.Within) : |c.leftovers.toInt| ≤ 10000000000000000 :=
  qty_bounds (h.qty _ (by simp [buckets]))

theorem overdueBuy (h : c.Within) : |c.overdueBuy.toInt| ≤ 10000000000000000 :=
  qty_bounds (h.qty _ (by simp [buckets]))

theorem overdueSell (h : c.Within) : |c.overdueSell.toInt| ≤ 10000000000000000 :=
  qty_bounds (h.qty _ (by simp [buckets]))

theorem pendingBuy (h : c.Within) (k : Fin 3) : |(c.pendingBuy k).toInt| ≤ 10000000000000000 :=
  qty_bounds (h.qty _ (by fin_cases k <;> simp [buckets]))

theorem pendingSell (h : c.Within) (k : Fin 3) : |(c.pendingSell k).toInt| ≤ 10000000000000000 :=
  qty_bounds (h.qty _ (by fin_cases k <;> simp [buckets]))

/-- A position just interned is within every limit. -/
theorem cleared (a i : ℕ) : (CustodyRow.cleared a i).Within := by
  refine ⟨fun q hq => ?_, show priceInRange 0 = true by decide⟩
  obtain rfl : q = 0 := by simpa [CustodyRow.buckets, CustodyRow.cleared] using hq
  decide

/-- What the investor owns is a sum of seven buckets. -/
theorem today (h : c.Within) :
    NoPanic c.custodyToday ∧ ∀ r, c.custodyToday = .ok r → |r.toInt| ≤ 70000000000000000 := by
  have hsum := @sumFits_of_abs_le 10000000000000000 ([c.blocked, c.leftovers,
    c.overdueSell, c.pendingSell 0, c.pendingSell 1, c.pendingSell 2].map Int64.toInt) _ _ ?_
    h.available (by simp)
  · refine ⟨noPanic_sumRaw.mpr hsum.1, fun r hr => ?_⟩
    rw [sumRaw_eq_ok hr]
    exact hsum.2.trans (by norm_num)
  · simp only [List.map_cons, List.map_nil, List.forall_mem_cons, List.not_mem_nil, false_imp_iff,
      implies_true, and_true]
    exact ⟨h.blocked, h.leftovers, h.overdueSell, h.pendingSell 0, h.pendingSell 1, h.pendingSell 2⟩

end CustodyRow.Within

/-- An account just interned is within every limit. -/
theorem AccountRow.Within.cleared (doc : UInt64) : (AccountRow.cleared doc).Within :=
  ⟨show moneyInRange 0 = true by decide, show moneyInRange 0 = true by decide,
    show moneyInRange 0 = true by decide, fun _ => show moneyInRange 0 = true by decide⟩

/-! ### Parts of handlers -/

section Parts

variable {α β : Type} {e : Engine} {f : α → Apply β}

/-- The part never panics. -/
def Easy (m : Apply α) : Prop := ∀ e, Spared m e

/-- Parts that never panic can be put one after the other. -/
theorem Easy.bind {m : Apply α} (hm : Easy m) (hf : ∀ a, Easy (f a)) : Easy (m >>= f) :=
  fun e => .bind (hm e) fun a e' _ => hf a e'

theorem Easy.pure (a : α) : Easy (pure a : Apply α) := fun _ => Proc.spares_pure a

theorem Easy.guard (c : Prop) [Decidable c] (st : Status) : Easy (Proc.guard c st : Apply PUnit) :=
  fun _ => Proc.spares_guard c st

theorem Easy.fail (st : Status) : Easy (Proc.fail st : Apply α) := fun _ => Proc.spares_fail st

/-- Reading outside of a table is an abort of another kind. -/
theorem noPanic_rowAt (rows : List α) (i : ℕ) : NoPanic (rowAt rows i) := by
  unfold rowAt
  split
  · exact avoids_ok _
  · simp [NoPanic, Abort.Panic]

/-- Reading a row is easy. -/
theorem Easy.row {ρ : Type} (rows : PartitionState → List ρ) (i : ℕ) :
    Easy (look fun s => rowAt (rows s) i) := fun _ => Proc.spares_query.mpr (noPanic_rowAt _ _)

theorem Easy.ite {c : Prop} [Decidable c] {m n : Apply α} (hm : Easy m) (hn : Easy n) :
    Easy (if c then m else n) := by
  split_ifs
  · exact hm
  · exact hn

/-- A change of a row panics where the change of that row does. -/
theorem noPanic_modRow {rows : List α} {i : ℕ} {g : α → Exec α} :
    NoPanic (modRow rows i g) ↔ ∀ r, rows[i]? = some r → NoPanic (g r) := by
  unfold modRow
  rw [NoPanic, avoids_bind, and_iff_right (noPanic_rowAt rows i)]
  refine forall_congr' fun r => ?_
  rw [rowAt_eq_ok]
  refine imp_congr_right fun _ => ?_
  rw [avoids_bind]
  exact ⟨fun h => h.1, fun h => ⟨h, fun _ _ => avoids_ok _⟩⟩

theorem easy_checkBuckets (pos : ℕ) : Easy (checkBuckets pos) :=
  .bind (.row (·.custody) pos) fun _ => .guard _ _

theorem easy_pushException (r : ExceptionRecord) (m : Bool) : Easy (pushException r m) :=
  fun _ => Proc.spares_update.mpr (avoids_ok _)

/-- Publishing a position computes nothing that is checked. -/
theorem easy_publicaPosicao (ev : EventView) (pos : ℕ) : Easy (publicaPosicao ev pos) := by
  intro e
  unfold Spared Proc.Spares publicaPosicao
  split
  · exact avoids_ok _
  · refine .bind (noPanic_rowAt _ _) fun c _ => .bind (noPanic_rowAt _ _) fun a _ => ?_
    refine .bind (noPanic_rowAt _ _) fun i _ => .bind ?_ fun ⟨st, o'⟩ _ => ?_
    · rintro d hd
      obtain rfl := Outbox.stage_eq_error hd
      simp [Abort.Panic]
    · exact avoids_ite.mpr ⟨fun _ => avoids_ok _, fun _ => avoids_ok _⟩

theorem noPanic_nextOf (b : UInt8) (g : TradeTrigger) : NoPanic (nextOf b g) := by
  unfold nextOf
  split
  · exact avoids_ok _
  · simp [NoPanic, Abort.Panic]

/-- Advancing trades looks up states, and computes nothing. -/
theorem noPanic_advance {covered : TradeRow → Bool} {g : TradeTrigger} : ∀ (fuel : ℕ)
    (l : Option ℕ) (rows : List TradeRow), NoPanic (advance covered g fuel l rows) := by
  intro fuel
  induction fuel with
  | zero =>
    intro l rows
    cases l with
    | none => exact avoids_ok _
    | some t => simp [NoPanic, advance, Abort.Panic]
  | succ fuel ih =>
    intro l rows
    cases l with
    | none => exact avoids_ok _
    | some t =>
      refine .bind (noPanic_rowAt _ _) fun r _ => avoids_ite.mpr ⟨fun _ => ?_, fun _ => ih _ _⟩
      refine .bind (noPanic_nextOf _ _) fun st _ => avoids_ite.mpr ⟨fun _ => ih _ _, fun _ => ?_⟩
      exact .bind (ih _ _) fun _ _ => avoids_ok _

/-- The trades of an account are advanced without arithmetic. -/
theorem easy_advanceAccount (acct : ℕ) (covered : TradeRow → Bool) (g : TradeTrigger) :
    Easy (advanceAccount acct covered g) := fun _ =>
  Avoids.bind (noPanic_rowAt _ _) fun _ _ => .bind (noPanic_advance _ _ _) fun _ _ => avoids_ok _

/-! Where a part may be followed by one that panics, the condition for the sequence. -/

/-- A handler goes on only with a block that is long enough. -/
theorem spared_decode {t : Tmpl} {ofBytes : Bytes → α} {ev : EventView} :
    Spared (decode t ofBytes ev >>= f) e ↔
      (t.blockLength ≤ ev.payload.length → Spared (f (ofBytes ev.payload)) e) := by
  unfold decode
  rw [Spared, Proc.spares_bind]
  by_cases hlen : t.blockLength ≤ ev.payload.length
  · refine ⟨fun h _ => h.2 _ e ?_, fun h => ⟨?_, fun a e' ha => ?_⟩⟩
    · simp only [Proc.guard, if_pos hlen]
      rfl
    · exact (Easy.guard _ _).bind (fun _ => .pure _) e
    · obtain ⟨rfl, ⟨-, hr⟩ | ⟨hno, -⟩⟩ := decode_eq_ok.mp ha
      · obtain rfl := Except.ok.inj hr
        exact h hlen
      · exact absurd hlen hno
  · refine ⟨fun _ h => absurd h hlen, fun _ => ⟨?_, fun a e' ha => ?_⟩⟩
    · exact (Easy.guard _ _).bind (fun _ => .pure _) e
    · obtain ⟨-, ⟨hyes, -⟩ | ⟨-, hr⟩⟩ := decode_eq_ok.mp ha
      · exact absurd hyes hlen
      · cases hr

/-- A value read in front is the one of the state. -/
theorem spared_read {g : PartitionState → α} :
    Spared ((look fun s => .ok (g s)) >>= f) e ↔ Spared (f (g e.s)) e := by
  refine Proc.spares_query_bind.trans ⟨fun h => h.2 _ rfl, fun h => ⟨avoids_ok _, ?_⟩⟩
  rintro _ ⟨⟩
  exact h

/-- A row read in front is the one of the table; where there is none the abort is not a panic. -/
theorem spared_row {ρ : Type} {rows : PartitionState → List ρ} {i : ℕ} {f : ρ → Apply β} :
    Spared ((look fun s => rowAt (rows s) i) >>= f) e ↔
      ∀ r, (rows e.s)[i]? = some r → Spared (f r) e := by
  refine Proc.spares_query_bind.trans ((and_iff_right (noPanic_rowAt _ _)).trans ?_)
  simp only [rowAt_eq_ok]

/-- A computation in front has to be clear of panics itself. -/
theorem spared_lift {x : Exec α} :
    Spared (Proc.lift x >>= f) e ↔ NoPanic x ∧ ∀ a, x = .ok a → Spared (f a) e :=
  Proc.spares_query_bind

/-- Behind a guard its condition may be used. -/
theorem spared_guard {c : Prop} [Decidable c] {st : Status} {f : PUnit → Apply β} :
    Spared (Proc.guard c st >>= f) e ↔ (c → Spared (f ⟨⟩) e) := Proc.spares_guard_bind

/-- Behind an `orFail` the value is there. -/
theorem spared_orFail {o : Option α} {st : Status} :
    Spared (Proc.orFail o st >>= f) e ↔ ∀ a, o = some a → Spared (f a) e :=
  Proc.spares_orFail_bind

/-- Behind an interning, the value and the state it leaves. -/
theorem spared_ask {g : PartitionState → α × PartitionState} :
    Spared (ask g >>= f) e ↔ Spared (f (g e.s).1) { e with s := (g e.s).2 } :=
  Proc.spares_act_bind

/-- An interning that ends the handler when the table is full. -/
theorem spared_intern {g : PartitionState → Option ℕ × PartitionState} {st : Status}
    {f : ℕ → Apply β} :
    Spared ((ask g >>= fun r => Proc.orFail r st) >>= f) e ↔
      ∀ i s', g e.s = (some i, s') → Spared (f i) { e with s := s' } := by
  rw [Spared, Proc.spares_bind]
  rcases hg : g e.s with ⟨o, s'⟩
  have hrun : (ask g >>= fun r => Proc.orFail r st) e =
      (Proc.orFail o st : Apply ℕ) { e with s := s' } := by
    rw [Proc.bind_run, ask, Proc.act, hg]
  rw [Proc.Spares, hrun]
  cases o with
  | none =>
    refine ⟨fun _ i s'' h => (by cases h), fun _ => ⟨avoids_ok _, fun i e' h => (by cases h)⟩⟩
  | some i =>
    refine ⟨fun h i' s'' heq => ?_, fun h => ⟨avoids_ok _, fun i' e' heq => ?_⟩⟩
    · obtain ⟨rfl, rfl⟩ : i = i' ∧ s' = s'' := by simpa using heq
      exact h.2 i _ rfl
    · obtain ⟨hr, rfl⟩ := Proc.pure_eq_ok.mp heq
      obtain rfl := Except.ok.inj hr
      exact h i' s' rfl

/-- Behind the lookup of an account, its row, if there is one or room for it. -/
theorem spared_account {doc : UInt64} {f : ℕ → Apply β} :
    Spared (account doc >>= f) e ↔
      ∀ i s', e.s.internAccount doc = (some i, s') → Spared (f i) { e with s := s' } :=
  spared_intern

/-- Behind the lookup of an instrument, its row, if there is one or room for it. -/
theorem spared_instrument {id : UInt32} {f : ℕ → Apply β} :
    Spared (instrument id >>= f) e ↔
      ∀ i s', e.s.internInstrument id = (some i, s') → Spared (f i) { e with s := s' } :=
  spared_intern

/-- Behind the lookup of a position, its row, if there is one or room for it. -/
theorem spared_position {a i : ℕ} {f : ℕ → Apply β} :
    Spared (position a i >>= f) e ↔
      ∀ p s', e.s.internPosition a i = (some p, s') → Spared (f p) { e with s := s' } :=
  spared_intern

/-- Behind the lookup of a date, its slot of the window. -/
theorem spared_slot {date : DateYmd} {f : Fin 3 → Apply β} :
    Spared (slot date >>= f) e ↔ ∀ k, e.s.window.slotOf date = some k → Spared (f k) e := by
  unfold slot
  rw [Spared, Proc.spares_bind]
  rcases hk : e.s.window.slotOf date with _ | k
  · have hrun : ((look fun s => .ok (s.window.slotOf date)) >>= fun k =>
        Proc.orFail k (.fail .outsideSettlementWindow date) : Apply (Fin 3)) e =
        .ok (.error (.fail .outsideSettlementWindow date), e) := by
      simp [Proc.bind_run, look, Proc.query, Except.map, hk, Proc.orFail, Proc.fail]
    rw [Proc.Spares, hrun]
    exact ⟨fun _ k h => (by cases h), fun _ => ⟨avoids_ok _, fun k e' h => (by cases h)⟩⟩
  · have hrun : ((look fun s => .ok (s.window.slotOf date)) >>= fun k =>
        Proc.orFail k (.fail .outsideSettlementWindow date) : Apply (Fin 3)) e =
        .ok (.ok k, e) := by
      simp [Proc.bind_run, look, Proc.query, Except.map, hk, Proc.orFail]
    rw [Proc.Spares, hrun]
    refine ⟨fun h k' heq => ?_, fun h => ⟨avoids_ok _, fun k' e' heq => ?_⟩⟩
    · obtain rfl := Option.some.inj heq
      exact h.2 k e rfl
    · obtain ⟨hr, rfl⟩ := Prod.mk.inj (Except.ok.inj heq)
      obtain rfl := Except.ok.inj hr
      exact h k rfl

variable {f : PUnit → Apply β}

/-- A change of the state, and the condition for what comes after it. -/
theorem spared_change {g : PartitionState → Exec PartitionState} :
    Spared (change g >>= f) e ↔
      NoPanic (g e.s) ∧ ∀ s', g e.s = .ok s' → Spared (f ⟨⟩) { e with s := s' } := by
  refine Proc.spares_update_bind.trans (and_congr avoids_map ⟨fun h s' hs' => ?_, ?_⟩)
  · exact h _ (map_eq_ok.mpr ⟨s', hs', rfl⟩)
  · rintro h _ hs'
    obtain ⟨s'', hs'', rfl⟩ := map_eq_ok.mp hs'
    exact h s'' hs''

/-- A change of a position in front has to be clear of panics, and the rest runs with the changed
row. -/
theorem spared_modCustody {i : ℕ} {g : CustodyRow → Exec CustodyRow} :
    Spared (modCustody i g >>= f) e ↔ ∀ c, e.s.custody[i]? = some c → NoPanic (g c) ∧
      ∀ c', g c = .ok c' →
        Spared (f ⟨⟩) { e with s := { e.s with custody := e.s.custody.set i c' } } := by
  refine spared_change.trans ⟨fun h c hc => ⟨?_, fun c' hc' => ?_⟩, fun h => ⟨?_, fun s' hs' => ?_⟩⟩
  · exact noPanic_modRow.mp (avoids_map.mp h.1) c hc
  · exact h.2 _ (map_eq_ok.mpr ⟨_, modRow_eq_ok.mpr ⟨c, c', hc, hc', rfl⟩, rfl⟩)
  · exact avoids_map.mpr (noPanic_modRow.mpr fun c hc => (h c hc).1)
  · obtain ⟨rows, hrows, rfl⟩ := map_eq_ok.mp hs'
    obtain ⟨c, c', hc, hc', rfl⟩ := modRow_eq_ok.mp hrows
    exact (h c hc).2 c' hc'

/-- A change of an account in front has to be clear of panics, and the rest runs with the changed
row. -/
theorem spared_modAccount {i : ℕ} {g : AccountRow → Exec AccountRow} :
    Spared (modAccount i g >>= f) e ↔ ∀ a, e.s.accounts[i]? = some a → NoPanic (g a) ∧
      ∀ a', g a = .ok a' →
        Spared (f ⟨⟩) { e with s := { e.s with accounts := e.s.accounts.set i a' } } := by
  refine spared_change.trans ⟨fun h a ha => ⟨?_, fun a' ha' => ?_⟩, fun h => ⟨?_, fun s' hs' => ?_⟩⟩
  · exact noPanic_modRow.mp (avoids_map.mp h.1) a ha
  · exact h.2 _ (map_eq_ok.mpr ⟨_, modRow_eq_ok.mpr ⟨a, a', ha, ha', rfl⟩, rfl⟩)
  · exact avoids_map.mpr (noPanic_modRow.mpr fun a ha => (h a ha).1)
  · obtain ⟨rows, hrows, rfl⟩ := map_eq_ok.mp hs'
    obtain ⟨a, a', ha, ha', rfl⟩ := modRow_eq_ok.mp hrows
    exact (h a ha).2 a' ha'

/-- A change whose result does not decide what comes after it. -/
theorem spared_modCustody_then {i : ℕ} {g : CustodyRow → Exec CustodyRow} {P : CustodyRow → Prop}
    (hg : ∀ c, Numeric (g c)) (h : ∀ c c', e.s.custody[i]? = some c → g c = .ok c' →
      (Spared (f ⟨⟩) { e with s := { e.s with custody := e.s.custody.set i c' } } ↔ P c)) :
    Spared (modCustody i g >>= f) e ↔ ∀ c, e.s.custody[i]? = some c → NoPanic (g c) ∧ P c := by
  refine spared_modCustody.trans (forall_congr' fun c => imp_congr_right fun hc => ?_)
  refine and_congr_right fun hno => ⟨fun hall => ?_, fun hP c' hc' => (h c c' hc hc').mpr hP⟩
  obtain ⟨c', hc'⟩ := exists_ok (hg c) hno
  exact (h c c' hc hc').mp (hall c' hc')

/-- The same, where the condition of the rest can be told from the row before the change. -/
theorem spared_modAccount_then {i : ℕ} {g : AccountRow → Exec AccountRow} {P : AccountRow → Prop}
    (hg : ∀ a, Numeric (g a)) (h : ∀ a a', e.s.accounts[i]? = some a → g a = .ok a' →
      (Spared (f ⟨⟩) { e with s := { e.s with accounts := e.s.accounts.set i a' } } ↔ P a)) :
    Spared (modAccount i g >>= f) e ↔ ∀ a, e.s.accounts[i]? = some a → NoPanic (g a) ∧ P a := by
  refine spared_modAccount.trans (forall_congr' fun a => imp_congr_right fun ha => ?_)
  refine and_congr_right fun hno => ⟨fun hall => ?_, fun hP a' ha' => (h a a' ha ha').mpr hP⟩
  obtain ⟨a', ha'⟩ := exists_ok (hg a) hno
  exact (h a a' ha ha').mp (hall a' ha')

/-- A change that ends the part. -/
theorem easy_change {g : PartitionState → Exec PartitionState} (hg : ∀ s, NoPanic (g s)) :
    Easy (change g) := fun e => Proc.spares_update.mpr (avoids_map.mpr (hg e.s))

/-- Where the rest is easy, only the change itself is asked for. -/
theorem spared_modAccount_easy {i : ℕ} {g : AccountRow → Exec AccountRow} (hf : Easy (f ⟨⟩)) :
    Spared (modAccount i g >>= f) e ↔ ∀ a, e.s.accounts[i]? = some a → NoPanic (g a) :=
  spared_modAccount.trans (forall₂_congr fun _ _ => and_iff_left fun _ _ => hf _)

end Parts

end MotorRv
