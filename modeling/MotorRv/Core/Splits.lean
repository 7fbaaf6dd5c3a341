import MotorRv.Core.Isolation
import MotorRv.Core.Limits
import MotorRv.Core.Pending

/-!
# Splits

A split multiplies a position by a factor. What is owned becomes whole shares, with the fractions
among the leftovers; what is in flight is truncated bucket by bucket. Seven truncations lie between
what the investor owned and what he owns, so that less than seven units of `10 ^ -8` are lost, and
the average price moves the other way with half a unit of error.

`SplitConserves` is a structure with one field for each thing that a split promises: nothing
negative, whole shares where the investor owns, the total of what is owned scaled with an error
below seven units, the buckets in flight each truncated by itself, the fractions among the
leftovers, and the price inversely scaled. It is proved for a row first, from the floor bounds of
each truncation, and then for an accepted split wherever a session has come to.

Two conditions are asked: the buckets are not negative, as the handlers mean to keep them, and the
exact results fit (`SplitFits`), since a truncated quotient that does not fit is cast.
-/

namespace MotorRv

open Lib PartitionState Apply

/-! ### A bucket -/

/-- A bucket above zero times the factor, truncated. -/
theorem scaledRaw_eq_div {q : Raw} (hq : 0 ≤ q.toInt) (num den : UInt32) :
    scaledRaw q num den = q.toInt * num.toNat / den.toNat :=
  Int.tdiv_eq_ediv_of_nonneg (Int.mul_nonneg hq (Int.natCast_nonneg _))

/-- What a split does to a position. `today` is the quantity of `custodyToday`. -/
structure SplitConserves (num den : UInt32) (c c' : CustodyRow) : Prop where
  today : 0 ≤ c.today * num.toNat - c'.today * den.toNat ∧
    c.today * num.toNat - c'.today * den.toNat < 7 * den.toNat
  nonneg : ∀ q ∈ c'.buckets, 0 ≤ q.toInt
  whole : kQtyOne ∣ c'.available.toInt ∧ kQtyOne ∣ c'.blocked.toInt
  overdue : c'.overdueBuy.toInt = c.overdueBuy.toInt * num.toNat / den.toNat ∧
    c'.overdueSell.toInt = c.overdueSell.toInt * num.toNat / den.toNat
  pending : ∀ k, (c'.pendingBuy k).toInt = (c.pendingBuy k).toInt * num.toNat / den.toNat ∧
    (c'.pendingSell k).toInt = (c.pendingSell k).toInt * num.toNat / den.toNat
  owned : c'.available.toInt = c.available.toInt * num.toNat / den.toNat -
      c.available.toInt * num.toNat / den.toNat % kQtyOne ∧
    c'.blocked.toInt = c.blocked.toInt * num.toNat / den.toNat -
      c.blocked.toInt * num.toNat / den.toNat % kQtyOne
  leftovers : c'.leftovers.toInt = c.leftovers.toInt * num.toNat / den.toNat +
    c.available.toInt * num.toNat / den.toNat % kQtyOne +
      c.blocked.toInt * num.toNat / den.toNat % kQtyOne
  price : 2 * |c'.avgPrice.toInt * num.toNat - c.avgPrice.toInt * den.toNat| ≤ num.toNat

/-- The exact results of a split fit in 64 bits: each bucket, and the price. -/
structure SplitFits (num den : UInt32) (c : CustodyRow) : Prop where
  buckets : ∀ q ∈ c.buckets, Fits (scaledRaw q num den)
  price : Fits (halfEven (c.avgPrice.toInt * den.toNat) num.toNat)

section Row

variable {num den : UInt32} {c c' : CustodyRow}

/-- The price of a split, where it fits. -/
theorem scalePriceHalfEven_eq_ok {p r : Raw}
    (hfit : Fits (halfEven (p.toInt * den.toNat) num.toNat))
    (h : scalePriceHalfEven p num den = .ok r) :
    2 * |r.toInt * num.toNat - p.toInt * den.toNat| ≤ num.toNat := by
  unfold scalePriceHalfEven at h
  split_ifs at h with hzero
  obtain ⟨hnum, hden⟩ := not_or.mp hzero
  have hpos : (0 : ℤ) < num.toNat := by
    have : num.toNat ≠ 0 := fun h0 => hnum (UInt32.toNat_inj.mp h0)
    omega
  have hfactor : (Int64.ofInt den.toNat).toInt = den.toNat := by
    have := den.toNat_lt
    exact Int64.toInt_ofInt_of_le (by omega) (by omega)
  have hval := mulDiv_eq_quotient hpos h
  rw [hfactor] at hval
  rw [hval, quotient_eq_halfEven hpos hfit]
  exact two_mul_abs_halfEven_sub_le hpos

/-- Of what is truncated less than one unit is lost. -/
theorem floor_bounds (hden : den ≠ 0) (n : ℤ) :
    n / den.toNat * den.toNat ≤ n ∧ n < n / den.toNat * den.toNat + den.toNat := by
  have hpos : (0 : ℤ) < den.toNat := by
    have : den.toNat ≠ 0 := fun h0 => hden (UInt32.toNat_inj.mp h0)
    omega
  have hsplit := Int.ediv_mul_add_emod n den.toNat
  have := Int.emod_nonneg n hpos.ne'
  have := Int.emod_lt_of_pos n hpos
  omega

/-- **A split of a position**, bucket by bucket. -/
theorem splitConserves (hnonneg : ∀ q ∈ c.buckets, 0 ≤ q.toInt) (hfits : SplitFits num den c)
    (h : splitCustody num den c = .ok c') : SplitConserves num den c c' := by
  have hall := fun q hq => And.intro (hnonneg q hq) (hfits.buckets q hq)
  simp only [CustodyRow.buckets, List.forall_mem_cons, List.not_mem_nil, false_imp_iff,
    implies_true, and_true] at hall
  obtain ⟨ha, hb, hl, hob, hos, hp0, hp1, hp2, hv0, hv1, hv2⟩ := hall
  have hs := splitOf_of_splitCustody h
  have hden : den ≠ 0 := by
    rintro rfl
    simpa [scalePriceHalfEven] using hs.avgPrice
  -- a bucket that fits is a quotient, and what is whole of it is the quotient without its remainder
  have hscaled : ∀ {q : Raw}, 0 ≤ q.toInt ∧ Fits (scaledRaw q num den) →
      scaledTotal q num den = q.toInt * num.toNat / den.toNat ∧ 0 ≤ scaledTotal q num den := by
    intro q hq
    rw [scaledTotal_of_fits hq.2]
    exact ⟨scaledRaw_eq_div hq.1 num den, scaledRaw_nonneg hq.1 num den⟩
  have hshares : ∀ {q : Raw}, 0 ≤ q.toInt ∧ Fits (scaledRaw q num den) →
      wholeShares q num den = q.toInt * num.toNat / den.toNat -
          q.toInt * num.toNat / den.toNat % kQtyOne ∧
        fraction q num den = q.toInt * num.toNat / den.toNat % kQtyOne := by
    intro q hq
    obtain ⟨hval, hpos⟩ := hscaled hq
    rw [wholeShares, fraction, Int.tdiv_eq_ediv_of_nonneg hpos, Int.tmod_eq_emod_of_nonneg hpos,
      hval]
    have := Int.ediv_mul_add_emod (q.toInt * num.toNat / den.toNat) kQtyOne
    exact ⟨by omega, rfl⟩
  have hpend : ∀ k, 0 ≤ (c.pendingBuy k).toInt ∧ Fits (scaledRaw (c.pendingBuy k) num den) :=
    Fin.forall_fin_succ.mpr ⟨hp0, Fin.forall_fin_two.mpr ⟨hp1, hp2⟩⟩
  have hpend' : ∀ k, 0 ≤ (c.pendingSell k).toInt ∧ Fits (scaledRaw (c.pendingSell k) num den) :=
    Fin.forall_fin_succ.mpr ⟨hv0, Fin.forall_fin_two.mpr ⟨hv1, hv2⟩⟩
  have hbounds := floor_bounds hden
  have havailable := hs.available.trans (hshares ha).1
  have hblocked := hs.blocked.trans (hshares hb).1
  have hleftovers := hs.leftovers
  rw [CorporateActionApplied.splitLeftovers, (hscaled hl).1, (hshares ha).2, (hshares hb).2]
    at hleftovers
  have hoverdue := hs.overdueSell.trans (hscaled hos).1
  have hsell := fun k => (hs.pendingSell k).trans (hscaled (hpend' k)).1
  exact
    { today := by
        -- whole shares and fractions together are the truncated buckets
        have hsum : c'.available.toInt + c'.blocked.toInt + c'.leftovers.toInt =
            c.available.toInt * num.toNat / den.toNat + c.blocked.toInt * num.toNat / den.toNat +
              c.leftovers.toInt * num.toNat / den.toNat := by
          omega
        have h1 := hbounds (c.available.toInt * num.toNat)
        have h2 := hbounds (c.blocked.toInt * num.toNat)
        have h3 := hbounds (c.leftovers.toInt * num.toNat)
        have h4 := hbounds (c.overdueSell.toInt * num.toNat)
        have h5 := hbounds ((c.pendingSell 0).toInt * num.toNat)
        have h6 := hbounds ((c.pendingSell 1).toInt * num.toNat)
        have h7 := hbounds ((c.pendingSell 2).toInt * num.toNat)
        rw [← hoverdue] at h4
        rw [← hsell] at h5
        rw [← hsell] at h6
        rw [← hsell] at h7
        have hafter : (c'.available.toInt + c'.blocked.toInt + c'.leftovers.toInt +
            c'.overdueSell.toInt + ((c'.pendingSell 0).toInt + (c'.pendingSell 1).toInt +
              (c'.pendingSell 2).toInt)) * den.toNat =
            (c.available.toInt * num.toNat / den.toNat * den.toNat +
            c.blocked.toInt * num.toNat / den.toNat * den.toNat +
            c.leftovers.toInt * num.toNat / den.toNat * den.toNat) +
            c'.overdueSell.toInt * den.toNat + ((c'.pendingSell 0).toInt * den.toNat +
              (c'.pendingSell 1).toInt * den.toNat + (c'.pendingSell 2).toInt * den.toNat) := by
          rw [hsum]
          ring
        simp only [CustodyRow.today, slotSum]
        constructor <;> linarith
      nonneg := by
        have hpos : ∀ {q : Raw}, 0 ≤ q.toInt ∧ Fits (scaledRaw q num den) →
            0 ≤ wholeShares q num den := fun hq =>
          Int.mul_nonneg (Int.tdiv_nonneg (hscaled hq).2 (by decide)) (by decide)
        have hrest : ∀ {q : Raw}, 0 ≤ q.toInt ∧ Fits (scaledRaw q num den) →
            0 ≤ fraction q num den := fun hq => Int.tmod_nonneg _ (hscaled hq).2
        simp only [CustodyRow.buckets, List.forall_mem_cons, List.not_mem_nil, false_imp_iff,
          implies_true, and_true, hs.available, hs.blocked, hs.leftovers, hs.overdueBuy,
          hs.overdueSell, hs.pendingBuy, hs.pendingSell]
        exact ⟨hpos ha, hpos hb, add_nonneg (hscaled hl).2 (add_nonneg (hrest ha) (hrest hb)),
          (hscaled hob).2, (hscaled hos).2, (hscaled hp0).2, (hscaled hp1).2, (hscaled hp2).2,
          (hscaled hv0).2, (hscaled hv1).2, (hscaled hv2).2⟩
      whole := ⟨havailable ▸ Int.dvd_self_sub_emod, hblocked ▸ Int.dvd_self_sub_emod⟩
      overdue := ⟨hs.overdueBuy.trans (hscaled hob).1, hoverdue⟩
      pending := fun k => ⟨(hs.pendingBuy k).trans (hscaled (hpend k)).1, hsell k⟩
      owned := ⟨havailable, hblocked⟩
      leftovers := by omega
      price := scalePriceHalfEven_eq_ok hfits.price hs.avgPrice }

end Row

/-! ### Accepted splits -/

theorem ActsOn.of_split {a : CorporateActionApplied} {base : Raw} {c c' : CustodyRow}
    {type : ActionType} (h : ActsOn a base c type c')
    (htype : type = .split ∨ type = .reverseSplit) :
    splitCustody a.factorNum a.factorDen c = .ok c' := by
  cases h with
  | split h => exact h
  | reverseSplit h => exact h
  | bonus | subscription | auction => simp at htype

/-- **Splits and reverse splits.** Wherever a session has come to, an accepted split of a position
whose buckets are not negative conserves its quantity and its value up to the truncations, when the
exact results fit. -/
theorem split_conserves {s₀ s : PartitionState} {arena arena₀ : Arena} {pid : UInt16}
    {cap : PartitionCapacity} {steps : List Step}
    (hinit : blank.init arena pid cap = .ok (true, s₀, arena₀)) (h : Session s₀ steps s)
    {o : Option Outbox} {ev : EventView} {e : Engine} (happ : apply ⟨s, o⟩ ev = .ok (.kOk, e))
    {a : CorporateActionApplied} (hev : LogRecord.event ev = some (.corporateActionApplied a))
    (htype : ActionType.ofCode a.type = some .split ∨ ActionType.ofCode a.type = some .reverseSplit)
    {p : ℕ} {c' : CustodyRow} (hc' : e.s.custody[p]? = some c')
    (hheld : e.s.IsHeld c' a.account a.instrument)
    (hnonneg : ∀ q ∈ (s.rowBefore p c').buckets, 0 ≤ q.toInt)
    (hfits : SplitFits a.factorNum a.factorDen (s.rowBefore p c')) :
    SplitConserves a.factorNum a.factorDen (s.rowBefore p c') c' := by
  have hs := h.sound (sound_init hinit)
  obtain ⟨s', heq, ⟨-, x, hx, heff⟩ | hend⟩ := apply_cases hs happ
  · obtain rfl := Option.some.inj (hx.symm.trans hev)
    rw [heq] at hc' hheld
    refine splitConserves hnonneg hfits ?_
    have hstep := heff.custodyStep hs hc'
    generalize s.rowBefore p c' = c at hstep
    cases hstep with
    | same hno => exact absurd hheld hno
    | acted _ htype' _ _ hact =>
      refine hact.of_split ?_
      obtain htype | htype := htype
      · exact .inl (Option.some.inj (htype'.symm.trans htype))
      · exact .inr (Option.some.inj (htype'.symm.trans htype))
  · have := hend.isOk_eq_false
    cases this

/-- The split of the first position goes through, and fits. -/
def splitsFirst (a : CorporateActionApplied) (ev : EventView) (s : PartitionState) : Bool :=
  match apply ⟨s, none⟩ ev with
  | .ok (st, e) =>
    match e.s.custody[0]? with
    | some c' =>
      decide (st = .kOk ∧ e.s.IsHeld c' a.account a.instrument ∧
        ((s.rowBefore 0 c').buckets.all fun q =>
          decide (0 ≤ q.toInt ∧ Fits (scaledRaw q a.factorNum a.factorDen))) = true ∧
        Fits (halfEven ((s.rowBefore 0 c').avgPrice.toInt * a.factorDen.toNat) a.factorNum.toNat) ∧
        (s.rowBefore 0 c').available = 250000000)
    | none => false
  | .error _ => false

/-- Two and a half shares become three, and three quarters of one among the leftovers. -/
theorem split_conserves_threeForTwo :
    ∃ s₀ arena₀ s steps e c',
      blank.init ⟨2 ^ 16, 0, false, false⟩ 1 ⟨2, 2, 2, 2, 2, 2, 2, 2, 60⟩ = .ok (true, s₀, arena₀) ∧
      Session s₀ steps s ∧
      apply ⟨s, none⟩ ((Event.corporateActionApplied threeForTwo).record 5) = .ok (.kOk, e) ∧
      e.s.custody[0]? = some c' ∧ (s.rowBefore 0 c').available = 250000000 ∧
      SplitConserves 3 2 (s.rowBefore 0 c') c' := by
  obtain ⟨s₀, arena₀, s, steps, hinit, h, -, hend⟩ := @exists_of_passes
    ⟨2, 2, 2, 2, 2, 2, 2, 2, 60⟩ twoAndAHalf (fun x => decide (x.st = .kOk))
    (splitsFirst threeForTwo ((Event.corporateActionApplied threeForTwo).record 5))
    (by decide +kernel)
  unfold splitsFirst at hend
  split at hend
  · next st e happ =>
    split at hend
    · next c' hc' =>
      obtain ⟨rfl, hheld, hall, hprice, hav⟩ := of_decide_eq_true hend
      replace hall := fun q hq => of_decide_eq_true (List.all_eq_true.mp hall q hq)
      have hev : LogRecord.event ((Event.corporateActionApplied threeForTwo).record 5) =
          some (.corporateActionApplied threeForTwo) :=
        LogRecord.event_record (x := .corporateActionApplied threeForTwo) trivial 5
      exact ⟨s₀, arena₀, s, steps, e, c', hinit, h, happ, hc', hav,
        split_conserves hinit h happ hev (.inl rfl) hc' hheld (fun q hq => (hall q hq).1)
          ⟨fun q hq => (hall q hq).2, hprice⟩⟩
    · cases hend
  · cases hend

end MotorRv
