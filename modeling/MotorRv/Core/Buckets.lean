import MotorRv.Base.Scaling
import MotorRv.Core.TradeLists

/-!
# Buckets that are never negative

Invariant I3: no bucket of a position is negative, apart from the available quantity of an account
that may sell short. Most handlers compare before they subtract. A settlement adds a quantity that
it takes from the event, of either sign, and a split or a bonus takes fractions from what may be a
short position and casts; where these go below zero the check at the end of the handler fails.

`CustodyRow.NonNeg` restates the check of the code with integers. Each change of a row keeps it on
its own, except for three, which get a condition on the event and the row: the quantity that a
settlement adds (`TradeSettled.AddsTo`), and the scaling of a split or a bonus
(`CorporateActionApplied.ScalesWell`). `Event.WellSized` collects them for an event and a state.

`nonNegative_of_session` is about whole sessions with reloads, by induction, with the condition on
each step: in all of them the buckets pass the check of the code, and no event but an end of day,
which compares checksums, finds the state corrupt.
-/

namespace MotorRv

open Lib PartitionState Apply

/-! ### One row -/

/-- `bucketsNonNegative` as inequalities between integers. -/
structure CustodyRow.NonNeg (c : CustodyRow) : Prop where
  available : c.available.toInt < 0 → c.shortAllowed = true
  blocked : 0 ≤ c.blocked.toInt
  leftovers : 0 ≤ c.leftovers.toInt
  overdueBuy : 0 ≤ c.overdueBuy.toInt
  overdueSell : 0 ≤ c.overdueSell.toInt
  pendingBuy : ∀ k, 0 ≤ (c.pendingBuy k).toInt
  pendingSell : ∀ k, 0 ≤ (c.pendingSell k).toInt

/-- The check of the code is the inequalities. -/
theorem CustodyRow.bucketsNonNegative_iff (c : CustodyRow) :
    c.bucketsNonNegative = true ↔ c.NonNeg := by
  simp only [bucketsNonNegative, decide_eq_true_eq, Int64.lt_iff_toInt_lt, Int64.le_iff_toInt_le,
    Int64.toInt_zero, not_and, Bool.not_eq_false]
  constructor
  · rintro ⟨h1, h2, h3, h4, h5, h6⟩
    exact ⟨h1, h2, h3, h4, h5, fun k => (h6 k).1, fun k => (h6 k).2⟩
  · rintro ⟨h1, h2, h3, h4, h5, h6, h7⟩
    exact ⟨h1, h2, h3, h4, h5, fun k => ⟨h6 k, h7 k⟩⟩

/-- One slot is replaced by a value that is not negative. -/
theorem setSlot_nonneg {f : Slots Raw} {k : Fin 3} {x : Raw} (hf : ∀ j, 0 ≤ (f j).toInt)
    (hx : 0 ≤ x.toInt) (j : Fin 3) : 0 ≤ (setSlot f k x j).toInt := by
  by_cases hj : j = k
  · rw [hj, setSlot, Function.update_self]
    exact hx
  · rw [setSlot, Function.update_of_ne hj]
    exact hf j

namespace CustodyRow.NonNeg

variable {c c' : CustodyRow} {k : Fin 3}

/-- A position just interned has no negative bucket. -/
theorem cleared (a i : ℕ) : (CustodyRow.cleared a i).NonNeg := by
  refine ⟨fun h => ?_, ?_, ?_, ?_, ?_, fun k => ?_, fun k => ?_⟩
  · simp [CustodyRow.cleared] at h
  all_goals simp [CustodyRow.cleared]

/-- A step of the rotation adds a bucket that is not negative to others that are not. -/
theorem rotateSlot (h : c.NonNeg) {old new : SettlementWindow} {acc : CustodyRow}
    (hacc : acc.NonNeg) (hrot : rotateCustodySlot old new c acc k = .ok c') : c'.NonNeg := by
  have hb := h.pendingBuy k
  have hv := h.pendingSell k
  unfold rotateCustodySlot at hrot
  split_ifs at hrot
  · obtain rfl := Except.ok.inj hrot
    exact hacc
  · split at hrot
    · simp only [bind, except_bind_eq_ok] at hrot
      obtain ⟨b, hbuy, v, hsell, hrot⟩ := hrot
      obtain rfl := Except.ok.inj hrot
      have := Fixed.add_eq_ok hbuy
      have := Fixed.add_eq_ok hsell
      have := hacc.overdueBuy
      have := hacc.overdueSell
      exact { hacc with
        overdueBuy := by dsimp only; omega
        overdueSell := by dsimp only; omega }
    · rename_i j _
      simp only [bind, except_bind_eq_ok] at hrot
      obtain ⟨b, hbuy, v, hsell, hrot⟩ := hrot
      obtain rfl := Except.ok.inj hrot
      have := Fixed.add_eq_ok hbuy
      have := Fixed.add_eq_ok hsell
      have := hacc.pendingBuy j
      have := hacc.pendingSell j
      exact { hacc with
        pendingBuy := setSlot_nonneg hacc.pendingBuy (by omega)
        pendingSell := setSlot_nonneg hacc.pendingSell (by omega) }

/-- The rotation of a position keeps its buckets from being negative. -/
theorem rotate (h : c.NonNeg) {old new : SettlementWindow}
    (hrot : rotateCustody old new c = .ok c') : c'.NonNeg := by
  unfold rotateCustody at hrot
  split_ifs at hrot
  · obtain rfl := Except.ok.inj hrot
    exact h
  · simp only [bind, except_bind_eq_ok] at hrot
    obtain ⟨c₀, h₀, c₁, h₁, h₂⟩ := hrot
    have hempty : ({ c with pendingBuy := fun _ => 0, pendingSell := fun _ => 0 } :
        CustodyRow).NonNeg :=
      { h with pendingBuy := fun _ => by simp, pendingSell := fun _ => by simp }
    exact h.rotateSlot (h.rotateSlot (h.rotateSlot hempty h₀) h₁) h₂

/-- The authorisation to sell short is not taken back. -/
theorem shortAllowed_set (f : UInt8) : (f ||| kShortAllowed) &&& kShortAllowed ≠ 0 := by
  intro h
  have hbits := congrArg UInt8.toBitVec h
  simp only [kShortAllowed, UInt8.toBitVec_and, UInt8.toBitVec_or] at hbits
  have hlow := congrArg (fun b => b.getLsbD 0) hbits
  simp at hlow

/-- An execution adds to a pending bucket, and takes a sale from what is available or is a short
one. -/
theorem execute (h : c.NonNeg) {e : TradeExecuted} (hqty : 0 < e.qty)
    (hshort : e.side = kSideBuy ∨ e.flags &&& 2 ≠ 0 ∨ ¬ c.available < e.qty)
    (hexec : executeCustody e k c = .ok c') : c'.NonNeg := by
  have hpos := Int64.lt_iff_toInt_lt.mp hqty
  rw [Int64.toInt_zero] at hpos
  have hb := h.pendingBuy k
  have hv := h.pendingSell k
  unfold executeCustody at hexec
  split_ifs at hexec with hside hflag
  · simp only [bind, except_bind_eq_ok] at hexec
    obtain ⟨b, hbuy, hexec⟩ := hexec
    obtain rfl := Except.ok.inj hexec
    have := Fixed.add_eq_ok hbuy
    exact { h with pendingBuy := setSlot_nonneg h.pendingBuy (by omega) }
  · simp only [bind, except_bind_eq_ok] at hexec
    obtain ⟨av, -, v, hsell, hexec⟩ := hexec
    obtain rfl := Except.ok.inj hexec
    have := Fixed.add_eq_ok hsell
    exact { h with
      available := fun _ => decide_eq_true (shortAllowed_set c.flags)
      pendingSell := setSlot_nonneg h.pendingSell (by omega) }
  · simp only [bind, except_bind_eq_ok] at hexec
    obtain ⟨av, hav, v, hsell, hexec⟩ := hexec
    obtain rfl := Except.ok.inj hexec
    have := Fixed.add_eq_ok hsell
    have := Fixed.sub_eq_ok hav
    -- without the authorisation of the event the sale was covered
    have hcover := (hshort.resolve_left hside).resolve_left hflag
    rw [Int64.lt_iff_toInt_lt] at hcover
    exact { h with
      available := fun hneg => by dsimp only at hneg; omega
      pendingSell := setSlot_nonneg h.pendingSell (by omega) }

/-- An allocation takes from the source no more than is pending there. -/
theorem allocateFrom (h : c.NonNeg) {e : TradeAllocated} (hqty : 0 < e.qty)
    (hpend : ¬ (if e.side = kSideBuy then c.pendingBuy k < e.qty else c.pendingSell k < e.qty))
    (hfrom : Apply.allocateFrom e k c = .ok c') : c'.NonNeg := by
  have hpos := Int64.lt_iff_toInt_lt.mp hqty
  rw [Int64.toInt_zero] at hpos
  have ha := h.available
  unfold Apply.allocateFrom at hfrom
  split_ifs at hfrom hpend
  · rw [Int64.lt_iff_toInt_lt] at hpend
    simp only [bind, except_bind_eq_ok] at hfrom
    obtain ⟨b, hbuy, hfrom⟩ := hfrom
    obtain rfl := Except.ok.inj hfrom
    have := Fixed.sub_eq_ok hbuy
    exact { h with pendingBuy := setSlot_nonneg h.pendingBuy (by omega) }
  · rw [Int64.lt_iff_toInt_lt] at hpend
    simp only [bind, except_bind_eq_ok] at hfrom
    obtain ⟨v, hsell, av, hav, hfrom⟩ := hfrom
    obtain rfl := Except.ok.inj hfrom
    have := Fixed.sub_eq_ok hsell
    have := Fixed.add_eq_ok hav
    exact { h with
      available := fun hneg => h.available (by dsimp only at hneg; omega)
      pendingSell := setSlot_nonneg h.pendingSell (by omega) }

/-- An allocation adds to the destination, which has a sale available or is allowed short. -/
theorem allocateTo (h : c.NonNeg) {e : TradeAllocated} (hqty : 0 < e.qty)
    (hshort : e.side = kSideBuy ∨ c.shortAllowed = true ∨ ¬ c.available < e.qty)
    (hto : Apply.allocateTo e k c = .ok c') : c'.NonNeg := by
  have hpos := Int64.lt_iff_toInt_lt.mp hqty
  rw [Int64.toInt_zero] at hpos
  have hb := h.pendingBuy k
  have hv := h.pendingSell k
  unfold Apply.allocateTo at hto
  split_ifs at hto with hside
  · simp only [bind, except_bind_eq_ok] at hto
    obtain ⟨b, hbuy, hto⟩ := hto
    obtain rfl := Except.ok.inj hto
    have := Fixed.add_eq_ok hbuy
    exact { h with pendingBuy := setSlot_nonneg h.pendingBuy (by omega) }
  · simp only [bind, except_bind_eq_ok] at hto
    obtain ⟨v, hsell, av, hav, hto⟩ := hto
    obtain rfl := Except.ok.inj hto
    have := Fixed.add_eq_ok hsell
    have := Fixed.sub_eq_ok hav
    refine { h with
      available := fun hneg => ?_
      pendingSell := setSlot_nonneg h.pendingSell (by omega) }
    refine (hshort.resolve_left hside).resolve_right fun hcover => ?_
    rw [Int64.lt_iff_toInt_lt] at hcover
    dsimp only at hneg
    omega

end CustodyRow.NonNeg

/-! ### Settlements -/

/-- The quantity that the outcome adds to a bucket does not take it below zero. -/
def TradeSettled.AddsTo (e : TradeSettled) (c : CustodyRow) : SettleOutcome → Prop
  | .settled | .boughtIn =>
    e.side = kSideBuy → 0 ≤ c.available.toInt + e.qty.toInt ∨ c.shortAllowed = true
  | .deliveryFailure => 0 ≤ (overdueOf e c).toInt + e.qty.toInt

/-- A settlement takes no more than is in the bucket it takes from; what it adds has to be asked
for. -/
theorem CustodyRow.NonNeg.outcome {c c' : CustodyRow} (h : c.NonNeg) {w : SettlementWindow}
    {e : TradeSettled} {a a' : AccountRow} {outcome : SettleOutcome}
    (hadds : e.AddsTo c outcome) (hout : Outcome w e c a outcome c' a') : c'.NonNeg := by
  cases hout with
  -- the quantity was compared with the pending one, so that bucket stays nonnegative
  | @settled k _ _ _ hq hc =>
    rw [Int64.lt_iff_toInt_lt] at hq
    unfold pendingOf at hq
    unfold settleCustody at hc
    split_ifs at hc hq with hside
    · simp only [bind, except_bind_eq_ok] at hc
      obtain ⟨base, -, avg, -, b, hb, av, hav, hc⟩ := hc
      obtain rfl := Except.ok.inj hc
      have := Fixed.sub_eq_ok hb
      have := Fixed.add_eq_ok hav
      exact { h with
        available := fun hneg => (hadds hside).resolve_left (by dsimp only at hneg; omega)
        pendingBuy := setSlot_nonneg h.pendingBuy (by omega) }
    · simp only [bind, except_bind_eq_ok] at hc
      obtain ⟨v, hv, hc⟩ := hc
      obtain rfl := Except.ok.inj hc
      have := Fixed.sub_eq_ok hv
      exact { h with pendingSell := setSlot_nonneg h.pendingSell (by omega) }
  | @deliveryFailure k _ _ _ hq hc =>
    rw [Int64.lt_iff_toInt_lt] at hq
    unfold TradeSettled.AddsTo overdueOf at hadds
    unfold pendingOf at hq
    unfold failCustody at hc
    split_ifs at hc hq hadds
    · simp only [bind, except_bind_eq_ok] at hc
      obtain ⟨b, hb, o, ho, hc⟩ := hc
      obtain rfl := Except.ok.inj hc
      have := Fixed.sub_eq_ok hb
      have := Fixed.add_eq_ok ho
      exact { h with
        pendingBuy := setSlot_nonneg h.pendingBuy (by omega)
        overdueBuy := by dsimp only; omega }
    · simp only [bind, except_bind_eq_ok] at hc
      obtain ⟨v, hv, o, ho, hc⟩ := hc
      obtain rfl := Except.ok.inj hc
      have := Fixed.sub_eq_ok hv
      have := Fixed.add_eq_ok ho
      exact { h with
        pendingSell := setSlot_nonneg h.pendingSell (by omega)
        overdueSell := by dsimp only; omega }
  -- a purchase adds to the available quantity what was overdue
  | boughtIn hq hc =>
    rw [Int64.lt_iff_toInt_lt] at hq
    unfold overdueOf at hq
    unfold buyInCustody at hc
    split_ifs at hc hq with hside
    · simp only [bind, except_bind_eq_ok] at hc
      obtain ⟨o, ho, av, hav, hc⟩ := hc
      obtain rfl := Except.ok.inj hc
      have := Fixed.sub_eq_ok ho
      have := Fixed.add_eq_ok hav
      exact { h with
        available := fun hneg => (hadds hside).resolve_left (by dsimp only at hneg; omega)
        overdueBuy := by dsimp only; omega }
    · simp only [bind, except_bind_eq_ok] at hc
      obtain ⟨o, ho, hc⟩ := hc
      obtain rfl := Except.ok.inj hc
      have := Fixed.sub_eq_ok ho
      exact { h with overdueSell := by dsimp only; omega }

/-! ### Corporate actions -/

/-- The buckets of a position. -/
def CustodyRow.buckets (c : CustodyRow) : List Raw :=
  [c.available, c.blocked, c.leftovers, c.overdueBuy, c.overdueSell, c.pendingBuy 0, c.pendingBuy 1,
    c.pendingBuy 2, c.pendingSell 0, c.pendingSell 1, c.pendingSell 2]

/-- Every scaled bucket fits in 64 bits, and the fractions do not use up the leftovers. -/
structure SplitsWell (num den : UInt32) (c : CustodyRow) : Prop where
  fits : ∀ q ∈ c.buckets, fitsRaw (scaledRaw q num den) = true
  leftovers : 0 ≤ scaledRaw c.leftovers num den + (scaledRaw c.available num den).tmod kQtyOne +
    (scaledRaw c.blocked num den).tmod kQtyOne

/-- A split keeps the buckets where scaling them goes well. -/
theorem CustodyRow.NonNeg.split {c c' : CustodyRow} (h : c.NonNeg) {num den : UInt32}
    (hwell : SplitsWell num den c) (hsplit : splitCustody num den c = .ok c') : c'.NonNeg := by
  have hs := splitOf_of_splitCustody hsplit
  have hfits := hwell.fits
  simp only [buckets, List.forall_mem_cons, List.not_mem_nil, false_imp_iff, implies_true,
    and_true] at hfits
  obtain ⟨fa, fb, fl, fob, fos, fp0, fp1, fp2, fv0, fv1, fv2⟩ := hfits
  -- a scaled bucket keeps its sign as long as the cast does not change it
  have hscaled : ∀ {q : Raw}, fitsRaw (scaledRaw q num den) = true → 0 ≤ q.toInt →
      0 ≤ scaledTotal q num den := fun hfit hq =>
    scaledTotal_of_fits hfit ▸ scaledRaw_nonneg hq num den
  have hshares : ∀ {q : Raw}, fitsRaw (scaledRaw q num den) = true → 0 ≤ q.toInt →
      0 ≤ wholeShares q num den := fun hfit hq =>
    Int.mul_nonneg ((tmod_sign _ (by decide)).1 (hscaled hfit hq)).2 (by decide)
  exact
    { available := fun hneg => by
        have hshort := h.available (by
          by_contra hpos
          exact absurd (hshares fa (by omega)) (by rw [← hs.available]; omega))
        rwa [shortAllowed, hs.flags]
      blocked := hs.blocked ▸ hshares fb h.blocked
      leftovers := by
        rw [hs.leftovers, CorporateActionApplied.splitLeftovers, fraction, fraction,
          scaledTotal_of_fits fa, scaledTotal_of_fits fb, scaledTotal_of_fits fl, ← add_assoc]
        exact hwell.leftovers
      overdueBuy := hs.overdueBuy ▸ hscaled fob h.overdueBuy
      overdueSell := hs.overdueSell ▸ hscaled fos h.overdueSell
      pendingBuy := fun k => by
        have hfit : ∀ k, fitsRaw (scaledRaw (c.pendingBuy k) num den) = true :=
          Fin.forall_fin_succ.mpr ⟨fp0, Fin.forall_fin_two.mpr ⟨fp1, fp2⟩⟩
        rw [hs.pendingBuy]
        exact hscaled (hfit k) (h.pendingBuy k)
      pendingSell := fun k => by
        have hfit : ∀ k, fitsRaw (scaledRaw (c.pendingSell k) num den) = true :=
          Fin.forall_fin_succ.mpr ⟨fv0, Fin.forall_fin_two.mpr ⟨fv1, fv2⟩⟩
        rw [hs.pendingSell]
        exact hscaled (hfit k) (h.pendingSell k) }

/-- The action scales the position without going below zero: a split every bucket, a bonus what
the investor owns, of which the fraction goes to the leftovers. A bonus that would leave less than
there was is refused before it touches a bucket. -/
def CorporateActionApplied.ScalesWell (e : CorporateActionApplied) (c : CustodyRow) :
    ActionType → Prop
  | .split | .reverseSplit => SplitsWell e.factorNum e.factorDen c
  | .bonus => ∀ base total rest, c.custodyToday = .ok base →
      scaleQtyTrunc base e.factorNum e.factorDen = .ok (total, rest) → base ≤ total →
        0 ≤ c.leftovers.toInt + rest.toInt
  | .subscription | .leftoversAuction => True

/-- An action keeps the buckets where scaling them goes well. -/
theorem CustodyRow.NonNeg.act {c c' : CustodyRow} (h : c.NonNeg) {e : CorporateActionApplied}
    {type : ActionType} {base : Raw} (hbase : c.custodyToday = .ok base)
    (hvalid : validateAction e type = true) (hwell : e.ScalesWell c type)
    (hact : ActsOn e base c type c') : c'.NonNeg := by
  cases hact with
  | split hsplit => exact h.split hwell hsplit
  | reverseSplit hsplit => exact h.split hwell hsplit
  | bonus hscale hwhole hpos hbonus =>
    rw [Int64.lt_iff_toInt_lt, Int64.toInt_zero, Fixed.sub_eq_ok hwhole] at hpos
    have hrest := hwell _ _ _ hbase hscale (Int64.le_iff_toInt_le.mpr (by omega))
    have hsub := Fixed.sub_eq_ok hwhole
    simp only [bonusCustody, bind, except_bind_eq_ok] at hbonus
    obtain ⟨cost, -, avg, -, av, hav, lo, hlo, hbonus⟩ := hbonus
    obtain rfl := Except.ok.inj hbonus
    have := Fixed.add_eq_ok hav
    have := Fixed.add_eq_ok hlo
    exact { h with
      available := fun hneg => h.available (by dsimp only at hneg; omega)
      leftovers := by dsimp only; omega }
  | subscription _ hsub =>
    have hqty : 0 ≤ e.qtyDelta.toInt := by
      have := of_decide_eq_true hvalid
      rwa [Int64.le_iff_toInt_le, Int64.toInt_zero] at this
    simp only [subscriptionCustody, bind, except_bind_eq_ok] at hsub
    obtain ⟨avg, -, av, hav, hsub⟩ := hsub
    obtain rfl := Except.ok.inj hsub
    have := Fixed.add_eq_ok hav
    exact { h with available := fun hneg => h.available (by dsimp only at hneg; omega) }
  | auction => exact { h with leftovers := by simp }

/-! ### No new position for a settlement -/

section Length

variable {n : ℕ} {α β : Type}

/-- The part adds no position and removes none. -/
def SameLength (n : ℕ) (m : Apply α) : Prop :=
  Proc.Ensures (fun e : Engine => e.s.custody.length = n) m (fun _ e => e.s.custody.length = n)
    fun _ e => e.s.custody.length = n

/-- Parts that keep the number of positions can be put one after the other. -/
theorem SameLength.bind {m : Apply α} {f : α → Apply β} (hm : SameLength n m)
    (hf : ∀ a, SameLength n (f a)) : SameLength n (m >>= f) := Proc.Ensures.bind hm hf

theorem SameLength.orFail (o : Option α) (st : Status) :
    SameLength n (Proc.orFail o st : Apply α) :=
  Proc.Ensures.orFail (fun _ _ h _ => h) fun _ h _ => h

theorem SameLength.guard (c : Prop) [Decidable c] (st : Status) :
    SameLength n (Proc.guard c st : Apply PUnit) :=
  Proc.Ensures.guard (fun _ h _ => h) fun _ h _ => h

theorem SameLength.look (f : PartitionState → Exec α) : SameLength n (look f) :=
  Proc.Ensures.query fun _ _ h _ => h

/-- Interning something else keeps the number of positions. -/
theorem SameLength.ask {f : PartitionState → α × PartitionState}
    (hf : ∀ s, (f s).2.custody = s.custody) : SameLength n (ask f) :=
  Proc.Ensures.act fun e h => (congrArg List.length (hf e.s)).trans h

/-- A change of the state that keeps the number of positions. -/
theorem SameLength.change {f : PartitionState → Exec PartitionState}
    (hf : ∀ s s', f s = .ok s' → s'.custody.length = s.custody.length) : SameLength n (change f) :=
  Proc.Ensures.update fun e e' h h' => by
    obtain ⟨s', hs', rfl⟩ := map_eq_ok.mp h'
    exact (hf e.s s' hs').trans h

theorem sameLength_account (doc : UInt64) : SameLength n (account doc) := by
  refine .bind (.ask fun s => ?_) fun _ => .orFail _ _
  unfold internAccount
  split_ifs
  · rfl
  · split
    · rfl
    · rfl
    · rfl

theorem sameLength_instrument (id : UInt32) : SameLength n (instrument id) := by
  refine .bind (.ask fun s => ?_) fun _ => .orFail _ _
  unfold internInstrument
  split_ifs
  · rfl
  · split
    · rfl
    · rfl
    · rfl

theorem sameLength_slot (date : DateYmd) : SameLength n (slot date) :=
  .bind (.look _) fun _ => .orFail _ _

theorem sameLength_modCustody (pos : ℕ) (f : CustodyRow → Exec CustodyRow) :
    SameLength n (modCustody pos f) := by
  refine .change fun s s' h => ?_
  obtain ⟨rows, hrows, rfl⟩ := map_eq_ok.mp h
  obtain ⟨c, c', -, -, rfl⟩ := modRow_eq_ok.mp hrows
  exact List.length_set

theorem sameLength_modAccount (acct : ℕ) (f : AccountRow → Exec AccountRow) :
    SameLength n (modAccount acct f) := by
  refine .change fun s s' h => ?_
  obtain ⟨rows, -, rfl⟩ := map_eq_ok.mp h
  rfl

theorem sameLength_pushException (r : ExceptionRecord) (m : Bool) :
    SameLength n (pushException r m) := by
  refine .change fun s s' h => ?_
  obtain rfl := Except.ok.inj h
  unfold PartitionState.pushException
  split
  · rfl
  · rfl

theorem sameLength_settleBuckets (e : TradeSettled) (acct pos : ℕ) (outcome : SettleOutcome) :
    SameLength n (settleBuckets e acct pos outcome) := by
  cases outcome with
  | settled =>
    refine .bind (sameLength_slot _) fun k => .bind (.look _) fun c =>
      .bind (.guard _ _) fun _ => ?_
    exact .bind (sameLength_modCustody _ _) fun _ => sameLength_modAccount _ _
  | deliveryFailure =>
    refine .bind (sameLength_slot _) fun k => .bind (.look _) fun c =>
      .bind (.guard _ _) fun _ => ?_
    refine .bind (sameLength_modCustody _ _) fun _ => .bind (sameLength_modAccount _ _) fun _ => ?_
    exact sameLength_pushException _ _
  | boughtIn =>
    refine .bind (.look _) fun c => .bind (.guard _ _) fun _ => ?_
    exact .bind (sameLength_modCustody _ _) fun _ => sameLength_modAccount _ _

/-- A settlement looks its position up, and makes none. -/
theorem sameLength_applyTradeSettled (ev : EventView) : SameLength n (applyTradeSettled ev) := by
  refine .bind (.bind (.guard _ _) fun _ => Proc.Ensures.pure fun _ h => h) fun e => ?_
  refine .bind (sameLength_account _) fun acct => .bind (sameLength_instrument _) fun inst => ?_
  refine .bind (.look _) fun found => .bind (.orFail _ _) fun pos => .bind (.orFail _ _) ?_
  refine fun outcome => .bind (sameLength_settleBuckets e acct pos outcome) fun _ => ?_
  refine .bind ?_ fun _ => .bind (.bind (.look _) fun _ => .guard _ _) fun _ => ?_
  · rintro eng r eng' hlen h
    simp only [advanceAccount, bind, except_bind_eq_ok] at h
    obtain ⟨a, -, ⟨m, rows⟩, -, h⟩ := h
    obtain ⟨rfl, rfl⟩ := Prod.mk.inj (Except.ok.inj h)
    exact hlen
  · rintro eng r eng' hlen h
    unfold publicaPosicao at h
    split at h
    · obtain ⟨rfl, rfl⟩ := Prod.mk.inj (Except.ok.inj h)
      exact hlen
    · simp only [bind, except_bind_eq_ok] at h
      obtain ⟨c, -, a, -, i, -, ⟨st, o'⟩, -, h⟩ := h
      split_ifs at h
      · obtain ⟨rfl, rfl⟩ := Prod.mk.inj (Except.ok.inj h)
        exact hlen
      · obtain ⟨rfl, rfl⟩ := Prod.mk.inj (Except.ok.inj h)
        exact hlen

end Length

/-- The template of a settlement. -/
theorem tmpl_of_tradeSettled {ev : EventView} {e : TradeSettled}
    (h : LogRecord.event ev = some (.tradeSettled e)) :
    Tmpl.ofId ev.tmpl.toNat = some .tradeSettled := by
  unfold LogRecord.event at h
  split at h
  · rename_i t ht
    split_ifs at h
    cases t with
    | tradeSettled => exact ht
    | custodyReconciled =>
      simp only [Event.ofPayload] at h
      split at h
      · simp at h
      · simp at h
    | _ => cases h
  · cases h

variable {s s' : PartitionState}

/-- A settlement leaves as many positions as there were, whatever its answer. -/
theorem custody_length_of_tradeSettled {o : Option Outbox} {ev : EventView} {st : Status}
    {e' : Engine} (h : apply ⟨s, o⟩ ev = .ok (st, e')) {e : TradeSettled}
    (hev : LogRecord.event ev = some (.tradeSettled e)) :
    e'.s.custody.length = s.custody.length := by
  simp only [apply, bind, except_bind_eq_ok] at h
  obtain ⟨⟨r, e₁⟩, hd, h⟩ := h
  obtain ⟨-, rfl⟩ := Prod.mk.inj (Except.ok.inj h)
  unfold Apply.dispatch at hd
  rw [tmpl_of_tradeSettled hev] at hd
  have hlen := sameLength_applyTradeSettled (n := s.custody.length) ev ⟨s, o⟩ r e₁ rfl hd
  cases r with
  | error st => exact hlen
  | ok u => exact hlen

/-! ### Along a session -/

/-- No row speaks for another holder of the position, or for another instrument. -/
def PartitionState.MayHold (s : PartitionState) (c : CustodyRow) (doc : UInt64) (id : UInt32) :
    Prop :=
  (∀ d, s.holderOf c = some d → d = doc) ∧
    ∀ k, s.instrumentKeys[c.instrument]? = some k → k = instrumentKey id

/-- The quantities of the event, where the handler uses them, leave the buckets of the position
that it names at zero or above. -/
def Event.WellSized (s : PartitionState) : Event → Prop
  | .tradeSettled e => ∀ outcome c, SettleOutcome.ofCode e.outcome = some outcome →
      (outcome ≠ .boughtIn → (s.window.slotOf e.settlementDate).isSome = true) → c ∈ s.custody →
        s.MayHold c e.account e.instrument → e.AddsTo c outcome
  | .corporateActionApplied e => ∀ type c, ActionType.ofCode e.type = some type →
      validateAction e type = true →
      (∀ acct, s.accountKeys[acct]? = some e.account →
        s.appliedActions.contains e.actionId acct = false) → c ∈ s.custody →
        s.MayHold c e.account e.instrument → e.ScalesWell c type
  | _ => True

/-- A position held afterwards may have been held before, as the keys of the rows stay. -/
theorem mayHold_of_keys {c : CustodyRow} {doc : UInt64} {id : UInt32}
    (ha : s.accountKeys <+: s'.accountKeys) (hi : s.instrumentKeys <+: s'.instrumentKeys)
    (hheld : s'.IsHeld c doc id) : s.MayHold c doc id := by
  refine ⟨fun d hd => ?_, fun k hk => ?_⟩
  · obtain ⟨new, hnew⟩ := ha
    have hlt := (List.getElem?_eq_some_iff.mp hd).1
    have hheld' : s'.accountKeys[c.account]? = some doc := hheld.1
    rw [← hnew, List.getElem?_append_left hlt] at hheld'
    exact Option.some.inj (hd.symm.trans hheld')
  · obtain ⟨new, hnew⟩ := hi
    have hlt := (List.getElem?_eq_some_iff.mp hk).1
    have hheld' := hheld.2
    rw [← hnew, List.getElem?_append_left hlt] at hheld'
    exact Option.some.inj (hk.symm.trans hheld')

/-- The effect of an event keeps the keys of the rows. -/
theorem mayHold_of_isHeld {x : Event} (h : Effect s x s') {c : CustodyRow} {doc : UInt64}
    {id : UInt32} (hheld : s'.IsHeld c doc id) : s.MayHold c doc id :=
  mayHold_of_keys h.accountKeys_prefix h.instrumentKeys_prefix hheld

/-- An empty position may be scaled. -/
theorem scalesWell_cleared (e : CorporateActionApplied) (a i : ℕ) (type : ActionType) :
    e.ScalesWell (CustodyRow.cleared a i) type := by
  have hzero : ∀ num den, scaledRaw 0 num den = 0 := fun num den => by simp [scaledRaw]
  have hwell : SplitsWell e.factorNum e.factorDen (CustodyRow.cleared a i) := by
    refine ⟨fun q hq => ?_, ?_⟩
    · have hq0 : q = 0 := by simpa [CustodyRow.buckets, CustodyRow.cleared] using hq
      rw [hq0, hzero]
      rfl
    · simp [CustodyRow.cleared, hzero]
  cases type with
  | split => exact hwell
  | reverseSplit => exact hwell
  | bonus =>
    intro base total rest hbase hscale _
    obtain rfl : base = 0 := by
      have hadd : Fixed.add 0 0 = .ok 0 := by simp [Fixed.add, checkedRaw, fitsRaw]
      have hsum : (CustodyRow.cleared a i).custodyToday = .ok 0 := by
        simp only [CustodyRow.custodyToday, CustodyRow.cleared, sumRaw, hadd]
        rfl
      exact Except.ok.inj (hbase.symm.trans hsum)
    have hrest := (scaleQtyTrunc_eq_ok (by rw [hzero]; simp [fitsRaw]) hscale).2
    rw [hrest, hzero]
    simp [CustodyRow.cleared]
  | subscription => trivial
  | leftoversAuction => trivial

/-- **Positions of an effect.** -/
theorem Effect.nonNeg {x : Event} (h : Effect s x s') (hs : s.Sound)
    (hrows : ∀ c ∈ s.custody, c.NonNeg) (hpos : ∀ r ∈ s.trades.map TradeRow.fixed, 0 < r.qty)
    (hlen : ∀ e, x = .tradeSettled e → s'.custody.length = s.custody.length)
    (hwell : x.WellSized s) {c' : CustodyRow} (hc' : c' ∈ s'.custody) : c'.NonNeg := by
  obtain ⟨p, hp⟩ := List.mem_iff_getElem?.mp hc'
  -- the row was there before, or it is a cleared row that interning made
  have hold : s.rowBefore p c' ∈ s.custody ∨
      (s.custody.length ≤ p ∧ ∃ a i, s.rowBefore p c' = CustodyRow.cleared a i) := by
    unfold rowBefore
    rcases Nat.lt_or_ge p s.custody.length with hlt | hge
    · rw [List.getD_eq_getElem _ _ hlt]
      exact .inl (List.getElem_mem hlt)
    · rw [List.getD_eq_getElem?_getD, List.getElem?_eq_none hge]
      exact .inr ⟨hge, _, _, rfl⟩
  have hbefore : (s.rowBefore p c').NonNeg := by
    obtain hmem | ⟨-, a, i, heq⟩ := hold
    · exact hrows _ hmem
    · rw [heq]
      exact .cleared a i
  have htrade : ∀ {id r}, s.tradeOf id = some r → 0 < r.qty := fun {id r} hr =>
    hpos r.fixed (List.mem_map_of_mem (List.mem_of_find?_eq_some hr))
  have hstep := h.custodyStep hs hp
  generalize s.rowBefore p c' = c at hold hbefore hstep
  cases hstep with
  | same => exact hbefore
  | rotated hrot => exact hbefore.rotate hrot
  | executed _ _ hqty hshort hexec => exact hbefore.execute hqty hshort hexec
  | allocatedFrom ht _ _ _ _ hqty hpend hfrom =>
    exact hbefore.allocateFrom (hqty ▸ htrade ht) hpend hfrom
  | allocatedTo ht _ _ _ _ hqty hshort hto => exact hbefore.allocateTo (hqty ▸ htrade ht) hshort hto
  | @settled e outcome _ _ _ _ hheld hout hrow =>
    obtain hmem | ⟨hge, -⟩ := hold
    · refine hbefore.outcome
        (hwell outcome c hout (fun hne => ?_) hmem (mayHold_of_isHeld h hheld)) hrow
      cases hrow with
      | settled hk => rw [hk]; rfl
      | deliveryFailure hk => rw [hk]; rfl
      | boughtIn => exact absurd rfl hne
    -- a settlement that moves a row found it, so it made none
    · have hlt := (List.getElem?_eq_some_iff.mp hp).1
      rw [hlen e rfl] at hlt
      omega
  | @acted e type base _ _ hheld htype hvalid hbase hact =>
    refine hbefore.act hbase hvalid ?_ hact
    obtain hmem | ⟨-, a, i, rfl⟩ := hold
    · refine hwell type c htype hvalid (fun acct hacct => ?_) hmem (mayHold_of_isHeld h hheld)
      cases h with
      | corporateActionApplied hI hkey _ _ _ _ _ _ hfree =>
        obtain rfl := hI.sound.account_inj (hI.accountKey hacct) hkey
        exact hfree
    · exact scalesWell_cleared e a i type

/-- What a session keeps of the buckets. -/
structure PartitionState.Buckets (s : PartitionState) : Prop where
  rows : ∀ c ∈ s.custody, c.NonNeg
  positive : ∀ r ∈ s.trades.map TradeRow.fixed, 0 < r.qty

/-- A rejected event adds empty positions at most. -/
theorem Kept.buckets (h : Kept s s') (hb : s.Buckets) : s'.Buckets := by
  obtain ⟨new, hnew, hall⟩ := h.custody
  refine ⟨?_, by rw [h.trades]; exact hb.positive⟩
  rw [hnew]
  refine List.forall_mem_append.mpr ⟨hb.rows, fun c hc => ?_⟩
  obtain ⟨a, i, rfl⟩ := hall c hc
  exact .cleared a i

/-- By cases on the effect: each one changes the buckets of at most two positions, or rotates all of
them. -/
theorem Effect.buckets {x : Event} (h : Effect s x s') (hs : s.Sound) (hb : s.Buckets)
    (hlen : ∀ e, x = .tradeSettled e → s'.custody.length = s.custody.length)
    (hwell : x.WellSized s) : s'.Buckets :=
  ⟨fun _ hc => h.nonNeg hs hb.rows hb.positive hlen hwell hc, h.positive hb.positive⟩

/-- An event that is not accepted keeps the buckets as well, and finds the state corrupt only when
it is an end of day. -/
theorem Ended.buckets {ev : EventView} {st : Status} (h : Ended s ev st s') (hs : s.Sound)
    (hb : s.Buckets)
    (hlen : ∀ e, LogRecord.event ev = some (.tradeSettled e) →
      s'.custody.length = s.custody.length)
    (hwell : ∀ x, LogRecord.event ev = some x → x.WellSized s) :
    s'.Buckets ∧ (st.code = .stateCorrupt → ∃ e, LogRecord.event ev = some (.eodMarked e)) := by
  have hplain : ∀ {st : Status}, st.code.plain = true → st.code ≠ .stateCorrupt := by
    rintro ⟨c, d⟩ hc rfl
    cases hc
  have hbad : s'.Buckets → ¬ ∃ c ∈ s'.custody, c.bucketsNonNegative = false := by
    rintro hb' ⟨c, hc, hneg⟩
    have := (c.bucketsNonNegative_iff).mpr (hb'.rows c hc)
    rw [hneg] at this
    cases this
  cases h with
  | turned hk hst => exact ⟨hk.buckets hb, fun hc => absurd hc (hplain hst)⟩
  | executedBefore => exact ⟨hb, fun hc => by cases hc⟩
  | actionBefore _ hI | incomeBefore _ hI =>
    exact ⟨hI.kept.buckets hb, fun hc => by cases hc⟩
  | diverged hev => exact ⟨hb, fun _ => ⟨_, hev⟩⟩
  | refused _ hI _ _ hst =>
    obtain ⟨hrows, hpos⟩ := hI.kept.buckets hb
    exact ⟨⟨hrows, hpos⟩, fun hc => absurd hc (hplain hst)⟩
  | unpublished hev _ heff =>
    exact ⟨heff.buckets hs hb (fun e he => hlen e (he ▸ hev)) (hwell _ hev), fun hc => by cases hc⟩
  | corrupt hev _ heff hneg =>
    have hb' := heff.buckets hs hb (fun e he => hlen e (he ▸ hev)) (hwell _ hev)
    exact absurd hneg (hbad hb')
  | @corruptMove e _ t r _ hev heff _ hr hneg =>
    obtain ⟨hrows, hpos⟩ := heff.buckets hs hb (fun e he => by cases he) (hwell _ hev)
    have hset : (s'.trades.set t { r with state := TradeState.allocated.code }).map
        TradeRow.fixed = s'.trades.map TradeRow.fixed := map_set_of_eq hr rfl
    exact absurd hneg (hbad ⟨hrows, hset ▸ hpos⟩)

/-- **One step.** -/
theorem buckets_apply (hs : s.Sound) (hb : s.Buckets) {o : Option Outbox} {ev : EventView}
    {st : Status} {e : Engine} (h : apply ⟨s, o⟩ ev = .ok (st, e))
    (hwell : ∀ x, LogRecord.event ev = some x → x.WellSized s) :
    e.s.Buckets ∧ (st.code = .stateCorrupt → ∃ x, LogRecord.event ev = some (.eodMarked x)) := by
  have hlen := fun x => custody_length_of_tradeSettled h (e := x)
  obtain ⟨s', hs', hcases⟩ := apply_cases hs h
  have hlen' : ∀ x, LogRecord.event ev = some (.tradeSettled x) →
      s'.custody.length = s.custody.length := fun x hx => by
    have := hlen x hx
    rw [hs'] at this
    exact this
  have hb' : s'.Buckets ∧ (st.code = .stateCorrupt →
      ∃ x, LogRecord.event ev = some (.eodMarked x)) := by
    obtain ⟨rfl, x, hx, heff⟩ | hend := hcases
    · refine ⟨heff.buckets hs hb (fun e he => hlen' e (he ▸ hx)) (hwell x hx), fun hc => ?_⟩
      cases hc
    · exact hend.buckets hs hb hlen' hwell
  rw [hs']
  exact ⟨⟨hb'.1.rows, hb'.1.positive⟩, hb'.2⟩

/-- By induction on the session, with every event well sized for the state before it. -/
theorem buckets_session {s₀ : PartitionState} (hs₀ : s₀.Sound) (hb₀ : s₀.Buckets)
    {steps : List Step} (h : Session s₀ steps s)
    (hwell : ∀ x ∈ steps, ∀ y, LogRecord.event x.ev = some y → y.WellSized x.before) :
    s.Buckets ∧ ∀ x ∈ steps, x.st.code = .stateCorrupt →
      ∃ e, LogRecord.event x.ev = some (.eodMarked e) := by
  induction h with
  | start => exact ⟨hb₀, fun x hx => by cases hx⟩
  | @event steps s o ev st e h happ ih =>
    obtain ⟨hb, hcodes⟩ := ih fun x hx => hwell x (List.mem_append_left _ hx)
    have hstep := buckets_apply (h.sound hs₀) hb happ (hwell ⟨s, ev, st, e.s⟩ (by simp))
    refine ⟨hstep.1, fun x hx => ?_⟩
    obtain hx | hx := List.mem_append.mp hx
    · exact hcodes x hx
    · rw [List.mem_singleton.mp hx]
      exact hstep.2
  | reload h hsave hload ih =>
    obtain ⟨⟨hrows, hpos⟩, hcodes⟩ := ih hwell
    have hsame := (agree_of_load (h.sound hs₀) hsave hload).sameState
    exact ⟨⟨hsame.custody ▸ hrows, hsame.trades ▸ hpos⟩, hcodes⟩

/-- **I3 along a session.** While the quantities of the events are well sized, every position keeps
its buckets at zero or above, available apart where short sales are allowed, and no event but an
end of day finds the state corrupt. -/
theorem nonNegative_of_session {arena arena₀ : Arena} {pid : UInt16} {c : PartitionCapacity}
    {s₀ s : PartitionState} (hinit : blank.init arena pid c = .ok (true, s₀, arena₀))
    {steps : List Step} (h : Session s₀ steps s)
    (hwell : ∀ x ∈ steps, ∀ y, LogRecord.event x.ev = some y → y.WellSized x.before) :
    (∀ c ∈ s.custody, c.bucketsNonNegative = true) ∧ ∀ x ∈ steps, x.st.code = .stateCorrupt →
      ∃ e, LogRecord.event x.ev = some (.eodMarked e) := by
  have hb₀ : s₀.Buckets := by
    obtain ⟨-, -, slots, -, rfl⟩ := init_eq_ok hinit
    exact ⟨fun c hc => (by cases hc), fun r hr => (by cases hr)⟩
  obtain ⟨hb, hcodes⟩ := buckets_session (sound_init hinit) hb₀ h hwell
  exact ⟨fun c hc => (c.bucketsNonNegative_iff).mpr (hb.rows c hc), hcodes⟩

/-- A sale of one unit that the account does not have, authorised. -/
def soldShort : TradeExecuted := { boughtOne with side := 2, flags := 2 }

/-- Its settlement. -/
def settledShort : TradeSettled := ⟨1, 10000, 0, 0, 1, 20260903, 2, 1⟩

theorem nonNegative_of_session_short :
    ∃ s₀ arena₀ s steps, blank.init ⟨2 ^ 16, 0, false, false⟩ 1 ⟨2, 2, 2, 2, 2, 2, 2, 2, 60⟩ =
        .ok (true, s₀, arena₀) ∧ Session s₀ steps s ∧
      steps.map Step.st = [.kOk, .kOk, .kOk, .kOk] ∧
      (∀ c ∈ s.custody, c.bucketsNonNegative = true) ∧ ∀ x ∈ steps, x.st.code = .stateCorrupt →
        ∃ e, LogRecord.event x.ev = some (.eodMarked e) := by
  have hinit : ∃ s₀ arena₀, blank.init ⟨2 ^ 16, 0, false, false⟩ 1
      ⟨2, 2, 2, 2, 2, 2, 2, 2, 60⟩ = .ok (true, s₀, arena₀) ∧ ∃ s, applyAll s₀
        (feed [.closingPriceSet quoted, .dayOpened firstDay, .tradeExecuted soldShort,
          .tradeSettled settledShort]) = .ok ([.kOk, .kOk, .kOk, .kOk], s) :=
    ⟨_, _, rfl, _, rfl⟩
  obtain ⟨s₀, arena₀, hinit, s, hrun⟩ := hinit
  obtain ⟨steps, hsession, hevs, hsts⟩ := session_of_applyAll hrun
  refine ⟨s₀, arena₀, s, steps, hinit, hsession, hsts,
    nonNegative_of_session hinit hsession fun x hx y hy => ?_⟩
  have hmem : x.ev ∈ steps.map Step.ev := List.mem_map_of_mem hx
  obtain ⟨z, hz, heq⟩ := event_of_mem_feed (by simp [Event.Fits]) (hevs ▸ hmem)
  obtain rfl := Option.some.inj (heq.symm.trans hy)
  simp only [List.mem_cons, List.not_mem_nil, or_false] at hz
  obtain rfl | rfl | rfl | rfl := hz
  · trivial
  · trivial
  · trivial
  · intro outcome c hout _ _ _
    obtain rfl : outcome = .settled := (Option.some.inj hout).symm
    exact fun hside => absurd hside (by decide)

/-- A settlement of a negative quantity. -/
def settledMinus : TradeSettled := { settledShort with side := 1, qty := -1 }

/-- A settlement of a negative quantity takes the free position below zero. -/
theorem not_forall_nonNegative :
    ¬ ∀ (arena arena₀ : Arena) (pid : UInt16) (c : PartitionCapacity) (s₀ s : PartitionState)
        (steps : List Step), blank.init arena pid c = .ok (true, s₀, arena₀) →
      Session s₀ steps s → ∀ x ∈ steps, x.st.code = .stateCorrupt →
        ∃ e, LogRecord.event x.ev = some (.eodMarked e) := by
  intro hall
  have hrun : ∃ s₀ arena₀, blank.init ⟨2 ^ 16, 0, false, false⟩ 1
      ⟨2, 2, 2, 2, 2, 2, 2, 2, 60⟩ = .ok (true, s₀, arena₀) ∧ ∃ s, applyAll s₀
        (feed [.closingPriceSet quoted, .dayOpened firstDay, .tradeExecuted boughtOne,
          .tradeSettled settledMinus]) = .ok ([.kOk, .kOk, .kOk, .fail .stateCorrupt], s) :=
    ⟨_, _, rfl, _, rfl⟩
  obtain ⟨s₀, arena₀, hinit, s, hrun⟩ := hrun
  obtain ⟨steps, hsession, hevs, hsts⟩ := session_of_applyAll hrun
  have hlast : (Status.fail .stateCorrupt : Status) ∈ steps.map Step.st := by
    rw [hsts]
    simp
  obtain ⟨x, hx, hst⟩ := List.mem_map.mp hlast
  obtain ⟨e, he⟩ := hall _ _ _ _ _ _ _ hinit hsession x hx (by rw [hst]; rfl)
  have hmem : x.ev ∈ steps.map Step.ev := List.mem_map_of_mem hx
  obtain ⟨z, hz, heq⟩ := event_of_mem_feed (by simp [Event.Fits]) (hevs ▸ hmem)
  obtain rfl := Option.some.inj (heq.symm.trans he)
  simp at hz

end MotorRv
