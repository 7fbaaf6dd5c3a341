import MotorRv.Core.PendingCash
import MotorRv.Core.Limits

/-!
# Pending quantities and pending trades

The pending quantities of a position are kept in a bucket for each side and date, while every trade
keeps a quantity of its own. With a faithful feed along a calendar both agree, unless a split
rescales the buckets and not the trades, or a buy-in takes trades of the window back to netted and
leaves the buckets.

The structure is that of the module on cash, with two differences. A position has buckets on two
sides, and an allocation moves quantity between two positions; `CustodyRow.Shifted` says of a row
that one side and date has changed by an amount and nothing else. And a split acts on the buckets,
which the trades do not follow, so it is among the events that unbalance (`Event.Unbalances`),
unless it leaves the pending buckets as they are.

From the equation follows what settlement rests on: the quantity of any selection of pending trades
of a lot is in the bucket (`pendingQty_of_session`).
-/

namespace MotorRv

open Lib PartitionState Apply

/-! ### Both sides -/

/-- The pending buckets of one side. -/
def CustodyRow.side (buy : Bool) (c : CustodyRow) : Slots Raw :=
  if buy then c.pendingBuy else c.pendingSell

/-- The purchases, or the sales, of a position. -/
def ofPosition (acct inst : ℕ) (buy : Bool) : TradeKind := fun a i side =>
  decide (a = acct ∧ i = inst ∧ decide (side = kSideBuy) = buy)

/-- What a row holds for a position, a side and a date. -/
def CustodyRow.pendingFor (w : SettlementWindow) (acct inst : ℕ) (buy : Bool) (d : DateYmd)
    (c : CustodyRow) : ℤ :=
  if c.account = acct ∧ c.instrument = inst then datedSum w (c.side buy) d else 0

namespace PartitionState

/-- The pending quantity of a position on one side at a date. -/
def qtyAt (s : PartitionState) (acct inst : ℕ) (buy : Bool) (d : DateYmd) : ℤ :=
  (s.custody.map (CustodyRow.pendingFor s.window acct inst buy d)).sum

/-- The quantity of the pending trades of a position on one side with a settlement date. -/
def owedQty (s : PartitionState) (acct inst : ℕ) (buy : Bool) (d : DateYmd) : ℤ :=
  owed (ofPosition acct inst buy) TradeRow.qty d s.trades

/-- Both sides agree for every position, side and date of the window. -/
def QtyMatched (s : PartitionState) : Prop :=
  ∀ acct inst buy k, s.qtyAt acct inst buy (s.window k) = s.owedQty acct inst buy (s.window k)

end PartitionState

theorem qty_fixed (r : TradeRow) : r.fixed.qty = r.qty := rfl

/-! ### One row -/

/-- The buckets of one side and date have changed by `δ`, those of other dates or the other side
not at all. -/
structure CustodyRow.Shifted (w : SettlementWindow) (buy : Bool) (date : DateYmd) (δ : ℤ)
    (c c' : CustodyRow) : Prop where
  owner : c'.account = c.account ∧ c'.instrument = c.instrument
  dated : ∀ b d, datedSum w (c'.side b) d =
    datedSum w (c.side b) d + if b = buy ∧ date = d then δ else 0

namespace CustodyRow.Shifted

variable {w : SettlementWindow} {k : Fin 3} {c c' : CustodyRow} {date : DateYmd} {x : Raw} {δ : ℤ}

/-- What leaves the pending buckets alone shifts them by nothing. -/
theorem of_same (h : c'.account = c.account ∧ c'.instrument = c.instrument)
    (hb : c'.pendingBuy = c.pendingBuy) (hv : c'.pendingSell = c.pendingSell) (buy : Bool) :
    Shifted w buy date 0 c c' where
  owner := h
  dated b d := by rw [ite_self, add_zero, side, side, hb, hv]

/-- One slot of the purchases is shifted. -/
theorem of_buy (h : c'.account = c.account ∧ c'.instrument = c.instrument)
    (hb : c'.pendingBuy = setSlot c.pendingBuy k x) (hv : c'.pendingSell = c.pendingSell)
    (hx : x.toInt = (c.pendingBuy k).toInt + δ) : Shifted w true (w k) δ c c' where
  owner := h
  dated b d := by
    cases b with
    | true =>
      simp only [side, if_true, hb, true_and]
      exact datedSum_setSlot_of hx
    | false => simp [side, hv]

/-- One slot of the sales is shifted. -/
theorem of_sell (h : c'.account = c.account ∧ c'.instrument = c.instrument)
    (hb : c'.pendingBuy = c.pendingBuy) (hv : c'.pendingSell = setSlot c.pendingSell k x)
    (hx : x.toInt = (c.pendingSell k).toInt + δ) : Shifted w false (w k) δ c c' where
  owner := h
  dated b d := by
    cases b with
    | true => simp [side, hb]
    | false =>
      simp only [side, Bool.false_eq_true, if_false, hv, true_and]
      exact datedSum_setSlot_of hx

end CustodyRow.Shifted

section Rows

variable {w : SettlementWindow} {k : Fin 3} {c c' : CustodyRow}

/-- An execution adds its quantity to its slot. -/
theorem shifted_execute {e : TradeExecuted} (h : executeCustody e k c = .ok c') :
    c.Shifted w (decide (e.side = kSideBuy)) (w k) e.qty.toInt c' := by
  unfold executeCustody at h
  by_cases hside : e.side = kSideBuy
  · simp only [if_pos hside, bind, except_bind_eq_ok] at h
    obtain ⟨b, hb, h⟩ := h
    obtain rfl := Except.ok.inj h
    rw [decide_eq_true hside]
    exact .of_buy ⟨rfl, rfl⟩ rfl rfl (Fixed.add_eq_ok hb)
  · simp only [if_neg hside, bind, except_bind_eq_ok] at h
    obtain ⟨av, -, v, hv, h⟩ := h
    obtain rfl := Except.ok.inj h
    rw [decide_eq_false hside]
    exact .of_sell ⟨rfl, rfl⟩ rfl rfl (Fixed.add_eq_ok hv)

/-- An allocation takes its quantity from the slot of the source. -/
theorem shifted_allocateFrom {e : TradeAllocated} (h : allocateFrom e k c = .ok c') :
    c.Shifted w (decide (e.side = kSideBuy)) (w k) (-e.qty.toInt) c' := by
  unfold allocateFrom at h
  split_ifs at h with hside
  · simp only [bind, except_bind_eq_ok] at h
    obtain ⟨b, hb, h⟩ := h
    obtain rfl := Except.ok.inj h
    rw [decide_eq_true hside]
    exact .of_buy ⟨rfl, rfl⟩ rfl rfl (Fixed.sub_eq_ok hb)
  · simp only [bind, except_bind_eq_ok] at h
    obtain ⟨v, hv, av, -, h⟩ := h
    obtain rfl := Except.ok.inj h
    rw [decide_eq_false hside]
    exact .of_sell ⟨rfl, rfl⟩ rfl rfl (Fixed.sub_eq_ok hv)

/-- An allocation adds its quantity to the slot of the destination. -/
theorem shifted_allocateTo {e : TradeAllocated} (h : allocateTo e k c = .ok c') :
    c.Shifted w (decide (e.side = kSideBuy)) (w k) e.qty.toInt c' := by
  unfold allocateTo at h
  split_ifs at h with hside
  · simp only [bind, except_bind_eq_ok] at h
    obtain ⟨b, hb, h⟩ := h
    obtain rfl := Except.ok.inj h
    rw [decide_eq_true hside]
    exact .of_buy ⟨rfl, rfl⟩ rfl rfl (Fixed.add_eq_ok hb)
  · simp only [bind, except_bind_eq_ok] at h
    obtain ⟨v, hv, av, -, h⟩ := h
    obtain rfl := Except.ok.inj h
    rw [decide_eq_false hside]
    exact .of_sell ⟨rfl, rfl⟩ rfl rfl (Fixed.add_eq_ok hv)

/-- A settlement takes its quantity from its slot. -/
theorem shifted_settle {e : TradeSettled} (h : settleCustody e k c = .ok c') :
    c.Shifted w (decide (e.side = kSideBuy)) (w k) (-e.qty.toInt) c' := by
  unfold settleCustody at h
  split_ifs at h with hside
  · simp only [bind, except_bind_eq_ok] at h
    obtain ⟨base, -, avg, -, b, hb, av, -, h⟩ := h
    obtain rfl := Except.ok.inj h
    rw [decide_eq_true hside]
    exact .of_buy ⟨rfl, rfl⟩ rfl rfl (Fixed.sub_eq_ok hb)
  · simp only [bind, except_bind_eq_ok] at h
    obtain ⟨v, hv, h⟩ := h
    obtain rfl := Except.ok.inj h
    rw [decide_eq_false hside]
    exact .of_sell ⟨rfl, rfl⟩ rfl rfl (Fixed.sub_eq_ok hv)

/-- A failure takes its quantity from its slot. -/
theorem shifted_fail {e : TradeSettled} (h : failCustody e k c = .ok c') :
    c.Shifted w (decide (e.side = kSideBuy)) (w k) (-e.qty.toInt) c' := by
  unfold failCustody at h
  split_ifs at h with hside
  · simp only [bind, except_bind_eq_ok] at h
    obtain ⟨b, hb, o, -, h⟩ := h
    obtain rfl := Except.ok.inj h
    rw [decide_eq_true hside]
    exact .of_buy ⟨rfl, rfl⟩ rfl rfl (Fixed.sub_eq_ok hb)
  · simp only [bind, except_bind_eq_ok] at h
    obtain ⟨v, hv, o, -, h⟩ := h
    obtain rfl := Except.ok.inj h
    rw [decide_eq_false hside]
    exact .of_sell ⟨rfl, rfl⟩ rfl rfl (Fixed.sub_eq_ok hv)

/-- A buy-in takes nothing from the slots. -/
theorem shifted_buyIn {e : TradeSettled} (h : buyInCustody e c = .ok c') (date : DateYmd) :
    c.Shifted w (decide (e.side = kSideBuy)) date 0 c' := by
  unfold buyInCustody at h
  split_ifs at h with hside
  · simp only [bind, except_bind_eq_ok] at h
    obtain ⟨o, -, av, -, h⟩ := h
    obtain rfl := Except.ok.inj h
    exact .of_same (by exact ⟨rfl, rfl⟩) (by exact rfl) (by exact rfl) _
  · simp only [bind, except_bind_eq_ok] at h
    obtain ⟨o, -, h⟩ := h
    obtain rfl := Except.ok.inj h
    exact .of_same (by exact ⟨rfl, rfl⟩) (by exact rfl) (by exact rfl) _

/-- What an outcome takes from the pending quantity of its side and date. -/
theorem shifted_outcome {e : TradeSettled} {a a' : AccountRow} {o : SettleOutcome}
    (h : Outcome w e c a o c' a') :
    c.Shifted w (decide (e.side = kSideBuy)) e.settlementDate
      (if o = .boughtIn then 0 else -e.qty.toInt) c' := by
  cases h with
  | settled hk _ hc _ =>
    rw [← SettlementWindow.slotOf_eq_some hk]
    exact shifted_settle hc
  | deliveryFailure hk _ hc _ =>
    rw [← SettlementWindow.slotOf_eq_some hk]
    exact shifted_fail hc
  | boughtIn _ hc _ => exact shifted_buyIn hc _

end Rows

/-! ### Splits -/

/-- A split of a position leaves its pending buckets as they are. -/
structure CustodyRow.KeepsPending (num den : UInt32) (c : CustodyRow) : Prop where
  buy : ∀ k, scaledTotal (c.pendingBuy k) num den = (c.pendingBuy k).toInt
  sell : ∀ k, scaledTotal (c.pendingSell k) num den = (c.pendingSell k).toInt

/-- A position without pending quantities keeps them through every split. -/
theorem CustodyRow.keepsPending_of_empty {num den : UInt32} {c : CustodyRow}
    (hb : ∀ k, c.pendingBuy k = 0) (hv : ∀ k, c.pendingSell k = 0) : c.KeepsPending num den := by
  constructor <;> intro k
  · rw [hb]
    simp [scaledTotal, scaledRaw, castRaw]
  · rw [hv]
    simp [scaledTotal, scaledRaw, castRaw]

/-- A split leaves the pending quantities that scaling leaves. -/
theorem pending_split {num den : UInt32} {c c' : CustodyRow} (hkeep : c.KeepsPending num den)
    (h : splitCustody num den c = .ok c') : c'.pendingBuy = c.pendingBuy ∧
      c'.pendingSell = c.pendingSell := by
  have hsplit := splitOf_of_splitCustody h
  constructor
  · funext k
    exact Int64.toInt_inj.mp ((hsplit.pendingBuy k).trans (hkeep.buy k))
  · funext k
    exact Int64.toInt_inj.mp ((hsplit.pendingSell k).trans (hkeep.sell k))

/-- A bonus leaves the pending quantities. -/
theorem pending_bonus {e : CorporateActionApplied} {base whole rest : Raw} {c c' : CustodyRow}
    (h : bonusCustody e base whole rest c = .ok c') : c'.pendingBuy = c.pendingBuy ∧
      c'.pendingSell = c.pendingSell := by
  simp only [bonusCustody, bind, except_bind_eq_ok] at h
  obtain ⟨cost, -, avg, -, av, -, lo, -, h⟩ := h
  obtain rfl := Except.ok.inj h
  exact ⟨rfl, rfl⟩

/-- A subscription leaves the pending quantities. -/
theorem pending_subscription {e : CorporateActionApplied} {base : Raw} {c c' : CustodyRow}
    (h : subscriptionCustody e base c = .ok c') : c'.pendingBuy = c.pendingBuy ∧
      c'.pendingSell = c.pendingSell := by
  simp only [subscriptionCustody, bind, except_bind_eq_ok] at h
  obtain ⟨avg, -, av, -, h⟩ := h
  obtain rfl := Except.ok.inj h
  exact ⟨rfl, rfl⟩

/-- Only a split touches what is pending. -/
theorem pending_actsOn {e : CorporateActionApplied} {base : Raw} {c c' : CustodyRow}
    {type : ActionType} (h : ActsOn e base c type c')
    (hkeep : type = .split ∨ type = .reverseSplit → c.KeepsPending e.factorNum e.factorDen) :
    c'.pendingBuy = c.pendingBuy ∧ c'.pendingSell = c.pendingSell := by
  cases h with
  | split h => exact pending_split (hkeep (.inl rfl)) h
  | reverseSplit h => exact pending_split (hkeep (.inr rfl)) h
  | bonus _ _ _ h => exact pending_bonus h
  | subscription _ h => exact pending_subscription h
  | auction => exact ⟨rfl, rfl⟩

/-! ### The table -/

variable {s s₁ s' : PartitionState} {cal : Calendar} {acct inst : ℕ} {buy : Bool} {d : DateYmd}

namespace PartitionState

/-- Empty rows of new positions have nothing pending. -/
theorem qtyAt_append {new : List CustodyRow} (h : s'.custody = s.custody ++ new)
    (hnew : ∀ c ∈ new, ∃ a i, c = CustodyRow.cleared a i) (hwin : s'.window = s.window) :
    s'.qtyAt acct inst buy d = s.qtyAt acct inst buy d := by
  rw [qtyAt, h, hwin]
  refine sum_map_append_zero _ fun c hc => ?_
  obtain ⟨a, i, rfl⟩ := hnew c hc
  cases buy <;> simp [CustodyRow.pendingFor, CustodyRow.side, CustodyRow.cleared, datedSum]

/-- A rejected event leaves every pending quantity. -/
theorem qtyAt_kept (h : Kept s s') : s'.qtyAt acct inst buy d = s.qtyAt acct inst buy d := by
  obtain ⟨new, hnew, hall⟩ := h.custody
  exact qtyAt_append hnew hall h.window

/-- The pending quantity of one position changes. -/
theorem qtyAt_set {pos : ℕ} {c c' : CustodyRow} {buy₀ : Bool} {date : DateYmd} {δ : ℤ}
    (hc : s₁.custody[pos]? = some c) (h : s'.custody = s₁.custody.set pos c')
    (hwin : s'.window = s₁.window) (hshift : c.Shifted s₁.window buy₀ date δ c') :
    s'.qtyAt acct inst buy d = s₁.qtyAt acct inst buy d +
      if c.account = acct ∧ c.instrument = inst ∧ buy = buy₀ ∧ date = d then δ else 0 := by
  rw [qtyAt, h, hwin, sum_map_set _ hc]
  congr 1
  simp only [CustodyRow.pendingFor, hshift.owner.1, hshift.owner.2, hshift.dated]
  split_ifs <;> first | omega | tauto

/-- A rotation, row by row. -/
theorem pendingFor_rotated {old new : SettlementWindow} {rows rows' : List CustodyRow}
    (h : List.Forall₂ (CustodyRow.Rotated old new) rows rows') {k : Fin 3} :
    (rows'.map (CustodyRow.pendingFor new acct inst buy (new k))).sum =
      (rows.map (CustodyRow.pendingFor old acct inst buy (new k))).sum := by
  induction h with
  | nil => rfl
  | @cons c c' _ _ hc _ ih =>
    have hown : c'.account = c.account ∧ c'.instrument = c.instrument := by
      rw [hc.rest]
      exact ⟨rfl, rfl⟩
    have hside : datedSum new (c'.side buy) (new k) = datedSum old (c.side buy) (new k) := by
      cases buy with
      | true => exact hc.buy.dated _ ⟨k, rfl⟩
      | false => exact hc.sell.dated _ ⟨k, rfl⟩
    rw [List.map_cons, List.map_cons, List.sum_cons, List.sum_cons, ih, CustodyRow.pendingFor,
      CustodyRow.pendingFor, hown.1, hown.2, hside]

end PartitionState

/-! ### One event -/

/-- A split changes what is pending in the position that it names. -/
def CorporateActionApplied.Rescales (e : CorporateActionApplied) (s : PartitionState) : Prop :=
  (ActionType.ofCode e.type = some .split ∨ ActionType.ofCode e.type = some .reverseSplit) ∧
    ∃ c ∈ s.custody, s.MayHold c e.account e.instrument ∧
      ¬ c.KeepsPending e.factorNum e.factorDen

/-- Shares are bought in while their date is in the window. -/
def TradeSettled.RefillsQty (e : TradeSettled) (s : PartitionState) : Prop :=
  SettleOutcome.ofCode e.outcome = some .boughtIn ∧ (∃ k, s.window k = e.settlementDate) ∧
    e.qty ≠ 0

/-- The event changes buckets and not the trades in them, or trades and not their buckets. -/
def Event.Unbalances (s : PartitionState) : Event → Prop
  | .tradeSettled e => e.RefillsQty s
  | .corporateActionApplied e => e.Rescales s
  | _ => False

/-- What it is to belong to a position and a side. -/
theorem ofPosition_iff {a i : ℕ} {side : UInt8} : ofPosition acct inst buy a i side = true ↔
    a = acct ∧ i = inst ∧ buy = decide (side = kSideBuy) := by
  rw [ofPosition, decide_eq_true_eq, eq_comm (a := buy)]

/-- Both sides change by the same amounts. -/
theorem PartitionState.QtyMatched.of_change (h : s.QtyMatched) (δ : ℕ → ℕ → Bool → DateYmd → ℤ)
    (hwin : s'.window = s.window)
    (hpend : ∀ a i b d, s'.qtyAt a i b d = s.qtyAt a i b d + δ a i b d)
    (howed : ∀ a i b d, (∃ k, s.window k = d) →
      s'.owedQty a i b d = s.owedQty a i b d + δ a i b d) :
    s'.QtyMatched := fun a i b k => by
  rw [hwin, hpend, howed a i b _ ⟨k, rfl⟩, h a i b k]

/-- Quantities stay matched where nothing that they depend on changes. -/
theorem PartitionState.QtyMatched.of_same (h : s.QtyMatched) (hwin : s'.window = s.window)
    (hpend : ∀ a i b d, s'.qtyAt a i b d = s.qtyAt a i b d) (htr : s'.trades = s.trades) :
    s'.QtyMatched :=
  h.of_change (fun _ _ _ _ => 0) hwin (fun a i b d => by rw [hpend, add_zero])
    fun a i b d _ => by rw [owedQty, owedQty, htr, add_zero]

/-- **One effect.** -/
theorem Effect.qtyMatched {x : Event} (h : Effect s x s') (hs : s.Sound) (hd : Dealt cal s)
    (hday : ∀ e, x = .dayOpened e → cal.IsWindow (newWindow e)) (hf : x.Faithful s)
    (hno : ¬ x.Unbalances s) (hm : s.QtyMatched) : s'.QtyMatched := by
  have hkept : ∀ {s₁}, Interned s s₁ → ∀ a i b d, s₁.qtyAt a i b d = s.qtyAt a i b d :=
    fun hI a i b d => qtyAt_kept hI.kept
  cases h with
  | @dayOpened e _ _ hnext h =>
    have hopen := opened_of_openDay h
    have hw := hday e rfl
    have hlt := hd.dates.day.lt_of_next hw hnext
    intro a i b k
    have howed : s'.owedQty a i b (s'.window k) = s.owedQty a i b (s'.window k) :=
      owed_opened qty_fixed h
    rw [howed, qtyAt, pendingFor_rotated hopen.dayRotated.custody, ← qtyAt]
    by_cases hin : ∃ j, s.window j = s'.window k
    · obtain ⟨j, hj⟩ := hin
      rw [← hj]
      exact hm a i b j
    · -- a date that comes into the window: nothing is pending for it on either side
      have hzero : s.qtyAt a i b (s'.window k) = 0 := by
        refine List.sum_eq_zero fun x hx => ?_
        obtain ⟨c, -, rfl⟩ := List.mem_map.mp hx
        rw [CustodyRow.pendingFor, datedSum,
          Finset.filter_false_of_mem fun j _ hj => hin ⟨j, hj⟩, Finset.sum_empty, ite_self]
      rw [hzero, owedQty, owed_eq_zero fun r hr => ?_]
      rw [due, if_neg]
      rintro ⟨-, -, hdate⟩
      rw [hopen.window] at hdate hin
      exact hin (hdate ▸ hd.inWindow hw hlt hr hdate.symm)
  | @tradeExecuted e s₁ k gross fees cash _ c c' a a' acct inst pos hI _ _ _ _ _ _ hk hc
      howner _ _ _
      _ _ hc' _ _ =>
    have hwk := SettlementWindow.slotOf_eq_some hk
    refine hm.of_change (fun a i b d => if c.account = a ∧ c.instrument = i ∧
      b = decide (e.side = kSideBuy) ∧ e.settlementDate = d then e.qty.toInt else 0)
      hI.window (fun a i b d => ?_) fun a i b d _ => ?_
    · refine (qtyAt_set hc (by exact rfl) (by exact rfl) (shifted_execute hc')).trans ?_
      rw [hkept hI, hI.window, hwk]
    · rw [owedQty, owedQty, owed_append, howner.1, howner.2]
      congr 1
      rw [owed, List.map_singleton, List.sum_singleton, due]
      have hp : (newTrade e acct inst cash a'.firstTrade).isPending = true :=
        decide_eq_true (.inl rfl)
      refine if_congr ?_ rfl rfl
      rw [ofPosition_iff, eq_true hp, true_and, and_assoc, and_assoc]
      exact Iff.rfl
  | @allocatedInPlace e s₁ r k t acct hI _ hr hstate =>
    refine hm.of_change (fun _ _ _ _ => 0) hI.window (fun a i b d => ?_) fun a i b d _ => ?_
    · rw [add_zero]
      exact hkept hI a i b d
    · rw [add_zero]
      refine owed_setState qty_fixed hr ?_
      rw [TradeRow.isPending, TradeRow.isPending, hstate]
      rfl
  | @allocated e s₁ s₂ r r' k c₁ c₁' c₂ c₂' a₁ a₁' a₂ a₂' t de para posDe posPara hI ht hr hstate
      hfrom hto hne hk hqty hc₁ how₁ hc₂ how₂ hpend _ hc₁' hc₂' _ _ _ _ hlink hr' =>
    obtain ⟨hown, -, hside, hdate⟩ := TradeAllocated.Faithful.terms hf hs hI ht hr hfrom hto hne
    have hwk := SettlementWindow.slotOf_eq_some hk
    obtain ⟨-, -, hrest⟩ := relinkTrade_rows hlink
    have hwin : s₂.window = s₁.window := by rw [hrest]
    have hcust : s₂.custody = (s₁.custody.set posDe c₁').set posPara c₂' := by rw [hrest]
    have hpos : posDe ≠ posPara := by
      rintro rfl
      obtain rfl := Option.some.inj (hc₁.symm.trans hc₂)
      exact hne (how₁.1.symm.trans how₂.1)
    refine hm.of_change (fun a i b d =>
      (if c₂.account = a ∧ c₂.instrument = i ∧ b = decide (e.side = kSideBuy) ∧
        e.settlementDate = d then e.qty.toInt else 0) +
      if c₁.account = a ∧ c₁.instrument = i ∧ b = decide (e.side = kSideBuy) ∧
        e.settlementDate = d then -e.qty.toInt else 0)
      (hwin.trans hI.window) (fun a i b d => ?_) fun a i b d _ => ?_
    · have hde : ({ s₁ with custody := s₁.custody.set posDe c₁' } : PartitionState).qtyAt a i b d =
          _ := qtyAt_set hc₁ (by exact rfl) (by exact rfl) (shifted_allocateFrom hc₁')
      have hpara : (s₁.custody.set posDe c₁')[posPara]? = some c₂ := by
        rw [List.getElem?_set_ne hpos]
        exact hc₂
      refine (@qtyAt_set { s₁ with custody := s₁.custody.set posDe c₁' } _ _ _ _ _ _ _ _ _ _ _
        hpara (by exact hcust) (by exact hwin) (shifted_allocateTo hc₂')).trans ?_
      rw [hde, hkept hI, hI.window, hwk]
      ring
    · refine (owed_allocated qty_fixed hlink (hI.trades ▸ hr) hstate hr').trans ?_
      have hdue : ∀ x : ℕ, due (ofPosition a i b) TradeRow.qty d { r with account := x } =
          if x = a ∧ r.instrument = i ∧ b = decide (e.side = kSideBuy) ∧ e.settlementDate = d then
            r.qty.toInt else 0 := by
        intro x
        rw [due, hdate, hside]
        refine if_congr ?_ rfl rfl
        rw [ofPosition_iff]
        simp [TradeRow.isPending, hstate, and_assoc]
      have hr : due (ofPosition a i b) TradeRow.qty d r = _ := hdue r.account
      rw [hdue, hr, hown, hI.trades, owedQty, how₁.1, how₁.2, how₂.1, how₂.2, hqty]
      split_ifs <;> omega
  | @batchNetted e s₁ k a n rows _ acct hI _ ha _ _ hadv hlog =>
    obtain ⟨xs, m, d, rfl⟩ := hlog
    refine hm.of_change (fun _ _ _ _ => 0) hI.window (fun a i b d => ?_) fun a i b d _ => ?_
    · rw [add_zero]
      exact hkept hI a i b d
    · rw [add_zero]
      exact owed_batchNetted qty_fixed hd.listed.linked hI ha hadv
  | @tradeSettled e s₁ acct inst pos c a o c' a' n rows _ hI hfind hout hrows hadv hlog =>
    obtain ⟨xs, m, d, rfl⟩ := hlog
    refine hm.of_change (fun a i b d => if c.account = a ∧ c.instrument = i ∧
      b = decide (e.side = kSideBuy) ∧ e.settlementDate = d then
        if o = .boughtIn then 0 else -e.qty.toInt else 0) hI.window (fun a i b d => ?_)
      fun a i b d hin => ?_
    · refine (qtyAt_set hfind.custody (by exact rfl) (by exact rfl) (shifted_outcome
        (w := s₁.window) (by rw [hI.window]; exact hrows))).trans ?_
      rw [hkept hI]
    · obtain ⟨hmatch, hother⟩ := @owed_tradeSettled _ _ _ (ofPosition a i b) TradeRow.qty d
        qty_fixed hd hI _ _ _ _ _ _ _ _ _ hfind hadv
      have hsum := hf.qty o hout
      rw [hfind.owner.1, hfind.owner.2]
      by_cases hat : acct = a ∧ inst = i ∧ b = decide (e.side = kSideBuy) ∧ e.settlementDate = d
      · rw [owedQty, owedQty, if_pos hat]
        refine (hmatch ⟨ofPosition_iff.mpr ⟨hat.1, hat.2.1, hat.2.2.1⟩, hat.2.2.2⟩).trans ?_
        rw [← hsum]
        cases o with
        | settled | deliveryFailure => simp [signOf]
        | boughtIn =>
          -- the buy-in is of nothing, or its date is behind the window
          have hzero : e.qty = 0 := by
            by_contra hne
            exact hno ⟨hout, hat.2.2.2 ▸ hin, hne⟩
          simp [hzero]
      · rw [owedQty, owedQty, if_neg hat, add_zero]
        refine hother fun h => hat ?_
        obtain ⟨h1, h2, h3⟩ := ofPosition_iff.mp h.1
        exact ⟨h1, h2, h3, h.2⟩
  | @corporateActionApplied e s₁ c _ _ _ type _ c' _ acct inst pos hI hacct hinst hc
      howner _ htype _ _
      _ _ hact _ _ hlog =>
    obtain ⟨xs, n, d, rfl⟩ := hlog
    have hkeep : type = .split ∨ type = .reverseSplit → c.KeepsPending e.factorNum e.factorDen := by
      intro hsplit
      obtain hold | ⟨-, a, i, rfl⟩ := hI.custody_cases hc
      · by_contra hbad
        refine hno ⟨by rwa [htype, Option.some_inj, Option.some_inj], c,
          List.mem_of_getElem? hold, ?_, hbad⟩
        refine mayHold_of_keys hI.accountKeys_prefix hI.instrumentKeys_prefix ⟨?_, ?_⟩
        · rw [holderOf, howner.1]
          exact hacct
        · rw [howner.2]
          exact hinst
      · exact CustodyRow.keepsPending_of_empty (fun _ => rfl) fun _ => rfl
    obtain ⟨hb, hv⟩ := pending_actsOn hact hkeep
    refine hm.of_same hI.window (fun a i b d => ?_) hI.trades
    have hshift : c.Shifted s₁.window b d 0 c' := .of_same (keepsOwner_actsOn hact) hb hv b
    refine (qtyAt_set hc (by exact rfl) (by exact rfl) hshift).trans ?_
    rw [ite_self, add_zero, hkept hI]
  | dividendPaid hI => exact hm.of_same hI.window (fun a i b d => hkept hI a i b d) hI.trades
  | closingPriceSet hI => exact hm.of_same hI.window (fun a i b d => hkept hI a i b d) hI.trades
  | custodyReconciled =>
    obtain ⟨xs, n, d, f, hrest⟩ := recordDivergences_rest _ _ s
    rw [hrest]
    exact hm
  | eodMarked => exact hm

/-! ### Runs -/

/-- **One step.** -/
theorem qtyMatched_apply (hs : s.Sound) (hd : Dealt cal s) (hm : s.QtyMatched)
    {o : Option Outbox} {ev : EventView} {st : Status} {e : Engine}
    (h : apply ⟨s, o⟩ ev = .ok (st, e)) (hday : Step.OnCalendar cal ⟨s, ev, st, e.s⟩)
    (hf : Step.Meets (fun s x => x.Faithful s) ⟨s, ev, st, e.s⟩)
    (hno : Step.Meets (fun s x => ¬ x.Unbalances s) ⟨s, ev, st, e.s⟩) : e.s.QtyMatched := by
  refine apply_invariant hs h (fun _ _ hm => hm) (fun x s' hx hst hok heff => ?_)
    (fun t s' hk => hm.of_same hk.window (fun a i b d => (qtyAt_kept hk :)) hk.trades)
    fun s' t r hr hstate hm' => ?_
  · refine heff.qtyMatched hs hd (fun d hd' => ?_) (hf hst x hx) (hno hst x hx) hm
    subst hd'
    exact hday (hok.resolve_right Bool.false_ne_true) d hx
  · -- the trade was moved and not advanced, and is pending all the same
    intro a i b k
    have := hm' a i b k
    rw [owedQty, owed_setState qty_fixed hr (by
      rw [TradeRow.isPending, TradeRow.isPending, hstate]
      rfl)] at this
    exact this

/-- States that no event can tell apart are matched together. -/
theorem PartitionState.QtyMatched.agree (hm : s.QtyMatched) (h : Agree s s') : s'.QtyMatched := by
  have hsame := h.sameState
  refine hm.of_same hsame.window.symm (fun a i b d => ?_) hsame.trades.symm
  rw [qtyAt, qtyAt, hsame.custody, hsame.window]

/-- By induction on the session, each event faithful and no step of the two kinds that break the
match. -/
theorem qtyMatched_session {s₀ : PartitionState} (hs₀ : s₀.Sound) (hd₀ : Dealt cal s₀)
    (hm₀ : s₀.QtyMatched) {steps : List Step} (h : Session s₀ steps s)
    (hdays : ∀ x ∈ steps, x.OnCalendar cal)
    (hf : ∀ x ∈ steps, x.Meets fun s y => y.Faithful s)
    (hno : ∀ x ∈ steps, x.Meets fun s y => ¬ y.Unbalances s) : Dealt cal s ∧ s.QtyMatched := by
  induction h with
  | start => exact ⟨hd₀, hm₀⟩
  | @event steps s o ev st e h happ ih =>
    have hlast : (⟨s, ev, st, e.s⟩ : Step) ∈ steps ++ [⟨s, ev, st, e.s⟩] :=
      List.mem_append_right _ (List.mem_singleton_self _)
    have hpast : ∀ {P : Step → Prop}, (∀ x ∈ steps ++ [⟨s, ev, st, e.s⟩], P x) →
        ∀ x ∈ steps, P x := fun hall x hx => hall x (List.mem_append_left _ hx)
    obtain ⟨hd, hm⟩ := ih (hpast hdays) (hpast hf) (hpast hno)
    have hs := h.sound hs₀
    refine ⟨hd.apply hs happ (fun d hd' hok => hdays _ hlast hok d hd')
      fun x hx hst => hf _ hlast hst x hx, ?_⟩
    exact qtyMatched_apply hs hd hm happ (hdays _ hlast) (hf _ hlast) (hno _ hlast)
  | reload h hsave hload ih =>
    obtain ⟨hd, hm⟩ := ih hdays hf hno
    have hag := agree_of_load (h.sound hs₀) hsave hload
    exact ⟨hd.agree hag, hm.agree hag⟩

/-- A position is named by one row. -/
theorem PartitionState.Sound.qtyAt_eq (hs : s.Sound) {c : CustodyRow} (hc : c ∈ s.custody)
    (buy : Bool) (d : DateYmd) :
    s.qtyAt c.account c.instrument buy d = datedSum s.window (c.side buy) d := by
  obtain ⟨before, after, hrows⟩ := List.append_of_mem hc
  have hat : s.custody[before.length]? = some c := by
    rw [hrows, List.getElem?_append_right le_rfl, Nat.sub_self, List.getElem?_cons_zero]
  have hzero : ∀ {i q}, s.custody[i]? = some q → i ≠ before.length →
      CustodyRow.pendingFor s.window c.account c.instrument buy d q = 0 := fun hq hi =>
    if_neg fun h => hi (hs.position_inj hq hat h.1 h.2)
  have hfirst : (before.map (CustodyRow.pendingFor s.window c.account c.instrument buy d)).sum =
    0 := by
    refine List.sum_eq_zero fun x hx => ?_
    obtain ⟨q, hq, rfl⟩ := List.mem_map.mp hx
    obtain ⟨i, hi⟩ := List.mem_iff_getElem?.mp hq
    have hlt := (List.getElem?_eq_some_iff.mp hi).1
    refine @hzero i q ?_ (by omega)
    rw [hrows, List.getElem?_append_left hlt, hi]
  have hlast : (after.map (CustodyRow.pendingFor s.window c.account c.instrument buy d)).sum =
    0 := by
    refine List.sum_eq_zero fun x hx => ?_
    obtain ⟨q, hq, rfl⟩ := List.mem_map.mp hx
    obtain ⟨i, hi⟩ := List.mem_iff_getElem?.mp hq
    refine @hzero (before.length + 1 + i) q ?_ (by omega)
    rw [hrows, List.getElem?_append_right (by omega), show before.length + 1 + i - before.length =
      i + 1 by omega, List.getElem?_cons_succ, hi]
  rw [qtyAt, hrows, List.map_append, List.sum_append, List.map_cons, List.sum_cons, hfirst, hlast,
    zero_add, add_zero, CustodyRow.pendingFor, if_pos ⟨rfl, rfl⟩]

/-- Selected trades of a kind are at most all of them. -/
theorem sumOf_filter_le_owed {kind : TradeKind} {d : DateYmd} {sel : TradeRow → Bool}
    {rows : List TradeRow} (hpos : ∀ r ∈ rows, 0 < r.qty)
    (hsel : ∀ r ∈ rows, sel r = true → kind r.account r.instrument r.side = true ∧
      r.isPending = true ∧ r.settlementDate = d) :
    sumOf TradeRow.qty (rows.filter sel) ≤ owed kind TradeRow.qty d rows := by
  induction rows with
  | nil => exact le_rfl
  | cons r rows ih =>
    have ih := ih (fun q hq => hpos q (List.mem_cons_of_mem r hq)) fun q hq =>
      hsel q (List.mem_cons_of_mem r hq)
    have hr := Int64.lt_iff_toInt_lt.mp (hpos r List.mem_cons_self)
    rw [Int64.toInt_zero] at hr
    unfold sumOf owed at ih ⊢
    rw [List.map_cons, List.sum_cons]
    cases hs : sel r with
    | true =>
      rw [List.filter_cons_of_pos hs, List.map_cons, List.sum_cons, due,
        if_pos (hsel r List.mem_cons_self hs)]
      omega
    | false =>
      have hdue : 0 ≤ due kind TradeRow.qty d r := by
        unfold due
        split_ifs <;> omega
      rw [List.filter_cons_of_neg (by simp [hs])]
      omega

/-- The pending trades that share account, instrument, side and settlement date with `r`. -/
def TradeRow.lot (r q : TradeRow) : Bool :=
  q.isPending && decide (q.account = r.account ∧ q.instrument = r.instrument ∧ q.side = r.side ∧
    q.settlementDate = r.settlementDate)

/-- **Pending quantities.** In a session along a calendar with a faithful feed, in which no split
changes what is pending and no shares are bought in while their date is in the window, the pending
quantities of every position are those of its pending trades; and whichever of the pending trades
of a lot are moved or settled, the position has their quantity. -/
theorem pendingQty_of_session (cal : Calendar) {arena arena₀ : Arena} {pid : UInt16}
    {c : PartitionCapacity} {s₀ s : PartitionState}
    (hinit : blank.init arena pid c = .ok (true, s₀, arena₀)) {steps : List Step}
    (h : Session s₀ steps s) (hdays : ∀ x ∈ steps, x.OnCalendar cal)
    (hf : ∀ x ∈ steps, x.Meets fun s y => y.Faithful s)
    (hno : ∀ x ∈ steps, x.Meets fun s y => ¬ y.Unbalances s) :
    (∀ c ∈ s.custody, ∀ k, s.window k ≠ 0 →
      (c.pendingBuy k).toInt = s.owedQty c.account c.instrument true (s.window k) ∧
        (c.pendingSell k).toInt = s.owedQty c.account c.instrument false (s.window k)) ∧
      ∀ r ∈ s.trades, r.isPending = true → ∀ k, s.window k = r.settlementDate → s.window k ≠ 0 →
        ∃ c ∈ s.custody, c.account = r.account ∧ c.instrument = r.instrument ∧
          ∀ sel : TradeRow → Bool, sumOf TradeRow.qty (s.trades.filter fun q => r.lot q && sel q) ≤
            (c.side (decide (r.side = kSideBuy)) k).toInt := by
  have hm₀ : s₀.QtyMatched := by
    obtain ⟨-, -, slots, -, rfl⟩ := init_eq_ok hinit
    exact fun _ _ _ _ => rfl
  obtain ⟨hd, hm⟩ := qtyMatched_session (sound_init hinit) (dealt_init hinit) hm₀ h hdays hf hno
  have hs := h.sound (sound_init hinit)
  have hbucket : ∀ c ∈ s.custody, ∀ buy k, s.window k ≠ 0 →
      (c.side buy k).toInt = s.owedQty c.account c.instrument buy (s.window k) := by
    intro c hc buy k hk
    have heq := hm c.account c.instrument buy k
    rwa [hs.qtyAt_eq hc, (hd.dates.day.isWindow hk).datedSum_eq] at heq
  refine ⟨fun c hc k hk => ⟨hbucket c hc true k hk, hbucket c hc false k hk⟩,
    fun r hr hp k hk hk0 => ?_⟩
  have hpos : ∀ q ∈ s.trades, 0 < q.qty := fun q hq =>
    hd.listed.positive q.fixed (List.mem_map_of_mem hq)
  have hlot : ∀ {q}, r.lot q = true →
      ofPosition r.account r.instrument (decide (r.side = kSideBuy)) q.account q.instrument
        q.side = true ∧ q.isPending = true ∧ q.settlementDate = r.settlementDate := by
    intro q hq
    simp only [TradeRow.lot, Bool.and_eq_true, decide_eq_true_eq] at hq
    obtain ⟨hqp, h1, h2, h3, h4⟩ := hq
    exact ⟨ofPosition_iff.mpr ⟨h1, h2, by rw [h3]⟩, hqp, h4⟩
  have hle : ∀ sel : TradeRow → Bool, sumOf TradeRow.qty
      (s.trades.filter fun q => r.lot q && sel q) ≤
        s.owedQty r.account r.instrument (decide (r.side = kSideBuy)) r.settlementDate := by
    intro sel
    refine sumOf_filter_le_owed hpos fun q _ hq => ?_
    rw [Bool.and_eq_true] at hq
    exact hlot hq.1
  -- the trade itself is pending, so some row of its position holds something
  have hsome : 0 < s.qtyAt r.account r.instrument (decide (r.side = kSideBuy)) (s.window k) := by
    rw [hm, hk]
    have hone := hle fun q => decide (q = r)
    have hmem : r ∈ s.trades.filter fun q => r.lot q && decide (q = r) := by
      rw [List.mem_filter]
      exact ⟨hr, by simp [TradeRow.lot, hp]⟩
    refine lt_of_lt_of_le ?_ hone
    refine List.sum_pos _ (fun x hx => ?_) (fun hnil => ?_)
    · obtain ⟨q, hq, rfl⟩ := List.mem_map.mp hx
      have hq := Int64.lt_iff_toInt_lt.mp (hpos q (List.mem_filter.mp hq).1)
      rwa [Int64.toInt_zero] at hq
    · rw [List.map_eq_nil_iff] at hnil
      rw [hnil] at hmem
      cases hmem
  obtain ⟨c, hc, hne⟩ : ∃ c ∈ s.custody, CustodyRow.pendingFor s.window r.account r.instrument
      (decide (r.side = kSideBuy)) (s.window k) c ≠ 0 := by
    by_contra hnone
    push Not at hnone
    refine hsome.ne' (List.sum_eq_zero fun x hx => ?_)
    obtain ⟨c, hc, rfl⟩ := List.mem_map.mp hx
    exact hnone c hc
  have hown : c.account = r.account ∧ c.instrument = r.instrument := by
    by_contra hother
    exact hne (if_neg hother)
  refine ⟨c, hc, hown.1, hown.2, fun sel => ?_⟩
  rw [hbucket c hc _ k hk0, hown.1, hown.2, hk]
  exact hle sel

section Decide

instance (num den : UInt32) (c : CustodyRow) : Decidable (c.KeepsPending num den) :=
  decidable_of_iff ((∀ k, scaledTotal (c.pendingBuy k) num den = (c.pendingBuy k).toInt) ∧
      ∀ k, scaledTotal (c.pendingSell k) num den = (c.pendingSell k).toInt)
    ⟨fun h => ⟨h.1, h.2⟩, fun h => ⟨h.buy, h.sell⟩⟩

instance (s : PartitionState) (c : CustodyRow) (doc : UInt64) (id : UInt32) :
    Decidable (s.MayHold c doc id) :=
  decidable_of_iff ((s.holderOf c).all (fun d => decide (d = doc)) = true ∧
      s.instrumentKeys[c.instrument]?.all (fun k => decide (k = instrumentKey id)) = true) <| by
    simp [MayHold, Option.all_eq_true]

instance (e : CorporateActionApplied) (s : PartitionState) : Decidable (e.Rescales s) :=
  inferInstanceAs (Decidable (_ ∧ _))

instance (e : TradeSettled) (s : PartitionState) : Decidable (e.RefillsQty s) :=
  inferInstanceAs (Decidable (_ ∧ _ ∧ _))

instance (s : PartitionState) : ∀ x : Event, Decidable (x.Unbalances s)
  | .tradeSettled e => inferInstanceAs (Decidable (e.RefillsQty s))
  | .corporateActionApplied e => inferInstanceAs (Decidable (e.Rescales s))
  | .dayOpened _ | .tradeExecuted _ | .tradeAllocated _ | .batchNetted _ | .dividendPaid _
  | .closingPriceSet _ | .custodyReconciled _ _ | .eodMarked _ => inferInstanceAs (Decidable False)

end Decide

/-- Two shares for one, of the position of `boughtOne`. -/
def splitInTwo : Event := .corporateActionApplied ⟨1, 1, 0, 0, 0, 0, 1, 20260901, 2, 1, 2, 0⟩

/-- The settlement of the purchase of `boughtDear`. -/
def delivery : Event := .tradeSettled ⟨1, 10000, -1, 0, 1, 20260903, 1, 1⟩

/-- A purchase up to its netting. -/
def nettedPurchase : List Event :=
  [.closingPriceSet quoted, .dayOpened firstDay, .tradeExecuted boughtDear,
    .tradeAllocated ⟨1, 1, 1, 10000, 0, 20260903, 1⟩, .batchNetted ⟨1, -1, 20260903, 1⟩]

/-- A purchase that is executed, netted and delivered. -/
theorem pendingQty_of_session_delivered :
    ∃ s₀ arena₀ s steps, blank.init ⟨2 ^ 16, 0, false, false⟩ 1 ⟨2, 2, 2, 2, 2, 2, 2, 2, 60⟩ =
        .ok (true, s₀, arena₀) ∧ Session s₀ steps s ∧ (∀ x ∈ steps, x.st = .kOk) ∧
      (∀ c ∈ s.custody, ∀ k, s.window k ≠ 0 →
        (c.pendingBuy k).toInt = s.owedQty c.account c.instrument true (s.window k) ∧
          (c.pendingSell k).toInt = s.owedQty c.account c.instrument false (s.window k)) := by
  -- a split after the delivery, and another purchase after the split
  obtain ⟨s₀, arena₀, s, steps, hinit, h, hsteps, -⟩ := @exists_of_passes
    ⟨2, 2, 2, 2, 2, 2, 2, 2, 60⟩
    (nettedPurchase ++ [delivery, splitInTwo, .tradeExecuted { boughtDear with tradeId := 2 }])
    (fun x => decide (x.st = .kOk ∧ x.OnCalendar threeDays ∧
      (x.Meets fun s y => y.Faithful s) ∧ x.Meets fun s y => ¬ y.Unbalances s))
    (fun _ => true) (by decide +kernel)
  replace hsteps := fun x hx => of_decide_eq_true (hsteps x hx)
  exact ⟨s₀, arena₀, s, steps, hinit, h, fun x hx => (hsteps x hx).1,
    (pendingQty_of_session threeDays hinit h (fun x hx => (hsteps x hx).2.1)
      (fun x hx => (hsteps x hx).2.2.1) fun x hx => (hsteps x hx).2.2.2).1⟩

/-- After a split of two for one the bucket has twice the quantity of the trade. -/
theorem not_forall_pendingQty :
    ¬ ∀ (cal : Calendar) (arena arena₀ : Arena) (pid : UInt16) (c : PartitionCapacity)
        (s₀ s : PartitionState) (steps : List Step),
          blank.init arena pid c = .ok (true, s₀, arena₀) →
      Session s₀ steps s → (∀ x ∈ steps, x.OnCalendar cal) →
      (∀ x ∈ steps, x.Meets fun s y => y.Faithful s) →
      ∀ c ∈ s.custody, ∀ k, s.window k ≠ 0 →
        (c.pendingBuy k).toInt = s.owedQty c.account c.instrument true (s.window k) ∧
          (c.pendingSell k).toInt = s.owedQty c.account c.instrument false (s.window k) := by
  intro hall
  obtain ⟨s₀, arena₀, s, steps, hinit, h, hsteps, hend⟩ := @exists_of_passes
    ⟨2, 2, 2, 2, 2, 2, 2, 2, 60⟩ (nettedPurchase ++ [splitInTwo])
    (fun x => decide (x.OnCalendar threeDays ∧ x.Meets fun s y => y.Faithful s))
    (fun s => decide (s.window 2 = 20260903 ∧ (s.custody[0]?).map
      (fun c : CustodyRow => ((c.pendingBuy 2).toInt, c.account, c.instrument)) =
        some (20000, 0, 0) ∧ s.owedQty 0 0 true 20260903 = 10000))
    (by decide +kernel)
  replace hsteps := fun x hx => of_decide_eq_true (hsteps x hx)
  obtain ⟨hwin, hpend, howed⟩ := of_decide_eq_true hend
  obtain ⟨c, hc, heq⟩ := Option.map_eq_some_iff.mp hpend
  obtain ⟨hbucket, hacct, hinst⟩ : (c.pendingBuy 2).toInt = 20000 ∧ c.account = 0 ∧
      c.instrument = 0 := by simpa using heq
  have hboth := (hall threeDays _ _ _ _ _ _ _ hinit h (fun x hx => (hsteps x hx).1)
    (fun x hx => (hsteps x hx).2) c (List.mem_of_getElem? hc) 2 (by rw [hwin]; decide)).1
  rw [hwin, hacct, hinst, howed, hbucket] at hboth
  cases hboth

end MotorRv
