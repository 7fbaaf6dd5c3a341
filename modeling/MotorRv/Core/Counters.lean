import MotorRv.Base.Scaling
import MotorRv.Core.Records
import MotorRv.Core.Rows

/-!
# The two counters of a position

What the investor owns today and what is projected once everything pending settles are sums over
seven buckets each. An event moves quantity between buckets; here the two sums are followed as plain
counters, and only the events that buy, sell, settle or act on a position move them.

For each kind of event the change of a counter is a definition of its own (`Event.todayChange`,
`Event.projectedChange`), in terms of the event and the rows before it, and not by comparing the
rows before and after. A split rescales bucket by bucket: each scaled quantity is truncated by
itself and the fractions of what is owned go to the leftovers, so the counter becomes the sum of the
scaled buckets and not the scaled sum. A bonus adds the whole shares and the fraction.

`counters_of_run` says that these are the changes, from any state that a run has come to, for events
that are accepted and, with change zero, for those that are rejected.
-/

namespace MotorRv

open Lib PartitionState Apply

namespace CustodyRow

/-- The quantity of invariant I13: the position once everything pending has settled. -/
def custodyProjected (c : CustodyRow) : Exec Raw :=
  sumRaw c.available [c.blocked, c.leftovers, c.overdueBuy, c.pendingBuy 0, c.pendingBuy 1,
    c.pendingBuy 2]

/-- `custodyToday` as a number. -/
def today (c : CustodyRow) : ℤ :=
  c.available.toInt + c.blocked.toInt + c.leftovers.toInt + c.overdueSell.toInt +
    slotSum c.pendingSell

/-- `custodyProjected` as a number. -/
def projected (c : CustodyRow) : ℤ :=
  c.available.toInt + c.blocked.toInt + c.leftovers.toInt + c.overdueBuy.toInt +
    slotSum c.pendingBuy

/-- The buckets that `today` adds up. -/
def todayBuckets (c : CustodyRow) : List Raw :=
  [c.available, c.blocked, c.leftovers, c.overdueSell, c.pendingSell 0, c.pendingSell 1,
    c.pendingSell 2]

/-- The buckets that `projected` adds up. -/
def projectedBuckets (c : CustodyRow) : List Raw :=
  [c.available, c.blocked, c.leftovers, c.overdueBuy, c.pendingBuy 0, c.pendingBuy 1,
    c.pendingBuy 2]

theorem sumRaw_eq_ok {xs : List Raw} : ∀ {acc r : Raw}, sumRaw acc xs = .ok r →
    r.toInt = acc.toInt + (xs.map Int64.toInt).sum := by
  induction xs with
  | nil =>
    intro acc r h
    obtain rfl := Except.ok.inj h
    simp
  | cons x xs ih =>
    intro acc r h
    simp only [sumRaw, bind, except_bind_eq_ok] at h
    obtain ⟨acc', hadd, h⟩ := h
    rw [ih h, Fixed.add_eq_ok hadd, List.map_cons, List.sum_cons]
    omega

/-- The sum of the code is the custody of today. -/
theorem custodyToday_eq_ok {c : CustodyRow} {r : Raw} (h : c.custodyToday = .ok r) :
    r.toInt = c.today := by
  rw [sumRaw_eq_ok h]
  simp only [List.map_cons, List.map_nil, List.sum_cons, List.sum_nil, today, slotSum]
  omega

/-- The other sum of the code is what is projected. -/
theorem custodyProjected_eq_ok {c : CustodyRow} {r : Raw} (h : c.custodyProjected = .ok r) :
    r.toInt = c.projected := by
  rw [sumRaw_eq_ok h]
  simp only [List.map_cons, List.map_nil, List.sum_cons, List.sum_nil, projected, slotSum]
  omega

/-! ### Rotation -/

/-- A slot of the old window goes somewhere, whole. -/
theorem counters_rotateCustodySlot {old new : SettlementWindow} {k : Fin 3}
    {c acc c' : CustodyRow} (h : rotateCustodySlot old new c acc k = .ok c') :
    c'.today = acc.today + (c.pendingSell k).toInt ∧
      c'.projected = acc.projected + (c.pendingBuy k).toInt := by
  unfold rotateCustodySlot at h
  split_ifs at h with hzero
  · obtain rfl := Except.ok.inj h
    rw [hzero.1, hzero.2, Int64.toInt_zero, add_zero, add_zero]
    exact ⟨rfl, rfl⟩
  · split at h
    · simp only [bind, except_bind_eq_ok] at h
      obtain ⟨b, hb, v, hv, h⟩ := h
      obtain rfl := Except.ok.inj h
      have := Fixed.add_eq_ok hb
      have := Fixed.add_eq_ok hv
      constructor
      · simp only [today]
        omega
      · simp only [projected]
        omega
    · simp only [bind, except_bind_eq_ok] at h
      obtain ⟨b, hb, v, hv, h⟩ := h
      obtain rfl := Except.ok.inj h
      have := Fixed.add_eq_ok hb
      have := Fixed.add_eq_ok hv
      constructor
      · simp only [today, slotSum_setSlot]
        omega
      · simp only [projected, slotSum_setSlot]
        omega

/-- The rotation leaves both counters of a position. -/
theorem counters_rotateCustody {old new : SettlementWindow} {c c' : CustodyRow}
    (h : rotateCustody old new c = .ok c') : c'.today = c.today ∧ c'.projected = c.projected := by
  unfold rotateCustody at h
  split_ifs at h
  · obtain rfl := Except.ok.inj h
    exact ⟨rfl, rfl⟩
  · simp only [bind, except_bind_eq_ok] at h
    obtain ⟨c₁, h₁, c₂, h₂, h₃⟩ := h
    obtain ⟨t₁, p₁⟩ := counters_rotateCustodySlot h₁
    obtain ⟨t₂, p₂⟩ := counters_rotateCustodySlot h₂
    obtain ⟨t₃, p₃⟩ := counters_rotateCustodySlot h₃
    simp only [today, projected, slotSum, Int64.toInt_zero] at *
    constructor
    · omega
    · omega

end CustodyRow

/-! ### The counters -/

/-- A purchase brings shares, a sale takes them. -/
def signedQty (side : UInt8) (qty : Raw) : ℤ := if side = kSideBuy then qty.toInt else -qty.toInt

/-- The quantity that a settlement brings to what is owned today. -/
def TradeSettled.todayChange (e : TradeSettled) : ℤ :=
  match SettleOutcome.ofCode e.outcome with
  | some .settled | some .boughtIn => signedQty e.side e.qty
  | _ => 0

/-- What a factor makes of buckets: each is scaled by itself. -/
def CorporateActionApplied.rescale (e : CorporateActionApplied) (buckets : List Raw) : ℤ :=
  (buckets.map fun q => scaledTotal q e.factorNum e.factorDen - q.toInt).sum

/-- A bonus on a position: the whole shares beyond what it holds today, and the fraction. -/
def CorporateActionApplied.bonusOn (e : CorporateActionApplied) (c : CustodyRow) : ℤ :=
  wholeShares (Int64.ofInt c.today) e.factorNum e.factorDen - c.today +
    fraction (Int64.ofInt c.today) e.factorNum e.factorDen

/-- The change by a corporate action of the counter that adds up some buckets. -/
def CorporateActionApplied.change (e : CorporateActionApplied) (buckets : List Raw)
    (c : CustodyRow) : ℤ :=
  match ActionType.ofCode e.type with
  | some .bonus => e.bonusOn c
  | some .subscription => e.qtyDelta.toInt
  | some .leftoversAuction => -c.leftovers.toInt
  | some .split | some .reverseSplit => e.rescale buckets
  | none => 0

/-- The change of what a position holds today by an accepted event; `s'` is the state after it. -/
def Event.todayChange (s' : PartitionState) (c : CustodyRow) : Event → ℤ
  | .tradeSettled e => if s'.IsHeld c e.account e.instrument then e.todayChange else 0
  | .corporateActionApplied e =>
    if s'.IsHeld c e.account e.instrument then e.change c.todayBuckets c else 0
  | _ => 0

/-- The change of what is projected by an allocation: out of one account, into the other. -/
def TradeAllocated.projectedChange (e : TradeAllocated) (s s' : PartitionState) (c : CustodyRow) :
    ℤ :=
  match s.tradeOf e.tradeId with
  | some r =>
    if e.fromAccount = e.toAccount ∨ c.instrument ≠ r.instrument then 0
    else if s'.holderOf c = some e.fromAccount then -signedQty e.side e.qty
    else if s'.holderOf c = some e.toAccount then signedQty e.side e.qty
    else 0
  | none => 0

/-- The change of what is projected for a position by an accepted event. -/
def Event.projectedChange (s s' : PartitionState) (c : CustodyRow) : Event → ℤ
  | .tradeExecuted e =>
    if s'.IsHeld c e.account e.instrument then signedQty e.side e.qty else 0
  | .tradeAllocated e => e.projectedChange s s' c
  | .corporateActionApplied e =>
    if s'.IsHeld c e.account e.instrument then e.change c.projectedBuckets c else 0
  | _ => 0

/-! ### Rows -/

section Rows

variable {c c' : CustodyRow}

theorem counters_executeCustody {e : TradeExecuted} {k : Fin 3}
    (h : executeCustody e k c = .ok c') : c'.today = c.today ∧ c'.projected = c.projected +
      signedQty e.side e.qty := by
  by_cases hside : e.side = kSideBuy
  · rw [signedQty, if_pos hside]
    simp only [executeCustody, if_pos hside, bind, except_bind_eq_ok] at h
    obtain ⟨b, hb, h⟩ := h
    obtain rfl := Except.ok.inj h
    have := Fixed.add_eq_ok hb
    refine ⟨rfl, ?_⟩
    simp only [CustodyRow.projected, slotSum_setSlot]
    omega
  · rw [signedQty, if_neg hside]
    simp only [executeCustody, if_neg hside, bind, except_bind_eq_ok] at h
    obtain ⟨av, hav, v, hv, h⟩ := h
    obtain rfl := Except.ok.inj h
    have := Fixed.sub_eq_ok hav
    have := Fixed.add_eq_ok hv
    constructor <;> simp only [CustodyRow.today, CustodyRow.projected, slotSum_setSlot] <;> omega

theorem counters_allocateFrom {e : TradeAllocated} {k : Fin 3}
    (h : allocateFrom e k c = .ok c') : c'.today = c.today ∧ c'.projected = c.projected -
      signedQty e.side e.qty := by
  unfold allocateFrom at h
  unfold signedQty
  split_ifs at h ⊢
  · simp only [bind, except_bind_eq_ok] at h
    obtain ⟨b, hb, h⟩ := h
    obtain rfl := Except.ok.inj h
    have := Fixed.sub_eq_ok hb
    refine ⟨rfl, ?_⟩
    simp only [CustodyRow.projected, slotSum_setSlot]
    omega
  · simp only [bind, except_bind_eq_ok] at h
    obtain ⟨v, hv, av, hav, h⟩ := h
    obtain rfl := Except.ok.inj h
    have := Fixed.sub_eq_ok hv
    have := Fixed.add_eq_ok hav
    constructor <;> simp only [CustodyRow.today, CustodyRow.projected, slotSum_setSlot] <;> omega

theorem counters_allocateTo {e : TradeAllocated} {k : Fin 3}
    (h : allocateTo e k c = .ok c') : c'.today = c.today ∧ c'.projected = c.projected +
      signedQty e.side e.qty := by
  unfold allocateTo at h
  unfold signedQty
  split_ifs at h ⊢
  · simp only [bind, except_bind_eq_ok] at h
    obtain ⟨b, hb, h⟩ := h
    obtain rfl := Except.ok.inj h
    have := Fixed.add_eq_ok hb
    refine ⟨rfl, ?_⟩
    simp only [CustodyRow.projected, slotSum_setSlot]
    omega
  · simp only [bind, except_bind_eq_ok] at h
    obtain ⟨v, hv, av, hav, h⟩ := h
    obtain rfl := Except.ok.inj h
    have := Fixed.add_eq_ok hv
    have := Fixed.sub_eq_ok hav
    constructor <;> simp only [CustodyRow.today, CustodyRow.projected, slotSum_setSlot] <;> omega

theorem counters_settleCustody {e : TradeSettled} {k : Fin 3}
    (h : settleCustody e k c = .ok c') : c'.today = c.today +
      signedQty e.side e.qty ∧ c'.projected = c.projected := by
  unfold settleCustody at h
  unfold signedQty
  split_ifs at h ⊢
  · simp only [bind, except_bind_eq_ok] at h
    obtain ⟨base, -, avg, -, b, hb, av, hav, h⟩ := h
    obtain rfl := Except.ok.inj h
    have := Fixed.sub_eq_ok hb
    have := Fixed.add_eq_ok hav
    constructor <;> simp only [CustodyRow.today, CustodyRow.projected, slotSum_setSlot] <;> omega
  · simp only [bind, except_bind_eq_ok] at h
    obtain ⟨v, hv, h⟩ := h
    obtain rfl := Except.ok.inj h
    have := Fixed.sub_eq_ok hv
    refine ⟨?_, rfl⟩
    simp only [CustodyRow.today, slotSum_setSlot]
    omega

theorem counters_failCustody {e : TradeSettled} {k : Fin 3} (h : failCustody e k c = .ok c') :
    c'.today = c.today ∧ c'.projected = c.projected := by
  unfold failCustody at h
  split_ifs at h
  · simp only [bind, except_bind_eq_ok] at h
    obtain ⟨b, hb, o, ho, h⟩ := h
    obtain rfl := Except.ok.inj h
    have := Fixed.sub_eq_ok hb
    have := Fixed.add_eq_ok ho
    refine ⟨rfl, ?_⟩
    simp only [CustodyRow.projected, slotSum_setSlot]
    omega
  · simp only [bind, except_bind_eq_ok] at h
    obtain ⟨v, hv, o, ho, h⟩ := h
    obtain rfl := Except.ok.inj h
    have := Fixed.sub_eq_ok hv
    have := Fixed.add_eq_ok ho
    refine ⟨?_, rfl⟩
    simp only [CustodyRow.today, slotSum_setSlot]
    omega

theorem counters_buyInCustody {e : TradeSettled} (h : buyInCustody e c = .ok c') :
    c'.today = c.today + signedQty e.side e.qty ∧
      c'.projected = c.projected := by
  unfold buyInCustody at h
  unfold signedQty
  split_ifs at h ⊢
  · simp only [bind, except_bind_eq_ok] at h
    obtain ⟨o, ho, av, hav, h⟩ := h
    obtain rfl := Except.ok.inj h
    have := Fixed.sub_eq_ok ho
    have := Fixed.add_eq_ok hav
    constructor <;> simp only [CustodyRow.today, CustodyRow.projected] <;> omega
  · simp only [bind, except_bind_eq_ok] at h
    obtain ⟨o, ho, h⟩ := h
    obtain rfl := Except.ok.inj h
    have := Fixed.sub_eq_ok ho
    refine ⟨?_, rfl⟩
    simp only [CustodyRow.today]
    omega

theorem counters_outcome {w : SettlementWindow} {e : TradeSettled} {a a' : AccountRow}
    {outcome : SettleOutcome} (hout : SettleOutcome.ofCode e.outcome = some outcome)
    (h : Outcome w e c a outcome c' a') :
    c'.today = c.today + e.todayChange ∧ c'.projected = c.projected := by
  simp only [TradeSettled.todayChange, hout]
  cases h with
  | settled _ _ hc _ => exact counters_settleCustody hc
  | deliveryFailure _ _ hc _ =>
    obtain ⟨ht, hp⟩ := counters_failCustody hc
    exact ⟨by rw [ht, add_zero], hp⟩
  | boughtIn _ hc _ => exact counters_buyInCustody hc

/-- What a split leaves in the leftovers: they are scaled, and the fractions of what is owned join
them. -/
def CorporateActionApplied.splitLeftovers (num den : UInt32) (c : CustodyRow) : ℤ :=
  scaledTotal c.leftovers num den + (fraction c.available num den + fraction c.blocked num den)

/-- The position after a split, bucket by bucket. -/
structure SplitOf (num den : UInt32) (c c' : CustodyRow) : Prop where
  available : c'.available.toInt = wholeShares c.available num den
  blocked : c'.blocked.toInt = wholeShares c.blocked num den
  leftovers : c'.leftovers.toInt = CorporateActionApplied.splitLeftovers num den c
  overdueBuy : c'.overdueBuy.toInt = scaledTotal c.overdueBuy num den
  overdueSell : c'.overdueSell.toInt = scaledTotal c.overdueSell num den
  pendingBuy : ∀ k, (c'.pendingBuy k).toInt = scaledTotal (c.pendingBuy k) num den
  pendingSell : ∀ k, (c'.pendingSell k).toInt = scaledTotal (c.pendingSell k) num den
  avgPrice : scalePriceHalfEven c.avgPrice num den = .ok c'.avgPrice
  flags : c'.flags = c.flags

theorem splitOf_of_splitCustody {num den : UInt32} (h : splitCustody num den c = .ok c') :
    SplitOf num den c c' := by
  simp only [splitCustody, bind, except_bind_eq_ok] at h
  obtain ⟨⟨av, s₁⟩, hav, ⟨bl, s₂⟩, hbl, rest, hrest, ob, hob, os, hos, b0, hb0, b1, hb1, b2, hb2,
    v0, hv0, v1, hv1, v2, hv2, ⟨whole, s₃⟩, hwhole, left, hleft, lo, hlo, avg, havg, h⟩ := h
  obtain rfl := Except.ok.inj h
  obtain ⟨hav, hs₁⟩ := toInt_scaleQtyTrunc hav
  obtain ⟨hbl, hs₂⟩ := toInt_scaleQtyTrunc hbl
  obtain ⟨hwhole, hs₃⟩ := toInt_scaleQtyTrunc hwhole
  obtain ⟨-, -, hsum, -, -⟩ := scaledTotal_split c.leftovers num den
  exact
    { available := hav
      blocked := hbl
      leftovers := by
        rw [Fixed.add_eq_ok hlo, Fixed.add_eq_ok hleft, Fixed.add_eq_ok hrest, hwhole, hs₁, hs₂,
          hs₃, hsum]
        rfl
      overdueBuy := toInt_scaleQtyKeepFraction hob
      overdueSell := toInt_scaleQtyKeepFraction hos
      pendingBuy := by
        intro k
        fin_cases k
        · exact toInt_scaleQtyKeepFraction hb0
        · exact toInt_scaleQtyKeepFraction hb1
        · exact toInt_scaleQtyKeepFraction hb2
      pendingSell := by
        intro k
        fin_cases k
        · exact toInt_scaleQtyKeepFraction hv0
        · exact toInt_scaleQtyKeepFraction hv1
        · exact toInt_scaleQtyKeepFraction hv2
      avgPrice := havg
      flags := rfl }

/-- A split takes fractions from one bucket of a counter to another, so that each counter is
rescaled bucket by bucket. -/
theorem counters_splitCustody {e : CorporateActionApplied}
    (h : splitCustody e.factorNum e.factorDen c = .ok c') :
    c'.today = c.today + e.rescale c.todayBuckets ∧
      c'.projected = c.projected + e.rescale c.projectedBuckets := by
  have hsplit := splitOf_of_splitCustody h
  obtain ⟨-, -, hav, -, -⟩ := scaledTotal_split c.available e.factorNum e.factorDen
  obtain ⟨-, -, hbl, -, -⟩ := scaledTotal_split c.blocked e.factorNum e.factorDen
  have hleft := hsplit.leftovers
  unfold CorporateActionApplied.splitLeftovers at hleft
  simp only [CorporateActionApplied.rescale, CustodyRow.todayBuckets, CustodyRow.projectedBuckets,
    CustodyRow.today, CustodyRow.projected, slotSum, List.map_cons, List.map_nil, List.sum_cons,
    List.sum_nil, hsplit.available, hsplit.blocked, hleft, hsplit.overdueBuy, hsplit.overdueSell,
    hsplit.pendingBuy, hsplit.pendingSell]
  constructor
  · omega
  · omega

theorem counters_actsOn {e : CorporateActionApplied} {base : Raw} {type : ActionType}
    (htype : ActionType.ofCode e.type = some type) (hbase : c.custodyToday = .ok base)
    (h : ActsOn e base c type c') : c'.today = c.today + e.change c.todayBuckets c ∧
      c'.projected = c.projected + e.change c.projectedBuckets c := by
  simp only [CorporateActionApplied.change, htype]
  cases h with
  | split h => exact counters_splitCustody h
  | reverseSplit h => exact counters_splitCustody h
  | bonus hscale hwhole _ h =>
    have hheld : Int64.ofInt c.today = base := by
      rw [← CustodyRow.custodyToday_eq_ok hbase, Int64.ofInt_toInt]
    obtain ⟨htotal, hrest⟩ := toInt_scaleQtyTrunc hscale
    simp only [bonusCustody, bind, except_bind_eq_ok] at h
    obtain ⟨_, -, _, -, av, hav, lo, hlo, h⟩ := h
    obtain rfl := Except.ok.inj h
    have hbonus : e.bonusOn c = wholeShares base e.factorNum e.factorDen - base.toInt +
        fraction base e.factorNum e.factorDen := by
      rw [CorporateActionApplied.bonusOn, hheld, CustodyRow.custodyToday_eq_ok hbase]
    have := Fixed.sub_eq_ok hwhole
    have := Fixed.add_eq_ok hav
    have := Fixed.add_eq_ok hlo
    constructor <;> simp only [CustodyRow.today, CustodyRow.projected] <;> omega
  | subscription _ h =>
    simp only [subscriptionCustody, bind, except_bind_eq_ok] at h
    obtain ⟨_, -, av, hav, h⟩ := h
    obtain rfl := Except.ok.inj h
    have := Fixed.add_eq_ok hav
    constructor <;> simp only [CustodyRow.today, CustodyRow.projected] <;> omega
  | auction =>
    constructor <;> simp only [CustodyRow.today, CustodyRow.projected, Int64.toInt_zero] <;> omega

/-- The counters of a row that is not named stay. -/
theorem changes_of_not_named {s s' : PartitionState} {x : Event}
    (h : ¬ x.NamesPosition s s' c) : x.todayChange s' c = 0 ∧ x.projectedChange s s' c = 0 := by
  cases x with
  | tradeExecuted e => exact ⟨rfl, if_neg h⟩
  | tradeSettled e => exact ⟨if_neg h, rfl⟩
  | corporateActionApplied e => exact ⟨if_neg h, if_neg h⟩
  | tradeAllocated e =>
    refine ⟨rfl, ?_⟩
    simp only [Event.projectedChange, TradeAllocated.projectedChange]
    split
    · rename_i r hr
      split_ifs with hout hfrom hto
      · rfl
      · exact absurd ⟨fun heq => hout (.inl heq), .inl hfrom, r, hr,
          not_not.mp fun hne => hout (.inr hne)⟩ h
      · exact absurd ⟨fun heq => hout (.inl heq), .inr hto, r, hr,
          not_not.mp fun hne => hout (.inr hne)⟩ h
      · rfl
    · rfl
  | _ => exact ⟨rfl, rfl⟩

/-- A step of a row is a step of its two counters. -/
theorem CustodyStep.counters {s s' : PartitionState} {x : Event} (h : CustodyStep s s' x c c') :
    c'.today = c.today + x.todayChange s' c ∧
      c'.projected = c.projected + x.projectedChange s s' c := by
  cases h with
  | same hno =>
    obtain ⟨ht, hp⟩ := changes_of_not_named hno
    rw [ht, hp, add_zero, add_zero]
    exact ⟨rfl, rfl⟩
  | rotated h =>
    obtain ⟨ht, hp⟩ := CustodyRow.counters_rotateCustody h
    exact ⟨ht.trans (add_zero _).symm, hp.trans (add_zero _).symm⟩
  | executed hheld _ _ _ h =>
    obtain ⟨ht, hp⟩ := counters_executeCustody h
    refine ⟨ht.trans (add_zero _).symm, hp.trans ?_⟩
    simp only [Event.projectedChange, if_pos hheld]
  -- an allocation moves a quantity between the projected counters of two positions
  | allocatedFrom ht hne howner hinst _ _ _ h =>
    obtain ⟨htoday, hp⟩ := counters_allocateFrom h
    refine ⟨htoday.trans (add_zero _).symm, hp.trans ?_⟩
    simp only [Event.projectedChange, TradeAllocated.projectedChange, ht]
    rw [if_neg (by simp [hne, hinst]), if_pos howner]
    exact sub_eq_add_neg _ _
  | allocatedTo ht hne howner hinst _ _ _ h =>
    obtain ⟨htoday, hp⟩ := counters_allocateTo h
    refine ⟨htoday.trans (add_zero _).symm, hp.trans ?_⟩
    simp only [Event.projectedChange, TradeAllocated.projectedChange, ht]
    rw [if_neg (by simp [hne, hinst]), if_neg (by
      rw [howner]
      exact fun heq => hne (Option.some.inj heq).symm), if_pos howner]
  | settled hheld hout h =>
    obtain ⟨ht, hp⟩ := counters_outcome hout h
    refine ⟨ht.trans ?_, hp.trans (add_zero _).symm⟩
    simp only [Event.todayChange, if_pos hheld]
  | acted hheld htype _ hbase h =>
    obtain ⟨ht, hp⟩ := counters_actsOn htype hbase h
    simp only [Event.todayChange, Event.projectedChange, if_pos hheld]
    exact ⟨ht, hp⟩

end Rows

/-! ### Runs -/

/-- The changes of an event that is accepted or rejected. -/
theorem counters_apply {s : PartitionState} (hs : s.Sound) {o : Option Outbox} {ev : EventView}
    {st : Status} {e : Engine} (h : apply ⟨s, o⟩ ev = .ok (st, e)) (hst : st.isFatal = false) :
    s.custody.length ≤ e.s.custody.length ∧ ∀ p c', e.s.custody[p]? = some c' →
      (c'.account = (s.rowBefore p c').account ∧
        c'.instrument = (s.rowBefore p c').instrument) ∧
      c'.today = (s.rowBefore p c').today + (if st.isOk then
        ((LogRecord.event ev).map (Event.todayChange e.s (s.rowBefore p c'))).getD 0 else 0) ∧
      c'.projected = (s.rowBefore p c').projected + (if st.isOk then
        ((LogRecord.event ev).map (Event.projectedChange s e.s (s.rowBefore p c'))).getD 0
        else 0) := by
  obtain ⟨s', hs', ⟨rfl, x, hx, heff⟩ | hend⟩ := apply_cases hs h
  · rw [hs', hx]
    refine ⟨heff.custody_length, fun p c' hc' => ?_⟩
    have hstep := heff.custodyStep hs hc'
    exact ⟨hstep.owner, hstep.counters⟩
  · obtain ⟨t, hkept⟩ := hend.kept hst
    rw [hs', hend.isOk_eq_false]
    refine ⟨?_, fun p c' hc' => ?_⟩
    · obtain ⟨new, hnew, -⟩ := hkept.custody
      change _ ≤ s'.custody.length
      rw [hnew, List.length_append]
      exact Nat.le_add_right _ _
    · have hrow : s.rowBefore p c' = c' := hkept.rowBefore_eq hc'
      rw [hrow]
      exact ⟨⟨rfl, rfl⟩, (add_zero _).symm, (add_zero _).symm⟩

/-- **The two counters.** Wherever a run has come to, the next event, accepted or rejected, changes
what each position holds today and what is projected for it by the amounts of `todayChange` and
`projectedChange`, and by nothing else. -/
theorem counters_of_run {arena arena₀ : Arena} {pid : UInt16} {c : PartitionCapacity}
    {s₀ : PartitionState} (hinit : blank.init arena pid c = .ok (true, s₀, arena₀))
    {evs : List (EventView × Option Outbox)} {sts : List Status} {s : PartitionState}
    (hrun : applyAll s₀ evs = .ok (sts, s))
    {o : Option Outbox} {ev : EventView} {st : Status} {e : Engine}
    (h : apply ⟨s, o⟩ ev = .ok (st, e)) (hst : st.isFatal = false) :
    s.custody.length ≤ e.s.custody.length ∧ ∀ p c', e.s.custody[p]? = some c' →
      (c'.account = (s.rowBefore p c').account ∧
        c'.instrument = (s.rowBefore p c').instrument) ∧
      c'.today = (s.rowBefore p c').today + (if st.isOk then
        ((LogRecord.event ev).map (Event.todayChange e.s (s.rowBefore p c'))).getD 0 else 0) ∧
      c'.projected = (s.rowBefore p c').projected + (if st.isOk then
        ((LogRecord.event ev).map (Event.projectedChange s e.s (s.rowBefore p c'))).getD 0
        else 0) :=
  counters_apply (sound_applyAll (sound_init hinit) hrun) h hst

/-- Two and a half shares become three, and three quarters of one among the leftovers: what is held
today is rescaled bucket by bucket. -/
theorem counters_of_run_split :
    ∃ (s₀ : PartitionState) (arena₀ : Arena) (s : PartitionState) (sts : List Status) (e : Engine)
      (c' : CustodyRow),
      blank.init ⟨2 ^ 16, 0, false, false⟩ 1 ⟨2, 2, 2, 2, 2, 2, 2, 2, 60⟩ = .ok (true, s₀, arena₀) ∧
      applyAll s₀ (feed twoAndAHalf) = .ok (sts, s) ∧
      apply ⟨s, none⟩ ((Event.corporateActionApplied threeForTwo).record 5) = .ok (.kOk, e) ∧
      e.s.custody[0]? = some c' ∧ c'.available = 300000000 ∧ c'.leftovers = 75000000 ∧
      (s.rowBefore 0 c').today = 250000000 ∧
      c'.today = (s.rowBefore 0 c').today +
        threeForTwo.rescale (s.rowBefore 0 c').todayBuckets := by
  obtain ⟨s₀, arena₀, s, sts, e, c', hinit, hrun, happ, hc', hav, hlo, hbefore, hheld⟩ :
      ∃ s₀ arena₀ s sts e c',
        blank.init ⟨2 ^ 16, 0, false, false⟩ 1 ⟨2, 2, 2, 2, 2, 2, 2, 2, 60⟩ =
          .ok (true, s₀, arena₀) ∧
        applyAll s₀ (feed twoAndAHalf) = .ok (sts, s) ∧
        apply ⟨s, none⟩ ((Event.corporateActionApplied threeForTwo).record 5) = .ok (.kOk, e) ∧
        e.s.custody[0]? = some c' ∧ c'.available = 300000000 ∧ c'.leftovers = 75000000 ∧
        (s.rowBefore 0 c').today = 250000000 ∧ e.s.IsHeld (s.rowBefore 0 c') 1 1 :=
    ⟨_, _, _, _, _, _, rfl, rfl, rfl, rfl, rfl, rfl, rfl, by decide⟩
  have hchange := ((counters_of_run hinit hrun happ rfl).2 0 c' hc').2.1
  have hfits : Event.Fits (.corporateActionApplied threeForTwo) := trivial
  rw [if_pos (show Status.kOk.isOk = true from rfl), LogRecord.event_record hfits] at hchange
  simp only [Option.map_some, Option.getD_some, Event.todayChange] at hchange
  rw [if_pos (show e.s.IsHeld _ threeForTwo.account threeForTwo.instrument from hheld)] at hchange
  exact ⟨s₀, arena₀, s, sts, e, c', hinit, hrun, happ, hc', hav, hlo, hbefore, hchange⟩

end MotorRv
