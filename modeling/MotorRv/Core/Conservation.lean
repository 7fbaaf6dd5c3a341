import MotorRv.Core.EffectsOf
import MotorRv.Core.Records

/-!
# Conservation of money

Money is in one of four kinds of places: cash, pending for one of the dates of the window, overdue,
or receivable. Events move it between these places and between accounts; what comes in or goes out
is the flow that an accepted event declares, and the total over all accounts is the sum of the
flows.

`AccountRow.total` adds the places up, and for each change of a row there is a lemma on what it does
to the total: nothing, for the three outcomes of a settlement and for the rotation of a day; the
amount of the flow otherwise. `Effect.money` lifts this to the tables, where an event touches one
account, except for an allocation, which takes a trade from one and gives it to another, so that the
total stays only over both.

A flow is read off the event and the state before it: an execution pays or brings its gross amount
and pays its costs, a corporate action brings what its type pays, an income counts when it is
accrued. The order of the events does not enter, since integers add up in any order and an overflow
aborts.
-/

namespace MotorRv

open Lib PartitionState Apply

/-! ### Totals -/

/-- The sum over the three slots. -/
def slotSum (f : Slots Raw) : ℤ := (f 0).toInt + (f 1).toInt + (f 2).toInt

/-- Replacing a slot moves the sum of the slots by the difference. -/
@[simp]
theorem slotSum_setSlot (f : Slots Raw) (k : Fin 3) (x : Raw) :
    slotSum (setSlot f k x) = slotSum f + (x.toInt - (f k).toInt) := by
  fin_cases k
  · simp [slotSum, setSlot]
    omega
  · simp [slotSum, setSlot]
    omega
  · simp [slotSum, setSlot]

/-- The money of an account, wherever it is. -/
def AccountRow.total (a : AccountRow) : ℤ :=
  a.cash.toInt + slotSum a.pending + a.overdue.toInt + a.incomeReceivable.toInt

/-- The money of all accounts. -/
def PartitionState.money (s : PartitionState) : ℤ := (s.accounts.map AccountRow.total).sum

/-- The money of account row `i`; there is none where there is no row. -/
def PartitionState.totalAt (s : PartitionState) (i : ℕ) : ℤ :=
  ((s.accounts[i]?).map AccountRow.total).getD 0

/-! ### Flows -/

/-- The instrument with an external id. -/
def PartitionState.instrumentOf (s : PartitionState) (id : UInt32) : Option InstrumentRow :=
  s.instruments.find? fun i => decide (i.externalId = id)

/-- The gross amount of an execution, with the price factor of its instrument. -/
def grossOf (s : PartitionState) (e : TradeExecuted) : ℤ :=
  match s.instrumentOf e.instrument with
  | some i =>
    match notionalHalfEven e.qty e.price i.priceFactor with
    | .ok gross => gross.toInt
    | .error _ => 0
  | none => 0

/-- The costs of an execution. -/
def TradeExecuted.fees (e : TradeExecuted) : ℤ :=
  e.brokerageFee.toInt + e.exchangeFee.toInt + e.clearingFee.toInt + e.taxes.toInt

/-- The money that a corporate action moves, before tax. -/
def CorporateActionApplied.flow (e : CorporateActionApplied) : ℤ :=
  match ActionType.ofCode e.type with
  | some .subscription => -e.cashDelta.toInt
  | some .leftoversAuction => e.cashDelta.toInt
  | _ => 0

/-- The external flow that an accepted event declares. -/
def Event.flow (s : PartitionState) : Event → ℤ
  | .tradeExecuted e => if e.side = kSideBuy then -(grossOf s e + e.fees) else grossOf s e - e.fees
  | .corporateActionApplied e => e.flow - e.withheldTax.toInt
  | .dividendPaid e => if e.stage = kStageAccrued then e.netAmount.toInt else 0
  | _ => 0

/-- The flows of the accepted events of a run. -/
def flows : PartitionState → List (EventView × Option Outbox) → ℤ
  | _, [] => 0
  | s, (ev, o) :: evs =>
    match apply ⟨s, o⟩ ev with
    | .ok (st, e) =>
      (if st.isOk then ((LogRecord.event ev).map (Event.flow s)).getD 0 else 0) + flows e.s evs
    | .error _ => 0

/-! ### Rows -/

/-- A sum that is given is the sum. -/
theorem checkedAdd_eq_some {a b r : Raw} (h : Fixed.checkedAdd a b = some r) :
    r.toInt = a.toInt + b.toInt := by
  unfold Fixed.checkedAdd at h
  split_ifs at h with hfit
  obtain rfl := Option.some.inj h
  have := of_decide_eq_true hfit
  exact Int64.toInt_ofInt_of_le this.1 this.2

/-- The fees that are computed are the sum of the four. -/
theorem feesOf_eq_some {e : TradeExecuted} {fees : Raw} (h : feesOf e = some fees) :
    fees.toInt = e.fees := by
  simp only [feesOf, Option.bind_eq_bind, Option.bind_eq_some_iff] at h
  obtain ⟨t₁, h₁, t₂, h₂, t₃, h₃, h₄⟩ := h
  have e₁ := checkedAdd_eq_some h₁
  have e₂ := checkedAdd_eq_some h₂
  have e₃ := checkedAdd_eq_some h₃
  have e₄ := checkedAdd_eq_some h₄
  simp only [Int64.toInt_zero] at e₁
  unfold TradeExecuted.fees
  omega

/-- The money of a trade: what it costs, or what it brings. -/
theorem tradeCash_eq_ok {e : TradeExecuted} {gross fees cash : Raw}
    (h : tradeCash e gross fees = .ok cash) :
    cash.toInt = if e.side = kSideBuy then -(gross.toInt + fees.toInt)
      else gross.toInt - fees.toInt := by
  unfold tradeCash at h
  split_ifs at h ⊢ with hside
  · simp only [bind, except_bind_eq_ok] at h
    obtain ⟨t, ht, hneg⟩ := h
    rw [Fixed.neg_eq_ok hneg, Fixed.add_eq_ok ht]
  · exact Fixed.sub_eq_ok h

namespace AccountRow

variable {a a' : AccountRow}

/-- Money that becomes pending is money. -/
theorem total_addPending {k : Fin 3} {m : Raw} (h : addPending k m a = .ok a') :
    a'.total = a.total + m.toInt := by
  simp only [addPending, bind, except_bind_eq_ok] at h
  obtain ⟨p, hp, h⟩ := h
  obtain rfl := Except.ok.inj h
  have := Fixed.add_eq_ok hp
  simp only [total, slotSum_setSlot]
  omega

/-- Money that is no longer pending is gone. -/
theorem total_subPending {k : Fin 3} {m : Raw} (h : subPending k m a = .ok a') :
    a'.total = a.total - m.toInt := by
  simp only [subPending, bind, except_bind_eq_ok] at h
  obtain ⟨p, hp, h⟩ := h
  obtain rfl := Except.ok.inj h
  have := Fixed.sub_eq_ok hp
  simp only [total, slotSum_setSlot]
  omega

/-- A settlement moves money from pending to cash. -/
theorem total_settleCash {k : Fin 3} {m : Raw} (h : settleCash k m a = .ok a') :
    a'.total = a.total := by
  simp only [settleCash, bind, except_bind_eq_ok] at h
  obtain ⟨c, hc, p, hp, h⟩ := h
  obtain rfl := Except.ok.inj h
  have := Fixed.add_eq_ok hc
  have := Fixed.sub_eq_ok hp
  simp only [total, slotSum_setSlot]
  omega

/-- A failure moves money from pending to overdue. -/
theorem total_failCash {k : Fin 3} {m : Raw} (h : failCash k m a = .ok a') :
    a'.total = a.total := by
  simp only [failCash, bind, except_bind_eq_ok] at h
  obtain ⟨p, hp, o, ho, h⟩ := h
  obtain rfl := Except.ok.inj h
  have := Fixed.sub_eq_ok hp
  have := Fixed.add_eq_ok ho
  simp only [total, slotSum_setSlot]
  omega

/-- A buy-in moves money from overdue to cash. -/
theorem total_buyInCash {m : Raw} (h : buyInCash m a = .ok a') : a'.total = a.total := by
  simp only [buyInCash, bind, except_bind_eq_ok] at h
  obtain ⟨o, ho, c, hc, h⟩ := h
  obtain rfl := Except.ok.inj h
  have := Fixed.sub_eq_ok ho
  have := Fixed.add_eq_ok hc
  simp only [total]
  omega

/-- No outcome of a settlement changes how much money there is. -/
theorem total_outcome {w : SettlementWindow} {e : TradeSettled} {c c' : CustodyRow}
    {outcome : SettleOutcome} (h : Outcome w e c a outcome c' a') : a'.total = a.total := by
  cases h with
  | settled _ _ _ ha => exact total_settleCash ha
  | deliveryFailure _ _ _ ha => exact total_failCash ha
  | boughtIn _ _ ha => exact total_buyInCash ha

/-- A corporate action brings the money of its type. -/
theorem total_actCash {e : CorporateActionApplied} {type : ActionType}
    (htype : ActionType.ofCode e.type = some type) (h : actCash e a type = .ok a') :
    a'.total = a.total + e.flow := by
  simp only [CorporateActionApplied.flow, htype]
  cases type with
  | subscription =>
    simp only [actCash, bind, except_bind_eq_ok] at h
    obtain ⟨m, hm, h⟩ := h
    obtain rfl := Except.ok.inj h
    have := Fixed.sub_eq_ok hm
    simp only [total]
    omega
  | leftoversAuction =>
    simp only [actCash, bind, except_bind_eq_ok] at h
    obtain ⟨m, hm, h⟩ := h
    obtain rfl := Except.ok.inj h
    have := Fixed.add_eq_ok hm
    simp only [total]
    omega
  | _ =>
    obtain rfl := Except.ok.inj h
    simp

/-- A tax is taken from what is to be received. -/
theorem total_withholdTax {e : CorporateActionApplied} (h : withholdTax e a = .ok a') :
    a'.total = a.total - e.withheldTax.toInt := by
  simp only [withholdTax, bind, except_bind_eq_ok] at h
  obtain ⟨m, hm, h⟩ := h
  obtain rfl := Except.ok.inj h
  have := Fixed.sub_eq_ok hm
  simp only [total]
  omega

/-- An income counts when it is accrued; its payment moves it to cash. -/
theorem total_creditIncome {e : DividendPaid} (h : creditIncome e a = .ok a') :
    a'.total = a.total + if e.stage = kStageAccrued then e.netAmount.toInt else 0 := by
  unfold creditIncome at h
  split_ifs at h ⊢
  · simp only [bind, except_bind_eq_ok] at h
    obtain ⟨r, hr, h⟩ := h
    obtain rfl := Except.ok.inj h
    have := Fixed.add_eq_ok hr
    simp only [total]
    omega
  · simp only [bind, except_bind_eq_ok] at h
    obtain ⟨r, hr, m, hm, h⟩ := h
    obtain rfl := Except.ok.inj h
    have := Fixed.sub_eq_ok hr
    have := Fixed.add_eq_ok hm
    simp only [total]
    omega

/-- A slot of the old window goes somewhere, whole. -/
theorem total_rotateCashSlot {old new : SettlementWindow} {k : Fin 3} {acc : AccountRow}
    (h : rotateCashSlot old new a acc k = .ok a') :
    a'.total = acc.total + (a.pending k).toInt := by
  unfold rotateCashSlot at h
  split_ifs at h with hzero
  · obtain rfl := Except.ok.inj h
    rw [hzero, Int64.toInt_zero, add_zero]
  · split at h
    · simp only [bind, except_bind_eq_ok] at h
      obtain ⟨p, hp, h⟩ := h
      obtain rfl := Except.ok.inj h
      have := Fixed.add_eq_ok hp
      simp only [total]
      omega
    · simp only [bind, except_bind_eq_ok] at h
      obtain ⟨p, hp, h⟩ := h
      obtain rfl := Except.ok.inj h
      have := Fixed.add_eq_ok hp
      simp only [total, slotSum_setSlot]
      omega

/-- The rotation moves money between slots and to overdue. -/
theorem total_rotateCash {old new : SettlementWindow} (h : rotateCash old new a = .ok a') :
    a'.total = a.total := by
  unfold rotateCash at h
  split_ifs at h
  · rw [Except.ok.inj h]
  · simp only [bind, except_bind_eq_ok] at h
    obtain ⟨a₁, h₁, a₂, h₂, h₃⟩ := h
    have e₁ := total_rotateCashSlot h₁
    have e₂ := total_rotateCashSlot h₂
    have e₃ := total_rotateCashSlot h₃
    simp only [total, slotSum, Int64.toInt_zero] at e₁ e₂ e₃ ⊢
    omega

@[simp] theorem total_cleared (doc : UInt64) : (cleared doc).total = 0 := by
  simp [cleared, total, slotSum]

@[simp] theorem total_unlinked (a : AccountRow) : a.unlinked.total = a.total := rfl

end AccountRow

/-! ### Tables -/

/-- The sum over a table after a change of one row. -/
theorem sum_map_set {α : Type} (f : α → ℤ) {rows : List α} {i : ℕ} {r : α}
    (hr : rows[i]? = some r) (r' : α) :
    ((rows.set i r').map f).sum = (rows.map f).sum + (f r' - f r) := by
  induction rows generalizing i with
  | nil => simp at hr
  | cons x rows ih =>
    cases i with
    | zero =>
      obtain rfl : x = r := by simpa using hr
      simp only [List.set_cons_zero, List.map_cons, List.sum_cons]
      omega
    | succ i =>
      have := ih (by simpa using hr : rows[i]? = some r)
      simp only [List.set_cons_succ, List.map_cons, List.sum_cons, this]
      omega

/-- Rows that count for nothing do not change a sum. -/
theorem sum_map_append_zero {α : Type} (f : α → ℤ) {rows new : List α}
    (h : ∀ r ∈ new, f r = 0) : ((rows ++ new).map f).sum = (rows.map f).sum := by
  rw [List.map_append, List.sum_append, List.map_congr_left (g := fun _ => 0) h]
  simp

namespace PartitionState

variable {s s₁ s' : PartitionState}

/-- Empty rows of new accounts hold no money. -/
theorem money_of_append {new : List AccountRow} (h : s'.accounts = s.accounts ++ new)
    (hnew : ∀ a ∈ new, ∃ doc, a = AccountRow.cleared doc) : s'.money = s.money := by
  unfold money
  rw [h]
  refine sum_map_append_zero _ fun a ha => ?_
  obtain ⟨doc, rfl⟩ := hnew a ha
  exact AccountRow.total_cleared doc

/-- Cleared rows have no money. -/
theorem totalAt_of_append {new : List AccountRow} (h : s'.accounts = s.accounts ++ new)
    (hnew : ∀ a ∈ new, ∃ doc, a = AccountRow.cleared doc) (i : ℕ) :
    s'.totalAt i = s.totalAt i := by
  unfold totalAt
  rw [h]
  rcases Nat.lt_or_ge i s.accounts.length with hlt | hge
  · rw [List.getElem?_append_left hlt]
  · rw [List.getElem?_append_right hge, List.getElem?_eq_none hge]
    rcases hi : new[i - s.accounts.length]? with _ | a
    · rfl
    · obtain ⟨doc, rfl⟩ := hnew a (List.mem_of_getElem? hi)
      exact AccountRow.total_cleared doc

/-- A rejected event moves no money. -/
theorem money_of_kept (h : Kept s s') : s'.money = s.money := by
  obtain ⟨new, hnew, hall⟩ := h.accounts
  exact money_of_append hnew hall

/-- A rejected event moves no money of any account. -/
theorem totalAt_of_kept (h : Kept s s') (i : ℕ) : s'.totalAt i = s.totalAt i := by
  obtain ⟨new, hnew, hall⟩ := h.accounts
  exact totalAt_of_append hnew hall i

/-- A change of one row of the accounts by some amount. -/
theorem money_set (hI : Interned s s₁) {i : ℕ} {a a' : AccountRow} {m : ℤ} {P : Prop}
    (ha : s₁.accounts[i]? = some a)
    (h : s'.accounts.map AccountRow.total = (s₁.accounts.set i a').map AccountRow.total)
    (hm : a'.total = a.total + m) :
    s'.money = s.money + m ∧ (P → ∃ i, ∀ j, j ≠ i → s'.totalAt j = s.totalAt j) := by
  refine ⟨?_, fun _ => ⟨i, fun j hj => ?_⟩⟩
  · have hsum := sum_map_set AccountRow.total ha a'
    rw [money, h, hsum, ← money_of_kept hI.kept, money]
    omega
  · rw [← totalAt_of_kept hI.kept]
    have hi := congrArg (fun l => l[j]?) h
    simp only [List.getElem?_map, List.getElem?_set_ne hj.symm] at hi
    rw [totalAt, totalAt, hi]

/-- No change but new rows. -/
theorem money_same {new : List AccountRow} {P : Prop} (h : s'.accounts = s.accounts ++ new)
    (hnew : ∀ a ∈ new, ∃ doc, a = AccountRow.cleared doc) :
    s'.money = s.money + 0 ∧ (P → ∃ i, ∀ j, j ≠ i → s'.totalAt j = s.totalAt j) :=
  ⟨by rw [money_of_append h hnew, add_zero], fun _ => ⟨0, fun j _ => totalAt_of_append h hnew j⟩⟩

end PartitionState

/-- The instrument row of an execution, found by its id. -/
theorem grossOf_eq {s s₁ : PartitionState} (hI : Interned s s₁) {e : TradeExecuted} {inst : ℕ}
    {i : InstrumentRow} {gross : Raw}
    (hinst : s₁.instrumentKeys[inst]? = some (instrumentKey e.instrument))
    (hi : s₁.instruments[inst]? = some i) (hfactor : i.priceFactor ≠ 0)
    (hgross : notionalHalfEven e.qty e.price i.priceFactor = .ok gross) :
    grossOf s e = gross.toInt := by
  have hid : i.externalId = e.instrument := by
    rw [instrumentKeys, List.getElem?_map, hi, Option.map_some, Option.some.injEq] at hinst
    have := congrArg UInt64.toNat hinst
    simp only [instrumentKey, UInt32.toNat_toUInt64] at this
    exact UInt32.toNat_inj.mp this
  obtain ⟨new, hnew, hall⟩ := hI.instruments
  -- a row with a factor is no new row
  have hlt : inst < s.instruments.length := by
    by_contra hge
    rw [hnew, List.getElem?_append_right (by omega)] at hi
    obtain ⟨id, rfl⟩ := hall i (List.mem_of_getElem? hi)
    exact hfactor rfl
  have hi' : s.instruments[inst]? = some i := by
    rw [hnew, List.getElem?_append_left hlt] at hi
    exact hi
  -- and the ids are different
  have huniq : ∀ j ∈ s.instruments, j.externalId = e.instrument → j = i := by
    intro j hj hjid
    obtain ⟨n, hn⟩ := List.mem_iff_getElem?.mp hj
    have hn' := hI.instrumentRow hn
    have hkey : s₁.instrumentKeys[n]? = some (instrumentKey e.instrument) := by
      rw [instrumentKeys, List.getElem?_map, hn', Option.map_some, hjid]
    have h₁ := (hI.sound.instruments.index.find _ n).mpr hkey
    have h₂ := (hI.sound.instruments.index.find _ inst).mpr hinst
    obtain rfl := Option.some.inj (h₁.symm.trans h₂)
    exact Option.some.inj (hn.symm.trans hi')
  have hof : s.instrumentOf e.instrument = some i := by
    rcases hf : s.instrumentOf e.instrument with _ | j
    · have := List.find?_eq_none.mp hf i (List.mem_of_getElem? hi')
      simp [hid] at this
    · rw [huniq j (List.mem_of_find?_eq_some hf) (by simpa using List.find?_some hf)]
  simp only [grossOf, hof, hgross]

/-! ### Events -/

/-- Reconciliation writes to the exception queue and sets a flag. -/
theorem recordDivergences_rest (date : DateYmd) (ds : List Divergence) (s : PartitionState) :
    ∃ xs n d f, recordDivergences date ds s =
      { s with exceptions := xs, exceptionCount := n, exceptionDropped := d, flags := f } := by
  induction ds generalizing s with
  | nil => exact ⟨_, _, _, _, rfl⟩
  | cons d ds ih =>
    obtain ⟨xs, n, dr, f, h⟩ := ih (s.pushException ⟨d.account, d.qtyDelta, d.instrument, date,
      UInt16.ofNat Err.qtyMismatch.code⟩ true)
    refine ⟨xs, n, dr, f, h.trans ?_⟩
    unfold PartitionState.pushException
    split
    · rfl
    · rfl

/-- What an effect does to the money: the flow of the event comes in, and only an allocation
touches two accounts. -/
theorem Effect.money {s s' : PartitionState} {x : Event} (h : Effect s x s') :
    s'.money = s.money + x.flow s ∧ ((∀ e, x ≠ .tradeAllocated e) →
      ∃ i, ∀ j, j ≠ i → s'.totalAt j = s.totalAt j) := by
  cases h with
  | dayOpened _ _ h =>
    have hrows := (opened_of_openDay h).accounts
    -- the rotation moves money between the buckets of a row
    have htot : s'.accounts.map AccountRow.total = s.accounts.map AccountRow.total := by
      refine List.ext_getElem (by simp [hrows.length_eq]) fun i h₁ h₂ => ?_
      simp only [List.getElem_map]
      simp only [List.length_map] at h₁ h₂
      obtain ⟨a₁, ha₁, hun⟩ := (List.forall₂_iff_get.mp hrows).2 i h₂ h₁
      simp only [List.get_eq_getElem] at ha₁ hun
      rw [← AccountRow.total_unlinked, hun, AccountRow.total_unlinked,
        AccountRow.total_rotateCash ha₁]
    refine ⟨by rw [PartitionState.money, htot]; exact (add_zero _).symm,
      fun _ => ⟨0, fun j _ => ?_⟩⟩
    have hj := congrArg (fun l => l[j]?) htot
    simp only [List.getElem?_map] at hj
    rw [totalAt, totalAt, hj]
  | tradeExecuted hI _ _ _ hinst hi hfactor _ _ _ _ hgross hfees _ hcash _ ha ha' =>
    have hval := tradeCash_eq_ok hcash
    rw [← grossOf_eq hI hinst hi hfactor hgross, feesOf_eq_some hfees] at hval
    refine money_set hI ha rfl ?_
    have hrow := AccountRow.total_addPending ha'
    rw [hval] at hrow
    exact hrow
  | allocatedInPlace hI =>
    obtain ⟨new, hnew, hall⟩ := hI.accounts
    exact money_same hnew hall
  | @allocated e s₁ s₂ r r' k c₁ c₁' c₂ c₂' a₁ a₁' a₂ a₂' t de para posDe posPara hI _ _ _ _ _ hne
      _ _ _ _ _ _ _ _ _ _ ha₁ ha₁' ha₂ ha₂' hlink =>
    refine ⟨?_, fun h => absurd rfl (h _)⟩
    have hrow₁ := AccountRow.total_subPending ha₁'
    have hrow₂ := AccountRow.total_addPending ha₂'
    have htot := map_of_unlinkedAccounts AccountRow.total (fun _ => rfl) (relinkTrade_rows hlink).1
    have ha₂₁ : (s₁.accounts.set de a₁')[para]? = some a₂ := by
      rw [List.getElem?_set_ne hne]
      exact ha₂
    -- what leaves the one account is added to the other; the links carry no money
    have hmon : s₂.money = s₁.money + (a₁'.total - a₁.total) + (a₂'.total - a₂.total) := by
      rw [PartitionState.money, htot, sum_map_set _ ha₂₁, sum_map_set _ ha₁]
      rfl
    have hmon₁ := money_of_kept hI.kept
    change s₂.money = s.money + 0
    omega
  | batchNetted hI _ _ _ _ _ hlog =>
    obtain ⟨new, hnew, hall⟩ := hI.accounts
    exact money_same (hlog.accounts.trans hnew) hall
  | tradeSettled hI hfind _ hrows _ hlog =>
    refine money_set hI hfind.cash (congrArg _ hlog.accounts) ?_
    rw [AccountRow.total_outcome hrows]
    exact (add_zero _).symm
  | corporateActionApplied hI _ _ _ _ ha htype _ _ _ _ _ ha₁ ha' hlog =>
    refine money_set hI ha (congrArg _ hlog.accounts) ?_
    rw [AccountRow.total_withholdTax ha', AccountRow.total_actCash htype ha₁]
    exact add_sub_assoc _ _ _
  | dividendPaid hI _ _ _ _ ha ha' =>
    exact money_set hI ha rfl (AccountRow.total_creditIncome ha')
  | closingPriceSet hI =>
    obtain ⟨new, hnew, hall⟩ := hI.accounts
    exact money_same hnew hall
  | custodyReconciled =>
    obtain ⟨xs, n, d, f, hrest⟩ := recordDivergences_rest _ _ s
    rw [hrest]
    exact money_same (List.append_nil _).symm (by simp)
  | eodMarked => exact money_same (List.append_nil _).symm (by simp)

/-! ### Runs -/

/-- An event that is not fatal brings in its flow if it is accepted, and nothing otherwise. -/
theorem money_apply {s : PartitionState} (hs : s.Sound) {o : Option Outbox} {ev : EventView}
    {st : Status} {e : Engine} (h : apply ⟨s, o⟩ ev = .ok (st, e)) (hst : st.isFatal = false) :
    e.s.money = s.money +
        (if st.isOk then ((LogRecord.event ev).map (Event.flow s)).getD 0 else 0) ∧
      ((∀ a, LogRecord.event ev ≠ some (.tradeAllocated a)) →
        ∃ i, ∀ j, j ≠ i → e.s.totalAt j = s.totalAt j) := by
  obtain ⟨s', hs', ⟨rfl, x, hx, heff⟩ | hend⟩ := apply_cases hs h
  · obtain ⟨hmon, hat⟩ := heff.money
    rw [hs', hx]
    exact ⟨hmon, fun hno => hat fun a ha => hno a (by rw [ha])⟩
  · obtain ⟨t, hkept⟩ := hend.kept hst
    rw [hs', show st.isOk = false from hend.isOk_eq_false]
    obtain ⟨new, hnew, hall⟩ := hkept.accounts
    exact money_same hnew hall

/-- By induction on the events: each one moves the money by its flow. -/
theorem money_applyAll {evs : List (EventView × Option Outbox)} : ∀ {s s' : PartitionState}
    {sts : List Status}, s.Sound → applyAll s evs = .ok (sts, s') →
      (∀ st ∈ sts, st.isFatal = false) → s'.money = s.money + flows s evs := by
  induction evs with
  | nil =>
    intro s s' sts _ h _
    obtain ⟨-, rfl⟩ := Prod.mk.inj (Except.ok.inj h)
    exact (add_zero _).symm
  | cons x evs ih =>
    intro s s' sts hs h hok
    obtain ⟨st, e, sts', h₁, h₂, rfl⟩ := applyAll_cons.mp h
    have hstep := (money_apply hs h₁ (hok st (by simp))).1
    have hrest := ih (sound_apply hs h₁) h₂ fun st' hst' => hok st' (by simp [hst'])
    simp only [flows, h₁]
    omega

/-- **Money is conserved.** After a run with no fatal status, the money of all accounts is the sum
of the flows of the accepted events; and no event but an allocation changes the totals of two
accounts. -/
theorem money_eq_flows {arena arena₀ : Arena} {pid : UInt16} {c : PartitionCapacity}
    {s₀ : PartitionState} (hinit : blank.init arena pid c = .ok (true, s₀, arena₀))
    {evs : List (EventView × Option Outbox)} {sts : List Status} {s : PartitionState}
    (hrun : applyAll s₀ evs = .ok (sts, s)) (hok : ∀ st ∈ sts, st.isFatal = false) :
    s.money = flows s₀ evs ∧ ∀ ev o st e, apply ⟨s, o⟩ ev = .ok (st, e) → st.isFatal = false →
      (∀ a, LogRecord.event ev ≠ some (.tradeAllocated a)) →
      ∃ i, ∀ j, j ≠ i → e.s.totalAt j = s.totalAt j := by
  have hs := sound_init hinit
  refine ⟨?_, fun ev o st e h hst => (money_apply (sound_applyAll hs hrun) h hst).2⟩
  rw [money_applyAll hs hrun hok]
  obtain ⟨-, -, slots, -, rfl⟩ := init_eq_ok hinit
  simp [PartitionState.money, initialised]

/-- A purchase, the same once more, an income, and the purchase moved to another account, netted,
not delivered and bought in. -/
def moneyMoves : List (EventView × Outbox) :=
  [Event.closingPriceSet quoted, .dayOpened firstDay,
    .tradeExecuted { boughtOne with price := 100000000 }, .tradeExecuted boughtOne,
    .dividendPaid ⟨7, 1, 0, 0, 3, 1, 2, 1, 20260901, kStageAccrued⟩,
    .tradeAllocated ⟨1, 1, 2, 10000, -1, 20260903, 1⟩, .batchNetted ⟨2, -1, 20260903, 1⟩,
    .tradeSettled ⟨2, 10000, -1, 1, 1, 20260903, 1, 2⟩,
    .tradeSettled ⟨2, 10000, -1, 1, 1, 20260903, 1, 3⟩].mapIdx fun i x =>
      (x.record (i + 1), .fresh 16 256)

/-- The unit that the purchase costs is paid, and two are still to be received; what is rejected
does not count. -/
theorem money_eq_flows_moved :
    ∃ (s₀ : PartitionState) (arena₀ : Arena) (sts : List Status) (s : PartitionState),
      blank.init ⟨2 ^ 16, 0, false, false⟩ 1 ⟨3, 3, 3, 3, 2, 2, 2, 2, 60⟩ =
        .ok (true, s₀, arena₀) ∧
      applyAll s₀ (live moneyMoves) = .ok (sts, s) ∧
      sts[3]? = some (.fail .alreadyApplied 0) ∧ s.accounts.map (·.cash) = [0, (-1 : Raw)] ∧
      s.accounts.map (·.incomeReceivable) = [(2 : Raw), 0] ∧ s.money = 1 ∧
      flows s₀ (live moneyMoves) = 1 := by
  have hpasses : cutChecked ⟨3, 3, 3, 3, 2, 2, 2, 2, 60⟩ moneyMoves 0
    (fun sts _ s => decide ((∀ st ∈ sts, st.isFatal = false) ∧
      sts[3]? = some (.fail .alreadyApplied 0) ∧ s.accounts.map (·.cash) = [0, (-1 : Raw)] ∧
      s.accounts.map (·.incomeReceivable) = [(2 : Raw), 0] ∧ s.money = 1)) =
        .ok true := by decide +kernel
  obtain ⟨s₀, arena₀, sts, s, -, -, hinit, hrun, -, hend⟩ := exists_of_cutChecked hpasses
  obtain ⟨hok, htwice, hcash, hincome, hmoney⟩ := of_decide_eq_true hend
  exact ⟨s₀, arena₀, sts, s, hinit, hrun, htwice, hcash, hincome, hmoney,
    (money_eq_flows hinit hrun hok).1.symm.trans hmoney⟩

end MotorRv
