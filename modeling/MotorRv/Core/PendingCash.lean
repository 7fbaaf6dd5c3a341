import MotorRv.Core.Pending

/-!
# Pending cash and pending trades

The pending cash of an account is kept in a bucket for each date of the window. With a faithful feed
along a calendar it is the cash of the trades that are executed, allocated or netted, unless a
purchase is bought in while its date is still in the window: the buy-in turns the overdue amount
into cash and takes the trades back to netted, and the bucket of the date does not have them.

`CashMatched` compares, for each account and each date of the window, the buckets with that date
with the cash of the pending trades of that date. Both sides are changed by the same amount in each
effect (`Effect.cashMatched`), one case for each kind of event; a rotation moves whole slots, and a
trade whose date has left the window is owed under its own date still.

The condition of `pendingCash_of_session` is on the steps of the session and names the one kind of
event that breaks the relation (`TradeSettled.RefillsCash`). It can be seen from the event and the
window before it.
-/

namespace MotorRv

open Lib PartitionState Apply

/-! ### Both sides -/

namespace PartitionState

/-- The pending cash of account `i` at a date. -/
def pendingAt (s : PartitionState) (i : ℕ) (d : DateYmd) : ℤ :=
  match s.accounts[i]? with
  | some a => datedSum s.window a.pending d
  | none => 0

/-- The cash of the pending trades of account `i` with a settlement date. -/
def owedCash (s : PartitionState) (i : ℕ) (d : DateYmd) : ℤ :=
  owed (fun acct _ _ => decide (acct = i)) TradeRow.cash d s.trades

/-- Both sides agree for every account and every date of the window. -/
def CashMatched (s : PartitionState) : Prop :=
  ∀ i k, s.pendingAt i (s.window k) = s.owedCash i (s.window k)

end PartitionState

/-! ### The buckets -/

section Buckets

variable {w : SettlementWindow} {k : Fin 3} {m : Raw} {a a' : AccountRow} {d : DateYmd}

/-- A slot that is shifted shifts the sum of its date. -/
theorem datedSum_setSlot_of {f : Slots Raw} {x : Raw} {δ : ℤ} (hx : x.toInt = (f k).toInt + δ) :
    datedSum w (setSlot f k x) d = datedSum w f d + if w k = d then δ else 0 := by
  rw [datedSum_setSlot, hx, add_sub_cancel_left]

/-- Money added to a slot is pending for its date. -/
theorem dated_addPending (h : addPending k m a = .ok a') :
    datedSum w a'.pending d = datedSum w a.pending d + if w k = d then m.toInt else 0 := by
  simp only [addPending, bind, except_bind_eq_ok] at h
  obtain ⟨p, hp, h⟩ := h
  obtain rfl := Except.ok.inj h
  exact datedSum_setSlot_of (Fixed.add_eq_ok hp)

/-- Money taken from a slot is no longer pending for its date. -/
theorem dated_subPending (h : subPending k m a = .ok a') :
    datedSum w a'.pending d = datedSum w a.pending d + if w k = d then -m.toInt else 0 := by
  simp only [subPending, bind, except_bind_eq_ok] at h
  obtain ⟨p, hp, h⟩ := h
  obtain rfl := Except.ok.inj h
  exact datedSum_setSlot_of (Fixed.sub_eq_ok hp)

/-- What an outcome takes from the pending cash of its date. -/
theorem dated_outcome {e : TradeSettled} {c c' : CustodyRow} {o : SettleOutcome}
    (h : Outcome w e c a o c' a') :
    datedSum w a'.pending d = datedSum w a.pending d +
      if o ≠ .boughtIn ∧ e.settlementDate = d then -e.cashAmount.toInt else 0 := by
  cases h with
  | settled hk _ _ ha =>
    simp only [settleCash, bind, except_bind_eq_ok] at ha
    obtain ⟨m, -, p, hp, ha⟩ := ha
    obtain rfl := Except.ok.inj ha
    rw [datedSum_setSlot_of (Fixed.sub_eq_ok hp), SettlementWindow.slotOf_eq_some hk]
    simp
  | deliveryFailure hk _ _ ha =>
    simp only [failCash, bind, except_bind_eq_ok] at ha
    obtain ⟨p, hp, v, -, ha⟩ := ha
    obtain rfl := Except.ok.inj ha
    rw [datedSum_setSlot_of (Fixed.sub_eq_ok hp), SettlementWindow.slotOf_eq_some hk]
    simp
  | boughtIn _ _ ha =>
    simp only [buyInCash, bind, except_bind_eq_ok] at ha
    obtain ⟨v, -, m, -, ha⟩ := ha
    obtain rfl := Except.ok.inj ha
    simp

/-- The money of an action is never pending. -/
theorem pending_actCash {e : CorporateActionApplied} {type : ActionType}
    (h : actCash e a type = .ok a') : a'.pending = a.pending := by
  cases type with
  | subscription | leftoversAuction =>
    simp only [actCash, bind, except_bind_eq_ok] at h
    obtain ⟨m, -, h⟩ := h
    obtain rfl := Except.ok.inj h
    rfl
  | _ =>
    obtain rfl := Except.ok.inj h
    rfl

/-- A tax is never pending. -/
theorem pending_withholdTax {e : CorporateActionApplied} (h : withholdTax e a = .ok a') :
    a'.pending = a.pending := by
  simp only [withholdTax, bind, except_bind_eq_ok] at h
  obtain ⟨m, -, h⟩ := h
  obtain rfl := Except.ok.inj h
  rfl

/-- An income is never pending in the window. -/
theorem pending_creditIncome {e : DividendPaid} (h : creditIncome e a = .ok a') :
    a'.pending = a.pending := by
  unfold creditIncome at h
  split_ifs at h
  · simp only [bind, except_bind_eq_ok] at h
    obtain ⟨m, -, h⟩ := h
    obtain rfl := Except.ok.inj h
    rfl
  · simp only [bind, except_bind_eq_ok] at h
    obtain ⟨r, -, m, -, h⟩ := h
    obtain rfl := Except.ok.inj h
    rfl

end Buckets

variable {s s₁ s' : PartitionState} {cal : Calendar} {i : ℕ} {d : DateYmd}

namespace PartitionState

/-- Empty rows of new accounts have nothing pending. -/
theorem pendingAt_append {new : List AccountRow} (h : s'.accounts = s.accounts ++ new)
    (hnew : ∀ a ∈ new, ∃ doc, a = AccountRow.cleared doc) (hwin : s'.window = s.window) :
    s'.pendingAt i d = s.pendingAt i d := by
  unfold pendingAt
  rw [h, hwin]
  rcases Nat.lt_or_ge i s.accounts.length with hlt | hge
  · rw [List.getElem?_append_left hlt]
  · rw [List.getElem?_append_right hge, List.getElem?_eq_none hge]
    rcases hi : new[i - s.accounts.length]? with _ | a
    · rfl
    · obtain ⟨doc, rfl⟩ := hnew a (List.mem_of_getElem? hi)
      simp [datedSum, AccountRow.cleared]

/-- A rejected event leaves what is pending. -/
theorem pendingAt_kept (h : Kept s s') : s'.pendingAt i d = s.pendingAt i d := by
  obtain ⟨new, hnew, hall⟩ := h.accounts
  exact pendingAt_append hnew hall h.window

/-- The pending cash of one account changes; links do not count. -/
theorem pendingAt_set {acct : ℕ} {a a' : AccountRow} (ha : s₁.accounts[acct]? = some a)
    (h : s'.accounts.map AccountRow.unlinked = (s₁.accounts.set acct a').map AccountRow.unlinked)
    (hwin : s'.window = s₁.window) :
    s'.pendingAt i d = s₁.pendingAt i d +
      if i = acct then datedSum s₁.window a'.pending d - datedSum s₁.window a.pending d else 0 := by
  have hcol := map_of_unlinkedAccounts (fun a => datedSum s₁.window a.pending d) (fun _ => rfl) h
  have hi := congrArg (fun l => l[i]?) hcol
  simp only [List.getElem?_map] at hi
  have hat : ∀ (t : PartitionState), t.window = s₁.window → t.pendingAt i d =
      ((t.accounts[i]?).map fun a => datedSum s₁.window a.pending d).getD 0 := by
    intro t ht
    unfold pendingAt
    rw [ht]
    cases t.accounts[i]? <;> rfl
  rw [hat s' hwin, hat s₁ rfl, hi]
  split_ifs with heq
  · subst heq
    rw [List.getElem?_set_self (List.getElem?_eq_some_iff.mp ha).1, ha]
    simp
  · rw [List.getElem?_set_ne (Ne.symm heq), add_zero]

end PartitionState

/-! ### One event -/

/-- A purchase of money is bought in while its date is in the window. -/
def TradeSettled.RefillsCash (e : TradeSettled) (s : PartitionState) : Prop :=
  SettleOutcome.ofCode e.outcome = some .boughtIn ∧ (∃ k, s.window k = e.settlementDate) ∧
    e.cashAmount ≠ 0

theorem cash_fixed (r : TradeRow) : r.fixed.cash = r.cash := rfl

/-- Both sides change by the same amounts. -/
theorem PartitionState.CashMatched.of_change (h : s.CashMatched) (δ : ℕ → DateYmd → ℤ)
    (hwin : s'.window = s.window) (hpend : ∀ i d, s'.pendingAt i d = s.pendingAt i d + δ i d)
    (howed : ∀ i d, (∃ k, s.window k = d) → s'.owedCash i d = s.owedCash i d + δ i d) :
    s'.CashMatched := fun i k => by
  rw [hwin, hpend, howed i _ ⟨k, rfl⟩, h i k]

/-- Money stays matched where nothing that it depends on changes. -/
theorem PartitionState.CashMatched.of_same (h : s.CashMatched) (hwin : s'.window = s.window)
    (hpend : ∀ i d, s'.pendingAt i d = s.pendingAt i d) (htr : s'.trades = s.trades) :
    s'.CashMatched :=
  h.of_change (fun _ _ => 0) hwin (fun i d => by rw [hpend, add_zero]) fun i d _ => by
    rw [owedCash, owedCash, htr, add_zero]

/-- **One effect.** -/
theorem Effect.cashMatched {x : Event} (h : Effect s x s') (hs : s.Sound) (hd : Dealt cal s)
    (hday : ∀ e, x = .dayOpened e → cal.IsWindow (newWindow e)) (hf : x.Faithful s)
    (hno : ∀ e, x = .tradeSettled e → ¬ e.RefillsCash s) (hm : s.CashMatched) :
    s'.CashMatched := by
  have hkept : ∀ {s₁}, Interned s s₁ → ∀ i d, s₁.pendingAt i d = s.pendingAt i d :=
    fun hI i d => pendingAt_kept hI.kept
  cases h with
  | @dayOpened e _ _ hnext h =>
    have hopen := opened_of_openDay h
    have hw := hday e rfl
    have hlt := hd.dates.day.lt_of_next hw hnext
    intro i k
    have howed : s'.owedCash i (s'.window k) = s.owedCash i (s'.window k) :=
      owed_opened cash_fixed h
    have hrot : s'.pendingAt i (s'.window k) = s.pendingAt i (s'.window k) := by
      have hrows := hopen.dayRotated.accounts
      unfold pendingAt
      rcases Nat.lt_or_ge i s.accounts.length with hi | hi
      · have hi' : i < s'.accounts.length := hrows.length_eq ▸ hi
        rw [List.getElem?_eq_getElem hi, List.getElem?_eq_getElem hi']
        exact ((List.forall₂_iff_get.mp hrows).2 i hi hi').pending.dated _ ⟨k, rfl⟩
      · rw [List.getElem?_eq_none hi, List.getElem?_eq_none (hrows.length_eq ▸ hi)]
    rw [howed, hrot]
    by_cases hin : ∃ j, s.window j = s'.window k
    · obtain ⟨j, hj⟩ := hin
      rw [← hj]
      exact hm i j
    · -- a date that comes into the window: nothing is pending for it on either side
      have hzero : s.pendingAt i (s'.window k) = 0 := by
        have hnone : ∀ f, datedSum s.window f (s'.window k) = 0 := fun f => by
          rw [datedSum, Finset.filter_false_of_mem fun j _ hj => hin ⟨j, hj⟩, Finset.sum_empty]
        unfold pendingAt
        split
        · exact hnone _
        · rfl
      rw [hzero, owedCash, owed_eq_zero fun r hr => ?_]
      rw [due, if_neg]
      rintro ⟨-, -, hdate⟩
      rw [hopen.window] at hdate hin
      exact hin (hdate ▸ hd.inWindow hw hlt hr hdate.symm)
  | @tradeExecuted e s₁ k gross fees cash _ c c' a a' acct inst pos hI _ _ _ _ _ _ hk _
      _ _ _ _ _ _ _
      ha ha' =>
    have hwk := SettlementWindow.slotOf_eq_some hk
    refine hm.of_change (fun i d => if i = acct ∧ e.settlementDate = d then cash.toInt else 0)
      hI.window (fun i d => ?_) fun i d _ => ?_
    · refine (pendingAt_set ha (by exact rfl) (by exact rfl)).trans ?_
      rw [hkept hI, hI.window, dated_addPending ha', hwk, add_sub_cancel_left]
      simp only [ite_and]
    · rw [owedCash, owedCash, owed_append]
      congr 1
      simp [owed, due, newTrade, TradeRow.isPending, eq_comm]
  | @allocatedInPlace e s₁ r k t acct hI _ hr hstate =>
    refine hm.of_change (fun _ _ => 0) hI.window (fun i d => ?_) fun i d _ => ?_
    · rw [add_zero]
      exact hkept hI i d
    · rw [add_zero]
      refine owed_setState cash_fixed hr ?_
      rw [TradeRow.isPending, TradeRow.isPending, hstate]
      rfl
  | @allocated e s₁ s₂ r r' k c₁ c₁' c₂ c₂' a₁ a₁' a₂ a₂' t de para posDe posPara hI ht hr hstate
      hfrom hto hne hk hqty hc₁ how₁ _ _ hpend _ _ _ ha₁ ha₁' ha₂ ha₂' hlink hr' =>
    obtain ⟨hown, hcash, -, hdate⟩ := TradeAllocated.Faithful.terms hf hs hI ht hr hfrom hto hne
    have hwk := SettlementWindow.slotOf_eq_some hk
    obtain ⟨hacc, -, hrest⟩ := relinkTrade_rows hlink
    have hwin : s₂.window = s₁.window := by rw [hrest]
    refine hm.of_change (fun i d => (if i = para ∧ e.settlementDate = d then r.cash.toInt else 0) -
      if i = de ∧ e.settlementDate = d then r.cash.toInt else 0) (hwin.trans hI.window)
      (fun i d => ?_) fun i d _ => ?_
    · have hde : ({ s₁ with accounts := s₁.accounts.set de a₁' } : PartitionState).pendingAt i d =
          _ := pendingAt_set ha₁ (by exact rfl) (by exact rfl)
      have hpara : (s₁.accounts.set de a₁')[para]? = some a₂ := by
        rw [List.getElem?_set_ne hne]
        exact ha₂
      refine (@pendingAt_set { s₁ with accounts := s₁.accounts.set de a₁' } _ _ _ _ _ _ hpara
        (by exact hacc) (by exact hwin)).trans ?_
      rw [hde, hkept hI, hI.window, dated_subPending ha₁', dated_addPending ha₂', hwk, hcash]
      simp only [add_sub_cancel_left, ite_and]
      split_ifs <;> omega
    · refine (owed_allocated cash_fixed hlink (hI.trades ▸ hr) hstate hr').trans ?_
      have hdue : ∀ x : ℕ, due (fun acct _ _ => decide (acct = i)) TradeRow.cash d
          { r with account := x } = if i = x ∧ e.settlementDate = d then r.cash.toInt else 0 := by
        intro x
        rw [due, hdate]
        refine if_congr ?_ rfl rfl
        simp [TradeRow.isPending, hstate, eq_comm]
      have hr : due (fun acct _ _ => decide (acct = i)) TradeRow.cash d r = _ := hdue r.account
      rw [hdue, hr, hown, hI.trades, owedCash]
  | @batchNetted e s₁ k a n rows _ acct hI _ ha _ _ hadv hlog =>
    obtain ⟨xs, m, d, rfl⟩ := hlog
    refine hm.of_change (fun _ _ => 0) hI.window (fun i d => ?_) fun i d _ => ?_
    · rw [add_zero]
      exact hkept hI i d
    · rw [add_zero]
      exact owed_batchNetted cash_fixed hd.listed.linked hI ha hadv
  | @tradeSettled e s₁ acct inst pos c a o c' a' n rows _ hI hfind hout hrows hadv hlog =>
    obtain ⟨xs, m, d, rfl⟩ := hlog
    refine hm.of_change (fun i d => if i = acct ∧ o ≠ .boughtIn ∧ e.settlementDate = d then
      -e.cashAmount.toInt else 0) hI.window (fun i d => ?_) fun i d hin => ?_
    · refine (pendingAt_set hfind.cash (by exact rfl) (by exact rfl)).trans ?_
      rw [hkept hI, hI.window, dated_outcome hrows, add_sub_cancel_left]
      simp only [ite_and]
    · obtain ⟨hmatch, hother⟩ := @owed_tradeSettled _ _ _ (fun acct _ _ => decide (acct = i))
        TradeRow.cash d cash_fixed hd hI _ _ _ _ _ _ _ _ _ hfind hadv
      have hsum := hf.cash o hout
      by_cases hat : acct = i ∧ e.settlementDate = d
      · rw [owedCash, owedCash]
        refine (hmatch ⟨by simp [hat.1], hat.2⟩).trans ?_
        rw [← hsum]
        cases o with
        | settled | deliveryFailure => simp [signOf, hat.1, hat.2]
        | boughtIn =>
          -- the buy-in is of nothing, or its date is behind the window
          have hzero : e.cashAmount = 0 := by
            by_contra hne
            exact hno e rfl ⟨hout, hat.2 ▸ hin, hne⟩
          simp [hzero]
      · rw [owedCash, owedCash]
        refine (hother fun h => hat ⟨by simpa using h.1, h.2⟩).trans ?_
        rw [if_neg fun h => hat ⟨h.1.symm, h.2.2⟩, add_zero]
  | corporateActionApplied hI _ _ _ _ ha _ _ _ _ _ _ ha₁ ha' hlog =>
    obtain ⟨xs, n, d, rfl⟩ := hlog
    refine hm.of_same hI.window
      (fun i d => (pendingAt_set ha (by exact rfl) (by exact rfl)).trans ?_) hI.trades
    rw [pending_withholdTax ha', pending_actCash ha₁, sub_self, ite_self, add_zero, hkept hI]
  | dividendPaid hI _ _ _ _ ha ha' =>
    refine hm.of_same hI.window
      (fun i d => (pendingAt_set ha (by exact rfl) (by exact rfl)).trans ?_) hI.trades
    rw [pending_creditIncome ha', sub_self, ite_self, add_zero, hkept hI]
  | closingPriceSet hI => exact hm.of_same hI.window (fun i d => hkept hI i d) hI.trades
  | custodyReconciled =>
    obtain ⟨xs, n, d, f, hrest⟩ := recordDivergences_rest _ _ s
    rw [hrest]
    exact hm
  | eodMarked => exact hm

/-! ### Runs -/

/-- The event buys in money whose date is in the window. -/
def Event.RefillsCash (s : PartitionState) : Event → Prop
  | .tradeSettled e => e.RefillsCash s
  | _ => False

/-- **One step.** -/
theorem cashMatched_apply (hs : s.Sound) (hd : Dealt cal s) (hm : s.CashMatched)
    {o : Option Outbox} {ev : EventView} {st : Status} {e : Engine}
    (h : apply ⟨s, o⟩ ev = .ok (st, e)) (hday : Step.OnCalendar cal ⟨s, ev, st, e.s⟩)
    (hf : Step.Meets (fun s x => x.Faithful s) ⟨s, ev, st, e.s⟩)
    (hno : Step.Meets (fun s x => ¬ x.RefillsCash s) ⟨s, ev, st, e.s⟩) : e.s.CashMatched := by
  refine apply_invariant hs h (fun _ _ hm => hm) (fun x s' hx hst hok heff => ?_)
    (fun t s' hk => hm.of_same hk.window (fun i d => (pendingAt_kept hk :)) hk.trades)
    fun s' t r hr hstate hm' => ?_
  · refine heff.cashMatched hs hd (fun d hd' => ?_) (hf hst x hx) (fun d hd' => ?_) hm
    · subst hd'
      exact hday (hok.resolve_right Bool.false_ne_true) d hx
    · subst hd'
      exact hno hst _ hx
  · -- the trade was moved and not advanced, and is pending all the same
    intro i k
    have := hm' i k
    rw [owedCash, owed_setState cash_fixed hr (by
      rw [TradeRow.isPending, TradeRow.isPending, hstate]
      rfl)] at this
    exact this

/-- States that no event can tell apart are matched together. -/
theorem PartitionState.CashMatched.agree (hm : s.CashMatched) (h : Agree s s') :
    s'.CashMatched := by
  have hsame := h.sameState
  refine hm.of_same hsame.window.symm (fun i d => ?_) hsame.trades.symm
  rw [pendingAt, pendingAt, hsame.accounts, hsame.window]

/-- By induction on the session, with a faithful feed and no buy-in inside of the window. -/
theorem cashMatched_session {s₀ : PartitionState} (hs₀ : s₀.Sound) (hd₀ : Dealt cal s₀)
    (hm₀ : s₀.CashMatched) {steps : List Step} (h : Session s₀ steps s)
    (hdays : ∀ x ∈ steps, x.OnCalendar cal)
    (hf : ∀ x ∈ steps, x.Meets fun s y => y.Faithful s)
    (hno : ∀ x ∈ steps, x.Meets fun s y => ¬ y.RefillsCash s) : Dealt cal s ∧ s.CashMatched := by
  induction h with
  | start => exact ⟨hd₀, hm₀⟩
  | @event steps s o ev st e h happ ih =>
    have hlast : (⟨s, ev, st, e.s⟩ : Step) ∈ steps ++ [⟨s, ev, st, e.s⟩] :=
      List.mem_append_right _ (List.mem_singleton_self _)
    have hpast : ∀ {P : Step → Prop}, (∀ x ∈ steps ++ [⟨s, ev, st, e.s⟩], P x) →
        ∀ x ∈ steps, P x := fun hall x hx => hall x (List.mem_append_left _ hx)
    obtain ⟨hd, hm⟩ := ih (hpast hdays) (hpast hf) (hpast hno)
    have hs := h.sound hs₀
    refine ⟨hd.apply hs happ (fun d hd' hok => hdays _ hlast hok d hd')
      fun x hx hst => hf _ hlast hst x hx, ?_⟩
    exact cashMatched_apply hs hd hm happ (hdays _ hlast) (hf _ hlast) (hno _ hlast)
  | reload h hsave hload ih =>
    obtain ⟨hd, hm⟩ := ih hdays hf hno
    have hag := agree_of_load (h.sound hs₀) hsave hload
    exact ⟨hd.agree hag, hm.agree hag⟩

/-- In a window of the calendar no date stands twice. -/
theorem Calendar.IsWindow.datedSum_eq {w : SettlementWindow} (h : cal.IsWindow w) (f : Slots Raw)
    (k : Fin 3) : datedSum w f (w k) = (f k).toInt := by
  obtain ⟨i, h0, h1, h2⟩ := h
  have h01 := UInt32.ne_of_lt (Calendar.lt_of_lt h0 h1 (by omega))
  have h02 := UInt32.ne_of_lt (Calendar.lt_of_lt h0 h2 (by omega))
  have h12 := UInt32.ne_of_lt (Calendar.lt_of_lt h1 h2 (by omega))
  rw [datedSum, Finset.sum_filter, Fin.sum_univ_three]
  fin_cases k
  · simp [h01.symm, h02.symm]
  · simp [h01, h12.symm]
  · simp [h02, h12]

/-- A window with a date is one of the calendar. -/
theorem OnDay.isWindow (h : OnDay cal s) {k : Fin 3} (hk : s.window k ≠ 0) :
    cal.IsWindow s.window := by
  obtain ⟨hzero, -⟩ | ⟨hwin, -⟩ := h
  · rw [hzero] at hk
    exact absurd rfl hk
  · exact hwin

/-- **Pending cash.** In a session along a calendar with a faithful feed in which no money is bought
in while its date is in the window, the pending cash of every account at every date of the window
is the cash of its trades with this date that are executed, allocated or netted. -/
theorem pendingCash_of_session (cal : Calendar) {arena arena₀ : Arena} {pid : UInt16}
    {c : PartitionCapacity} {s₀ s : PartitionState}
    (hinit : blank.init arena pid c = .ok (true, s₀, arena₀)) {steps : List Step}
    (h : Session s₀ steps s) (hdays : ∀ x ∈ steps, x.OnCalendar cal)
    (hf : ∀ x ∈ steps, x.Meets fun s y => y.Faithful s)
    (hno : ∀ x ∈ steps, x.Meets fun s y => ¬ y.RefillsCash s) :
    ∀ acct a k, s.accounts[acct]? = some a → s.window k ≠ 0 →
      (a.pending k).toInt = s.owedCash acct (s.window k) := by
  have hm₀ : s₀.CashMatched := by
    obtain ⟨-, -, slots, -, rfl⟩ := init_eq_ok hinit
    exact fun _ _ => rfl
  obtain ⟨hd, hm⟩ := cashMatched_session (sound_init hinit) (dealt_init hinit) hm₀ h hdays hf hno
  intro acct a k ha hk
  have heq := hm acct k
  rw [pendingAt, ha] at heq
  exact ((hd.dates.day.isWindow hk).datedSum_eq _ k).symm.trans heq

instance (e : TradeSettled) (s : PartitionState) : Decidable (e.RefillsCash s) :=
  inferInstanceAs (Decidable (_ ∧ _ ∧ _))

instance (s : PartitionState) : ∀ x : Event, Decidable (x.RefillsCash s)
  | .tradeSettled e => inferInstanceAs (Decidable (e.RefillsCash s))
  | .dayOpened _ | .tradeExecuted _ | .tradeAllocated _ | .batchNetted _
  | .corporateActionApplied _ | .dividendPaid _ | .closingPriceSet _ | .custodyReconciled _ _
  | .eodMarked _ => inferInstanceAs (Decidable False)

/-- The purchase of `boughtOne` at a price that is worth something. -/
def boughtDear : TradeExecuted := { boughtOne with price := 100000000 }

/-- The purchase is allocated, netted, and not delivered. -/
def undelivered : List Event :=
  [.closingPriceSet quoted, .dayOpened firstDay, .tradeExecuted boughtDear,
    .tradeAllocated ⟨1, 1, 1, 10000, 0, 20260903, 1⟩, .batchNetted ⟨1, -1, 20260903, 1⟩,
    .tradeSettled ⟨1, 10000, -1, 0, 1, 20260903, 1, 2⟩]

/-- A purchase that is allocated, netted and not delivered. -/
theorem pendingCash_of_session_undelivered :
    ∃ s₀ arena₀ s steps, blank.init ⟨2 ^ 16, 0, false, false⟩ 1 ⟨2, 2, 2, 2, 2, 2, 2, 2, 60⟩ =
        .ok (true, s₀, arena₀) ∧ Session s₀ steps s ∧ (∀ x ∈ steps, x.st = .kOk) ∧
      ∀ acct a k, s.accounts[acct]? = some a → s.window k ≠ 0 →
        (a.pending k).toInt = s.owedCash acct (s.window k) := by
  obtain ⟨s₀, arena₀, s, steps, hinit, h, hsteps, -⟩ := @exists_of_passes
    ⟨2, 2, 2, 2, 2, 2, 2, 2, 60⟩ undelivered
    (fun x => decide (x.st = .kOk ∧ x.OnCalendar threeDays ∧
      (x.Meets fun s y => y.Faithful s) ∧ x.Meets fun s y => ¬ y.RefillsCash s))
    (fun _ => true) (by decide +kernel)
  replace hsteps := fun x hx => of_decide_eq_true (hsteps x hx)
  exact ⟨s₀, arena₀, s, steps, hinit, h, fun x hx => (hsteps x hx).1,
    pendingCash_of_session threeDays hinit h (fun x hx => (hsteps x hx).2.1)
      (fun x hx => (hsteps x hx).2.2.1) fun x hx => (hsteps x hx).2.2.2⟩

/-- Bought in on its day, the trade of `undelivered` is netted again, and nothing is pending. -/
theorem not_forall_pendingCash :
    ¬ ∀ (cal : Calendar) (arena arena₀ : Arena) (pid : UInt16) (c : PartitionCapacity)
        (s₀ s : PartitionState) (steps : List Step),
          blank.init arena pid c = .ok (true, s₀, arena₀) →
      Session s₀ steps s → (∀ x ∈ steps, x.OnCalendar cal) →
      (∀ x ∈ steps, x.Meets fun s y => y.Faithful s) →
      ∀ acct a k, s.accounts[acct]? = some a → s.window k ≠ 0 →
        (a.pending k).toInt = s.owedCash acct (s.window k) := by
  intro hall
  obtain ⟨s₀, arena₀, s, steps, hinit, h, hsteps, hend⟩ := @exists_of_passes
    ⟨2, 2, 2, 2, 2, 2, 2, 2, 60⟩
    (undelivered ++ [.tradeSettled ⟨1, 10000, -1, 0, 1, 20260903, 1, 3⟩])
    (fun x => decide (x.OnCalendar threeDays ∧ x.Meets fun s y => y.Faithful s))
    (fun s => decide (s.window 2 = 20260903 ∧ (s.accounts[0]?).map
      (fun a : AccountRow => (a.pending 2).toInt) = some 0 ∧ s.owedCash 0 20260903 = -1))
    (by decide +kernel)
  replace hsteps := fun x hx => of_decide_eq_true (hsteps x hx)
  obtain ⟨hwin, hpend, howed⟩ := of_decide_eq_true hend
  obtain ⟨a, ha, hzero⟩ := Option.map_eq_some_iff.mp hpend
  have heq := hall threeDays _ _ _ _ _ _ _ hinit h (fun x hx => (hsteps x hx).1)
    (fun x hx => (hsteps x hx).2) 0 a 2 ha (by rw [hwin]; decide)
  rw [hwin, howed, hzero] at heq
  cases heq

end MotorRv
