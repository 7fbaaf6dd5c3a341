import MotorRv.Core.Interning
import MotorRv.Core.Limits
import MotorRv.Core.Pending

/-!
# Incomes in two stages

An income is accrued, and later paid under the same action. The set of the incomes that were
applied has one key for both stages. The payment of an accrued income therefore goes through only
after the set has forgotten the key of the accrual, which takes two rotations, and is answered
`AlreadyApplied` until then. The table of accounts has to have a free row as well, since a table
that is exactly full answers no account.

`GoesThrough` states what a payment should do once: accepted and paid when presented first, from
what is receivable to the cash of the account, and `AlreadyApplied` when presented again.
`goesThrough_iff` is about the state at the end of any session that accepted the accrual, with
reloads anywhere, and the condition is on that state: the key has been forgotten, and the table of
accounts is not exactly full. That the set has room for one more key, and the cash of the account
for the amount, are hypotheses.

That the key is forgotten in the end and not before is `Retained`, applied to the accrual. The
condition can be met, on the third day of a session whose days lie a window apart, and fails on
every day before that.
-/

namespace MotorRv

open Lib PartitionState Apply

/-! ### Columns of an account -/

/-- The row of an account. -/
def PartitionState.accountOf (s : PartitionState) (doc : UInt64) : Option AccountRow :=
  s.accounts.find? fun a => a.document = doc

/-- The incomes that an account is to receive; none without a row. -/
def PartitionState.receivable (s : PartitionState) (doc : UInt64) : ℤ :=
  (s.accountOf doc).elim 0 fun a => a.incomeReceivable.toInt

variable {s s₁ s' : PartitionState} {doc : UInt64}

/-- The account of a document is found in its row. -/
theorem accountOf_eq (hnd : s.accountKeys.Nodup) {i : ℕ} {a : AccountRow}
    (ha : s.accounts[i]? = some a) (hdoc : a.document = doc) : s.accountOf doc = some a := by
  have hkey : ∀ {j : ℕ} {b : AccountRow}, s.accounts[j]? = some b → b.document = doc →
      s.accountKeys[j]? = some doc := by
    rintro j b hb rfl
    rw [accountKeys, List.getElem?_map, hb]
    rfl
  rcases hf : s.accountOf doc with _ | b
  · have hno := List.find?_eq_none.mp hf a (List.mem_of_getElem? ha)
    simp [hdoc] at hno
  · obtain ⟨j, hj⟩ := List.mem_iff_getElem?.mp (List.mem_of_find?_eq_some hf)
    have hkj := hkey hj (by simpa using List.find?_some hf)
    obtain ⟨hlt, -⟩ := List.getElem?_eq_some_iff.mp hkj
    obtain rfl := (List.getElem?_inj hlt hnd).mp (hkj.trans (hkey ha hdoc).symm)
    exact hj.symm.trans ha

/-- What an account is still to receive is in its row. -/
theorem receivable_eq (hnd : s.accountKeys.Nodup) {i : ℕ} {a : AccountRow}
    (ha : s.accounts[i]? = some a) (hdoc : a.document = doc) :
    s.receivable doc = a.incomeReceivable.toInt := by
  rw [receivable, accountOf_eq hnd ha hdoc]
  rfl

/-- A new row is to receive nothing. -/
theorem Interned.receivable (hI : Interned s s₁) (doc : UInt64) :
    s₁.receivable doc = s.receivable doc := by
  obtain ⟨new, hnew, hcleared⟩ := hI.accounts
  rw [PartitionState.receivable, PartitionState.receivable, accountOf, accountOf, hnew,
    List.find?_append]
  rcases s.accounts.find? _ with _ | a
  · rw [Option.none_or]
    rcases hf : new.find? fun a => a.document = doc with _ | a
    · rw [hf]
    · obtain ⟨doc', rfl⟩ := hcleared a (List.mem_of_find?_eq_some hf)
      rw [hf]
      rfl
  · rfl

/-! ### The two stages -/

/-- `p` pays what `e` accrues: the other stage of one action, with the account and the amounts of
the accrual. -/
structure DividendPaid.Pays (p e : DividendPaid) : Prop where
  accrued : e.stage = kStageAccrued
  paid : p.stage = kStagePaid
  actionId : p.actionId = e.actionId
  account : p.account = e.account
  qtyBasis : p.qtyBasis = e.qtyBasis
  ratePerShare : p.ratePerShare = e.ratePerShare
  grossAmount : p.grossAmount = e.grossAmount
  withheldTax : p.withheldTax = e.withheldTax
  netAmount : p.netAmount = e.netAmount

/-- The checks that look at the amounts only. -/
structure DividendPaid.Checked (e : DividendPaid) : Prop where
  net : Fixed.sub e.grossAmount e.withheldTax = .ok e.netAmount
  range : qtyInRange e.qtyBasis = true ∧ moneyInRange e.ratePerShare = true
  expected : ∃ x, mulDiv .halfEven e.qtyBasis e.ratePerShare kQtyOne = .ok x ∧
    ¬ (100 < e.grossAmount - x ∨ e.grossAmount - x < -100)

/-- A payment of an income that passes the checks passes them. -/
theorem DividendPaid.Pays.checked {p e : DividendPaid} (h : p.Pays e) (he : e.Checked) :
    p.Checked := by
  obtain ⟨hnet, hrange, hexp⟩ := he
  exact ⟨by rw [h.grossAmount, h.withheldTax, h.netAmount]; exact hnet,
    by rw [h.qtyBasis, h.ratePerShare]; exact hrange,
    by rw [h.qtyBasis, h.ratePerShare, h.grossAmount]; exact hexp⟩

/-- The key of both stages. -/
def DividendPaid.key (e : DividendPaid) : UInt64 × UInt64 := (e.actionId, e.account)

/-- A payment has the key of what it pays. -/
theorem DividendPaid.Pays.key {p e : DividendPaid} (h : p.Pays e) : p.key = e.key := by
  rw [DividendPaid.key, DividendPaid.key, h.actionId, h.account]

/-- A record that stands for an income has its template and is complete. -/
theorem dividendPaid_of_event {ev : EventView} {p : DividendPaid}
    (h : LogRecord.event ev = some (.dividendPaid p)) :
    Tmpl.ofId ev.tmpl.toNat = some .dividendPaid ∧
      Tmpl.dividendPaid.blockLength ≤ ev.payload.length ∧ DividendPaid.ofBytes ev.payload = p := by
  rw [LogRecord.event] at h
  rcases ht : Tmpl.ofId ev.tmpl.toNat with _ | t <;> rw [ht] at h
  · cases h
  · dsimp only at h
    split_ifs at h with hlen
    cases t <;> simp only [Event.ofPayload, Option.some.injEq, reduceCtorEq] at h
    · exact ⟨rfl, hlen, Event.dividendPaid.inj h⟩
    · split at h <;> cases h

/-! ### What an income is answered -/

section Answers

variable {o : Option Outbox} {ev : EventView} {p : DividendPaid}

/-- An income is applied by its handler. -/
theorem apply_dividendPaid (hev : LogRecord.event ev = some (.dividendPaid p))
    {r : Except Status PUnit} {eng : Engine} (h : applyDividendPaid ev ⟨s, o⟩ = .ok (r, eng)) :
    apply ⟨s, o⟩ ev =
      .ok (statusOf r, { eng with s := { eng.s with appliedLsn := UInt64.ofNat ev.lsn } }) := by
  have hdisp : Apply.dispatch ev = applyDividendPaid ev := by
    rw [Apply.dispatch, (dividendPaid_of_event hev).1]
    rfl
  rw [apply, hdisp, h]
  rfl

/-- A changed account takes the place of the old row. -/
theorem modAccount_value {i : ℕ} {a a' : AccountRow} {f : AccountRow → Exec AccountRow}
    (ha : s.accounts[i]? = some a) (hf : f a = .ok a') :
    modAccount i f ⟨s, o⟩ = .ok (.ok ⟨⟩, ⟨{ s with accounts := s.accounts.set i a' }, o⟩) := by
  have hrow : modRow s.accounts i f = .ok (s.accounts.set i a') :=
    modRow_eq_ok.mpr ⟨a, a', ha, hf, rfl⟩
  simp only [modAccount, change, Proc.update, hrow]
  rfl

/-- An income that is accepted has passed the checks of its amounts. -/
theorem checked_of_accepted (hs : s.Sound) {st : Status} {eng : Engine}
    (hev : LogRecord.event ev = some (.dividendPaid p))
    (happ : apply ⟨s, o⟩ ev = .ok (st, eng)) (hst : st.isOk = true) : p.Checked := by
  obtain ⟨ht, -, rfl⟩ := dividendPaid_of_event hev
  -- the handler ends early wherever a check fails, so at its end all have passed
  have hfrom : Proc.From ⟨s, o⟩ (applyDividendPaid ev)
      (fun _ _ => (DividendPaid.ofBytes ev.payload).Checked) fun st _ => st.isOk = false := by
    refine from_decode rfl fun _ => ?_
    refine from_account hs rfl fun acct s₁ hI _ => ?_
    refine Proc.From.query fun net hnet => ?_
    refine Proc.From.guard (fun _ => rfl) fun hnet' => ?_
    refine Proc.From.guard (fun _ => rfl) fun hrange => ?_
    refine Proc.From.query fun x hx => ?_
    refine Proc.From.bind (R :=
      fun _ _ => ¬ (100 < (DividendPaid.ofBytes ev.payload).grossAmount - x ∨
      (DividendPaid.ofBytes ev.payload).grossAmount - x < -100)) ?_ fun _ _ hdiff => ?_
    · split_ifs with hdiff
      · exact from_change fun _ _ => Proc.From.fail rfl
      · exact Proc.From.pure hdiff
    refine Proc.From.bind (R := fun _ _ => True) ?_ fun _ eng _ => ?_
    · refine from_ask rfl ?_
      rcases ((PartitionState.appliedIncome _).insert _ acct).1 with v | _ | _
      · exact Proc.From.fail rfl
      · exact Proc.From.pure trivial
      · exact Proc.From.fail rfl
    · exact from_lastChange fun _ _ => ⟨hnet' ▸ hnet, hrange, x, hx, hdiff⟩
  simp only [apply, bind, except_bind_eq_ok] at happ
  obtain ⟨⟨r, e₁⟩, hd, happ⟩ := happ
  obtain ⟨hr, -⟩ := Prod.mk.inj (Except.ok.inj happ)
  have hdisp : Apply.dispatch ev = applyDividendPaid ev := by
    rw [Apply.dispatch, ht]
    rfl
  rw [hdisp] at hd
  rcases r with st' | u
  · obtain rfl : st' = st := hr
    rw [hfrom.error hd] at hst
    cases hst
  · exact hfrom.ok hd

/-- In a full table of accounts no income is accepted. -/
theorem income_of_full (hs : s.Sound) (hfull : s.cap.accounts.toNat ≤ s.accounts.length)
    (hev : LogRecord.event ev = some (.dividendPaid p)) :
    ∃ eng, apply ⟨s, o⟩ ev = .ok (.fail .arenaExhausted, eng) := by
  obtain ⟨ht, hlen, rfl⟩ := dividendPaid_of_event hev
  have hkeys : (InternTable.accounts.keys s).length = s.accounts.length := List.length_map _
  have hint : s.internAccount (DividendPaid.ofBytes ev.payload).account = (none, s) :=
    (InternTable.lawful_accounts hs).intern_full (by rw [hkeys]; exact hfull) trivial
  have hrun : applyDividendPaid ev ⟨s, o⟩ = .ok (.error (.fail .arenaExhausted), ⟨s, o⟩) := by
    refine (bind_value (decode_eq_ok.mpr ⟨rfl, .inl ⟨hlen, rfl⟩⟩)).trans ?_
    exact bind_error ((bind_value (ask_value hint)).trans rfl)
  exact ⟨_, apply_dividendPaid hev hrun⟩

/-- A known account and amounts in order leave the key and the row to be looked at. -/
theorem applyDividendPaid_checked (hs : s.Sound) (hopen : InternTable.accounts.Open s) {i : ℕ}
    (hi : s.accountKeys[i]? = some p.account) (hp : p.Checked)
    (hev : LogRecord.event ev = some (.dividendPaid p)) :
    applyDividendPaid ev ⟨s, o⟩ =
      (consumeIncome p.actionId i >>= fun _ => modAccount i (creditIncome p)) ⟨s, o⟩ := by
  obtain ⟨ht, hlen, rfl⟩ := dividendPaid_of_event hev
  obtain ⟨hnet, hrange, x, hx, hdiff⟩ := hp
  have hint : s.internAccount (DividendPaid.ofBytes ev.payload).account = (some i, s) := by
    obtain hnil | hlt := hopen
    · rw [show s.accountKeys = [] from hnil] at hi
      cases hi
    · exact (InternTable.lawful_accounts hs).intern_known hlt hi
  refine (bind_value (decode_eq_ok.mpr ⟨rfl, .inl ⟨hlen, rfl⟩⟩)).trans ?_
  refine (bind_value ((bind_value (ask_value hint)).trans rfl)).trans ?_
  refine (bind_value (lift_value hnet)).trans ?_
  refine (bind_value (guard_value rfl)).trans ?_
  refine (bind_value (guard_value hrange)).trans ?_
  refine (bind_value (lift_value hx)).trans ?_
  rw [if_neg hdiff]
  exact bind_value rfl

/-- **A new key.** The income is accepted and credited. -/
theorem income_accepted (hs : s.Sound) (hopen : InternTable.accounts.Open s) {i : ℕ}
    {a a' : AccountRow} (ha : s.accounts[i]? = some a) (hdoc : a.document = p.account)
    (hp : p.Checked) (hev : LogRecord.event ev = some (.dividendPaid p))
    (hadded : (s.appliedIncome.insert p.actionId i).1 = .added) (ha' : creditIncome p a = .ok a') :
    apply ⟨s, o⟩ ev = .ok (.kOk, ⟨{ s with
      accounts := s.accounts.set i a'
      appliedIncome := (s.appliedIncome.insert p.actionId i).2
      appliedLsn := UInt64.ofNat ev.lsn }, o⟩) := by
  have hi : s.accountKeys[i]? = some p.account := by
    rw [accountKeys, List.getElem?_map, ha, ← hdoc]
    rfl
  have hinsert : consumeIncome p.actionId i ⟨s, o⟩ = .ok (.ok ⟨⟩, ⟨{ s with
      appliedIncome := (s.appliedIncome.insert p.actionId i).2 }, o⟩) := by
    refine (bind_value (ask_value rfl)).trans ?_
    rw [hadded]
    rfl
  have hrun : applyDividendPaid ev ⟨s, o⟩ = .ok (.ok ⟨⟩, ⟨{ s with
      accounts := s.accounts.set i a'
      appliedIncome := (s.appliedIncome.insert p.actionId i).2 }, o⟩) := by
    rw [applyDividendPaid_checked hs hopen hi hp hev]
    exact (bind_value hinsert).trans (modAccount_value ha ha')
  exact apply_dividendPaid hev hrun

/-- **A known key.** The income is turned down and nothing is credited. -/
theorem income_repeated (hs : s.Sound) (hopen : InternTable.accounts.Open s) {i : ℕ}
    (hi : s.accountKeys[i]? = some p.account) (hp : p.Checked)
    (hev : LogRecord.event ev = some (.dividendPaid p))
    (hknown : s.appliedIncome.contains p.actionId i = true) :
    apply ⟨s, o⟩ ev = .ok (.fail .alreadyApplied p.actionId.toUInt32,
      ⟨{ s with appliedLsn := UInt64.ofNat ev.lsn }, o⟩) := by
  have hins : s.appliedIncome.insert p.actionId i = (.present (), s.appliedIncome) := if_pos hknown
  have hrefused : consumeIncome p.actionId i ⟨s, o⟩ =
      .ok (.error (.fail .alreadyApplied p.actionId.toUInt32), ⟨s, o⟩) := by
    refine (bind_value (ask_value rfl)).trans ?_
    rw [hins]
    rfl
  have hrun : applyDividendPaid ev ⟨s, o⟩ =
      .ok (.error (.fail .alreadyApplied p.actionId.toUInt32), ⟨s, o⟩) := by
    rw [applyDividendPaid_checked hs hopen hi hp hev]
    exact bind_error hrefused
  exact apply_dividendPaid hev hrun

end Answers

/-! ### The key between the stages -/

section Key

variable {κ : KeyKind} {key : UInt64 × UInt64} {steps : List Step}

/-- **Retention** over a session: what was put in on the day `d` is not accepted again before the
window has passed. -/
theorem Retained.session {s₀ : PartitionState} {d : DateYmd} (h : Session s₀ steps s)
    (hs₀ : s₀.Sound) (hdate : Dated s₀) (hret : Retained κ key d s₀)
    (hdays : ∀ x ∈ steps, ∀ e, LogRecord.event x.ev = some (.dayOpened e) →
      IsCalendarDate e.businessDate) :
    Dated s ∧ Retained κ key d s ∧ s.cap = s₀.cap ∧
      ∀ x ∈ steps, x.keyOf κ = some key → x.st.isOk = true →
        s₀.cap.idempotencyWindowDays.toInt ≤ dayIndex x.before.businessDate - dayIndex d := by
  induction h with
  | start => exact ⟨hdate, hret, rfl, by simp⟩
  | @event steps s o ev st e h happ ih =>
    obtain ⟨hdated, hretained, hcap, honce⟩ := ih fun x hx => hdays x (List.mem_append_left _ hx)
    have hday := hdays ⟨s, ev, st, e.s⟩ (List.mem_append_right _ (List.mem_singleton_self _))
    have hs := h.sound hs₀
    have hans := answered_apply hs happ κ
    refine ⟨hans.dated hdated hday,
      hretained.step hs hdated hans.step hans.accounts hans.cap hday, hans.cap.trans hcap, ?_⟩
    intro x hx hkey hok
    obtain hx | hx := List.mem_append.mp hx
    · exact honce x hx hkey hok
    · obtain rfl := List.mem_singleton.mp hx
      obtain ⟨row, hput⟩ := hans.new hok key hkey
      have hnot := hput.not_remembers (sound_apply hs happ) hans.accounts
      obtain hin | ⟨hin, -⟩ | hwin := hretained.held
      · exact absurd (remembers_iff.mpr ⟨_, hin⟩) hnot
      · exact absurd (remembers_iff.mpr ⟨_, hin⟩) hnot
      · exact hcap ▸ hwin
  | @reload steps s room image target arena arena' t h hsave hload ih =>
    obtain ⟨hdated, hretained, hcap, honce⟩ := ih hdays
    have hag := agree_of_load (h.sound hs₀) hsave hload
    refine ⟨?_, hretained.agree hag, hag.sameState.cap.symm.trans hcap, honce⟩
    rw [Dated, ← hag.sameState.businessDate]
    exact hdated

end Key

/-! ### Paying an accrued income -/

/-- The current generation has room for one more income. -/
def IncomeRoom (s : PartitionState) : Prop :=
  (s.appliedIncome.gen s.appliedIncome.current).size <
    loadLimit (s.appliedIncome.gen s.appliedIncome.current).slots.length

/-- The payment `p` was made in the step from `s` to `t`: the net amount went from the incomes
receivable to the cash of its account and no other row of the accounts changed, so that what the
accrual `x` put into the incomes receivable is out again; the payment presented again moves nothing,
and no session accepts it a second time before the window has passed. -/
structure PaidOnce (x : Step) (p : DividendPaid) (s t : PartitionState) : Prop where
  row : ∃ (i : ℕ) (a : AccountRow) (r m : Raw), s.accounts[i]? = some a ∧ a.document = p.account ∧
    t.accounts = s.accounts.set i { a with incomeReceivable := r, cash := m } ∧
    r.toInt = a.incomeReceivable.toInt - p.netAmount.toInt ∧
    m.toInt = a.cash.toInt + p.netAmount.toInt
  pair : (x.after.receivable p.account - x.before.receivable p.account) +
    (t.receivable p.account - s.receivable p.account) = 0
  again : ∀ (o : Option Outbox) (ev : EventView), LogRecord.event ev = some (.dividendPaid p) →
    ∃ d e, apply ⟨t, o⟩ ev = .ok (.fail .alreadyApplied d, e) ∧ e.s.accounts = t.accounts
  window : ∀ (later : List Step) (u : PartitionState), Session t later u → Dated t →
    (∀ y ∈ later, ∀ e, LogRecord.event y.ev = some (.dayOpened e) →
      IsCalendarDate e.businessDate) →
    ∀ y ∈ later, y.keyOf .income = some p.key → y.st.isOk = true →
      t.cap.idempotencyWindowDays.toInt ≤
        dayIndex y.before.businessDate - dayIndex t.businessDate

/-- Every presentation of the payment `p` of what `x` accrued makes the payment, once. -/
def GoesThrough (x : Step) (p : DividendPaid) (s : PartitionState) : Prop :=
  ∀ (o : Option Outbox) (ev : EventView), LogRecord.event ev = some (.dividendPaid p) →
    ∃ e, apply ⟨s, o⟩ ev = .ok (.kOk, e) ∧ PaidOnce x p s e.s

/-- An accrual that is accepted is in the incomes receivable of its account. -/
theorem receivable_of_accrued {o : Option Outbox} {ev : EventView} {st : Status} {eng : Engine}
    {e : DividendPaid} (hs : s.Sound) (hev : LogRecord.event ev = some (.dividendPaid e))
    (happ : apply ⟨s, o⟩ ev = .ok (st, eng)) (hst : st.isOk = true)
    (hstage : e.stage = kStageAccrued) :
    e.account ∈ eng.s.accountKeys ∧
      eng.s.receivable e.account = s.receivable e.account + e.netAmount.toInt := by
  have hsound := sound_apply hs happ
  obtain ⟨s', hs', ⟨rfl, x, hx, heff⟩ | hend⟩ := apply_cases hs happ
  · obtain rfl := Option.some.inj (hx.symm.trans hev)
    cases heff with
    | @dividendPaid _ s₁ a a' acct hI hacct hnet hkey hins ha ha' =>
      rw [creditIncome, if_pos hstage] at ha'
      obtain ⟨r, hr, ha'⟩ := except_bind_eq_ok.mp ha'
      obtain rfl := Except.ok.inj ha'
      have hdoc : a.document = e.account := by
        rw [accountKeys, List.getElem?_map, ha] at hacct
        exact Option.some.inj hacct
      have hkeys : eng.s.accountKeys = s₁.accountKeys :=
        accountKeys_set ha (show ({ a with incomeReceivable := r } : AccountRow).document =
          _ from rfl)
          (by rw [hs'])
      have hnd := hsound.accounts.index.nodup
      have hrow : eng.s.accounts[acct]? = some { a with incomeReceivable := r } := by
        rw [hs']
        exact List.getElem?_set_self (List.getElem?_eq_some_iff.mp ha).1
      refine ⟨hkeys ▸ List.mem_of_getElem? hacct, ?_⟩
      rw [receivable_eq hnd hrow hdoc, ← hI.receivable, receivable_eq (hkeys ▸ hnd) ha hdoc]
      exact Fixed.add_eq_ok hr
  · rw [hend.isOk_eq_false] at hst
    cases hst

/-- A payment moves money from what is to be received to cash. -/
theorem creditIncome_paid {p : DividendPaid} {a : AccountRow} (hp : p.stage = kStagePaid)
    (h : p.FitsCash a) : ∃ r m : Raw, r.toInt = a.incomeReceivable.toInt - p.netAmount.toInt ∧
      m.toInt = a.cash.toInt + p.netAmount.toInt ∧
      creditIncome p a = .ok { a with incomeReceivable := r, cash := m } := by
  have hstage : p.stage ≠ kStageAccrued := by
    rw [hp]
    decide
  rw [DividendPaid.FitsCash, if_neg hstage] at h
  refine ⟨_, _, toInt_of_fits h.1, toInt_of_fits h.2, ?_⟩
  rw [creditIncome, if_neg hstage, Fixed.sub, Fixed.add, checkedRaw_of_fits h.1,
    checkedRaw_of_fits h.2]
  rfl

/-- A new pair is added where the current generation has room. -/
theorem TwoGenSet.insert_eq_added {t : TwoGenSet} {n : ℕ} (h : t.Sound n) {hi : UInt64} {lo : ℕ}
    (hnew : t.contains hi lo = false)
    (hroom : (t.gen t.current).size < loadLimit (t.gen t.current).slots.length) :
    (t.insert hi lo).1 = .added := by
  have hg := h.gen t.current
  have hcur : OpenTable.find PairIndex.home (t.gen t.current) (hi, lo) = none := by
    simp only [TwoGenSet.contains, Bool.or_eq_false_iff, PairIndex.contains,
      Option.isSome_eq_false_iff, Option.isNone_iff_eq_none] at hnew
    exact hnew.1
  obtain ⟨u, hu, -⟩ := OpenTable.insert_added hg.wf (slotCount_eq_some hg.slots).2.2 hroom hcur ()
  simp only [TwoGenSet.insert, hnew, Bool.false_eq_true, if_false, PairIndex.insert, hu]

/-- What an accepted payment has done. -/
theorem paidOnce {x : Step} {p : DividendPaid} {i : ℕ} {a : AccountRow} {r m : Raw} {n : UInt64}
    (hs : s.Sound) (hopen : InternTable.accounts.Open s) (ha : s.accounts[i]? = some a)
    (hdoc : a.document = p.account) (hchecked : p.Checked)
    (hadded : (s.appliedIncome.insert p.actionId i).1 = .added)
    (hr : r.toInt = a.incomeReceivable.toInt - p.netAmount.toInt)
    (hm : m.toInt = a.cash.toInt + p.netAmount.toInt)
    (hs' : PartitionState.Sound { s with
      accounts := s.accounts.set i { a with incomeReceivable := r, cash := m }
      appliedIncome := (s.appliedIncome.insert p.actionId i).2
      appliedLsn := n })
    (haccrued : x.after.receivable p.account - x.before.receivable p.account =
      p.netAmount.toInt) :
    PaidOnce x p s { s with
      accounts := s.accounts.set i { a with incomeReceivable := r, cash := m }
      appliedIncome := (s.appliedIncome.insert p.actionId i).2
      appliedLsn := n } := by
  set a' : AccountRow := { a with incomeReceivable := r, cash := m } with ha'
  set t : PartitionState := { s with
    accounts := s.accounts.set i a'
    appliedIncome := (s.appliedIncome.insert p.actionId i).2
    appliedLsn := n } with ht
  have hkeys : t.accountKeys = s.accountKeys :=
    accountKeys_set ha (show a'.document = a.document from rfl) rfl
  have hrow : t.accounts[i]? = some a' :=
    List.getElem?_set_self (List.getElem?_eq_some_iff.mp ha).1
  have hi : t.accountKeys[i]? = some p.account := by
    rw [accountKeys, List.getElem?_map, hrow, ← hdoc]
    rfl
  -- the accrual put the key in, for the account of its row
  have hput : Put .income s t p.key i := ⟨hi, hadded, rfl, rfl⟩
  refine ⟨⟨i, a, r, m, ha, hdoc, rfl, hr, hm⟩, ?_, ?_, ?_⟩
  · rw [haccrued, receivable_eq hs'.accounts.index.nodup hrow hdoc,
      receivable_eq hs.accounts.index.nodup ha hdoc]
    show _ + (r.toInt - _) = _
    rw [hr]
    ring
  · intro o ev hev
    have hopen' : InternTable.accounts.Open t := by
      refine hopen.imp ?_ ?_
      · exact fun hnil => hkeys.trans hnil
      · exact fun hlt => lt_of_eq_of_lt (congrArg List.length hkeys) hlt
    -- so the payment, which has the same key, finds it
    have hknown : t.appliedIncome.contains p.actionId i = true := by
      obtain ⟨row, hrow, hin⟩ := remembers_iff.mpr ⟨_, hput.remembers hs⟩
      obtain rfl := hs'.account_inj hrow hi
      exact hin
    exact ⟨_, _, income_repeated hs' hopen' hi hchecked hev hknown, rfl⟩
  · intro later u hlater hdated hdays
    exact (Retained.session hlater hs' hdated (hput.retained hs) hdays).2.2.2

/-- A payment whose key the set has is not accepted. -/
theorem GoesThrough.forgot {x : Step} {p : DividendPaid} (hs : s.Sound) (h : GoesThrough x p s) :
    ¬ Remembers .income s p.key := by
  have hrec : LogRecord.event (Event.record 0 (.dividendPaid p)) = some (.dividendPaid p) :=
    LogRecord.event_record (x := .dividendPaid p) trivial 0
  obtain ⟨e, happ, -⟩ := h none _ hrec
  have hans := answered_apply hs happ .income
  obtain ⟨row, hput⟩ := hans.new rfl p.key (by rw [hrec]; rfl)
  exact hput.not_remembers (sound_apply hs happ) hans.accounts

/-- **The payment of an accrued income.** At the end of a session that has accepted the accrual, the
payment goes through exactly when the set of incomes has forgotten the key of the accrual and the
table of accounts is not exactly full. -/
theorem goesThrough_iff {arena arena₀ : Arena} {pid : UInt16} {c : PartitionCapacity}
    {s₀ : PartitionState} {steps : List Step} {x : Step} {e p : DividendPaid}
    (hinit : blank.init arena pid c = .ok (true, s₀, arena₀)) (h : Session s₀ steps s)
    (hx : x ∈ steps) (hev : LogRecord.event x.ev = some (.dividendPaid e))
    (hst : x.st.isOk = true) (hpays : p.Pays e) (hroom : IncomeRoom s)
    (hfits : ∀ a ∈ s.accountOf p.account, p.FitsCash a) :
    GoesThrough x p s ↔ ¬ Remembers .income s p.key ∧ InternTable.accounts.Open s := by
  have hs₀ := sound_init hinit
  have hs := h.sound hs₀
  obtain ⟨hbefore, o, eng, happ, hafter⟩ := h.applied hs₀ hx
  have hchecked := hpays.checked (checked_of_accepted hbefore hev happ hst)
  obtain ⟨hmem, haccrued⟩ := receivable_of_accrued hbefore hev happ hst hpays.accrued
  rw [← hafter, ← hpays.account] at hmem haccrued
  rw [← hpays.netAmount] at haccrued
  have hknown : p.account ∈ s.accountKeys := (h.keepsKeys hs₀ hx).accounts.subset hmem
  obtain ⟨i, hi⟩ := List.mem_iff_getElem?.mp hknown
  have hrec : LogRecord.event (Event.record 0 (.dividendPaid p)) = some (.dividendPaid p) :=
    LogRecord.event_record (x := .dividendPaid p) trivial 0
  constructor
  · intro hgo
    obtain ⟨e', happ', hpaid⟩ := hgo none _ hrec
    refine ⟨hgo.forgot hs, ?_⟩
    -- a full table refuses even an account it has
    · by_contra hclosed
      have hfull : s.cap.accounts.toNat ≤ s.accounts.length := by
        have hlt := mt Or.inr hclosed
        simpa [InternTable.accounts, accountKeys] using hlt
      obtain ⟨eng', hrefused⟩ := income_of_full (o := none) hs hfull hrec
      rw [happ'] at hrefused
      cases hrefused
  · rintro ⟨hforgot, hopen⟩ o ev hpay
    obtain ⟨a, ha, hdoc⟩ : ∃ a, s.accounts[i]? = some a ∧ a.document = p.account := by
      rw [accountKeys, List.getElem?_map, Option.map_eq_some_iff] at hi
      exact hi
    have hfit := hfits a (accountOf_eq hs.accounts.index.nodup ha hdoc)
    -- the payment moves the amount from what is receivable to the money
    obtain ⟨r, m, hr, hm, hcredit⟩ := creditIncome_paid hpays.paid hfit
    have hnew : s.appliedIncome.contains p.actionId i = false := by
      by_contra hin
      exact hforgot ⟨i, hi, Bool.not_eq_false _ ▸ hin⟩
    have hadded := TwoGenSet.insert_eq_added hs.income hnew hroom
    have hacc := income_accepted (o := o) hs hopen ha hdoc hchecked hpay hadded hcredit
    exact ⟨_, hacc, paidOnce hs hopen ha hdoc hchecked hadded hr hm (sound_apply hs hacc)
      (by rw [haccrued]; ring)⟩

/-- An income of one unit of money for a position of nothing. -/
def accruedOne : DividendPaid := ⟨7, 1, 0, 0, 1, 0, 1, 1, 20260901, kStageAccrued⟩

def paidOne : DividendPaid := { accruedOne with stage := kStagePaid }

theorem paidOne_pays : paidOne.Pays accruedOne := ⟨rfl, rfl, rfl, rfl, rfl, rfl, rfl, rfl, rfl⟩

/-- The step accepts the accrual of `accruedOne`. -/
def Step.accruesOne (x : Step) : Bool :=
  decide (x.ev.tmpl = 7) && decide (x.ev.payload = accruedOne.encode) && x.st.isOk

/-- The step accrues the income. -/
theorem Step.event_of_accruesOne {x : Step} (h : x.accruesOne = true) :
    LogRecord.event x.ev = some (.dividendPaid accruedOne) ∧ x.st.isOk = true := by
  obtain ⟨h, hok⟩ := Bool.and_eq_true_iff.mp h
  obtain ⟨htmpl, hpayload⟩ := Bool.and_eq_true_iff.mp h
  refine ⟨?_, hok⟩
  rw [← LogRecord.event_record (x := .dividendPaid accruedOne) trivial 0, LogRecord.event,
    LogRecord.event, of_decide_eq_true htmpl, of_decide_eq_true hpayload]
  rfl

/-- The payment on the day of the accrual is not accepted. -/
theorem not_forall_goesThrough :
    ¬ ∀ arena pid c s₀ arena₀ steps s x e p, blank.init arena pid c = .ok (true, s₀, arena₀) →
      Session s₀ steps s → x ∈ steps → LogRecord.event x.ev = some (.dividendPaid e) →
      x.st.isOk = true → p.Pays e →
      (∀ y ∈ steps, ∀ q, LogRecord.event y.ev = some (.dividendPaid q) → y.st.isOk = true →
        q.key = p.key → q.stage = kStageAccrued) →
      IncomeRoom s → (∀ a ∈ s.accountOf p.account, p.FitsCash a) → GoesThrough x p s := by
  intro hall
  obtain ⟨s₀, arena₀, s, steps, hinit, h, hrun⟩ := @exists_of_runPasses
    ⟨2, 2, 2, 2, 2, 2, 2, 2, 60⟩ [.dayOpened firstDay, .dividendPaid accruedOne]
    (fun steps s => steps.any Step.accruesOne &&
      steps.all (fun y => decide (Tmpl.ofId y.ev.tmpl.toNat = some .dividendPaid →
        (DividendPaid.ofBytes y.ev.payload).stage = kStageAccrued)) &&
      decide (s.accountKeys[0]? = some 1) && s.appliedIncome.contains 7 0 &&
      decide ((s.appliedIncome.gen s.appliedIncome.current).size <
        loadLimit (s.appliedIncome.gen s.appliedIncome.current).slots.length) &&
      (s.accountOf 1).all fun a => decide (Fits (a.incomeReceivable.toInt - 1) ∧
        Fits (a.cash.toInt + 1))) (by decide +kernel)
  simp only [Bool.and_eq_true, decide_eq_true_eq, List.all_eq_true, List.any_eq_true,
    Option.all_eq_true] at hrun
  obtain ⟨⟨⟨⟨⟨⟨x, hx, hone⟩, honly⟩, hkey⟩, hin⟩, hroom⟩, hfits⟩ := hrun
  obtain ⟨hev, hok⟩ := Step.event_of_accruesOne hone
  refine (hall _ _ _ _ _ _ _ x accruedOne paidOne hinit h hx hev hok paidOne_pays ?_ hroom
    hfits).forgot
    (h.sound (sound_init hinit)) ⟨0, hkey, hin⟩
  intro y hy q hq _ _
  obtain ⟨ht, -, rfl⟩ := dividendPaid_of_event hq
  exact honly y hy ht

/-- Accrued after the first of three days, each a window apart. -/
def accruedThenDays : List Event :=
  [.dayOpened ⟨20260901, 20260831, 20260902, 20260903⟩, .dividendPaid accruedOne,
    .dayOpened ⟨20260902, 20260901, 20260903, 20260904⟩,
    .dayOpened ⟨20260903, 20260902, 20260904, 20260907⟩]

/-- On the third day the payment goes through. -/
theorem goesThrough_iff_thirdDay :
    ∃ s₀ arena₀ s steps x, blank.init ⟨2 ^ 16, 0, false, false⟩ 1 ⟨2, 2, 2, 2, 2, 2, 2, 2, 1⟩ =
        .ok (true, s₀, arena₀) ∧ Session s₀ steps s ∧ x ∈ steps ∧
      LogRecord.event x.ev = some (.dividendPaid accruedOne) ∧ GoesThrough x paidOne s := by
  obtain ⟨s₀, arena₀, s, steps, hinit, h, hrun⟩ := @exists_of_runPasses
    ⟨2, 2, 2, 2, 2, 2, 2, 2, 1⟩ accruedThenDays
    (fun steps s => steps.any Step.accruesOne && decide (s.accountKeys = [1]) &&
      !s.appliedIncome.contains 7 0 &&
      decide ((s.appliedIncome.gen s.appliedIncome.current).size <
        loadLimit (s.appliedIncome.gen s.appliedIncome.current).slots.length) &&
      decide (s.accountKeys.length < s.cap.accounts.toNat) &&
      (s.accountOf 1).all fun a => decide (Fits (a.incomeReceivable.toInt - 1) ∧
        Fits (a.cash.toInt + 1))) (by decide +kernel)
  simp only [Bool.and_eq_true, Bool.not_eq_true', decide_eq_true_eq, List.any_eq_true,
    Option.all_eq_true] at hrun
  obtain ⟨⟨⟨⟨⟨⟨x, hx, hone⟩, hkeys⟩, hout⟩, hroom⟩, hlt⟩, hfits⟩ := hrun
  obtain ⟨hev, hok⟩ := Step.event_of_accruesOne hone
  refine ⟨s₀, arena₀, s, steps, x, hinit, h, hx, hev,
    (goesThrough_iff hinit h hx hev hok paidOne_pays hroom hfits).mpr ⟨?_, .inr hlt⟩⟩
  rintro ⟨row, hrow, hin⟩
  rw [hkeys] at hrow
  obtain rfl : row = 0 := by
    have hrow' := (List.getElem?_eq_some_iff.mp hrow).1
    simpa using hrow'
  have hcontains : s.appliedIncome.contains 7 0 = true := hin
  rw [hout] at hcontains
  cases hcontains

end MotorRv
