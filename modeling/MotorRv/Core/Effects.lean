import MotorRv.Core.Rejection

/-!
# What an event does

`Effect` says, for each kind of event, everything an accepted one changes and everything that was
checked before: the rows interned for it, the rows it found, and the state after it. `Ended` lists
the other ways in which `apply` can return: the event was turned down before anything changed, or
the effect took place and a check of the result, or the publication of it, failed fatally. Every
property of runs is read off these two.

The effect of an event is an inductive family, one constructor a kind of event, whose arguments are
the values that the handler computed on its way and whose conditions are the checks that it made.
What is interned on the way is said once, by `Interned`: empty rows for identities that are new. An
event that is turned down may leave those and, for a corporate action, a consumed key, and nothing
else.

A property of rows is thus proved by cases on an effect, without running a handler; that every run
of a handler has an effect, or ended without one, is proved in the next module.
-/

namespace MotorRv

open Lib PartitionState Apply

/-- A decoded event. -/
inductive Event
  | dayOpened (e : DayOpened)
  | tradeExecuted (e : TradeExecuted)
  | tradeAllocated (e : TradeAllocated)
  | batchNetted (e : BatchNetted)
  | tradeSettled (e : TradeSettled)
  | corporateActionApplied (e : CorporateActionApplied)
  | dividendPaid (e : DividendPaid)
  | closingPriceSet (e : ClosingPriceSet)
  | custodyReconciled (date : DateYmd) (ds : List Divergence)
  | eodMarked (e : EodMarked)

/-- The event of a template with a complete payload. -/
def Event.ofPayload (b : Bytes) : Tmpl → Option Event
  | .dayOpened => some (.dayOpened (.ofBytes b))
  | .tradeExecuted => some (.tradeExecuted (.ofBytes b))
  | .tradeAllocated => some (.tradeAllocated (.ofBytes b))
  | .batchNetted => some (.batchNetted (.ofBytes b))
  | .tradeSettled => some (.tradeSettled (.ofBytes b))
  | .corporateActionApplied => some (.corporateActionApplied (.ofBytes b))
  | .dividendPaid => some (.dividendPaid (.ofBytes b))
  | .closingPriceSet => some (.closingPriceSet (.ofBytes b))
  | .custodyReconciled =>
    match viewGroup (b.drop Tmpl.custodyReconciled.blockLength) with
    | .ok ds => some (.custodyReconciled (u32At b 0) ds)
    | .error _ => none
  | .eodMarked => some (.eodMarked (.ofBytes b))

/-- The event a record stands for; a record with an unknown template or a short payload stands for
none. -/
def LogRecord.event (ev : EventView) : Option Event :=
  match Tmpl.ofId ev.tmpl.toNat with
  | some t => if t.blockLength ≤ ev.payload.length then Event.ofPayload ev.payload t else none
  | none => none

/-! ### Interned rows -/

/-- `s₁` is `s` with empty rows for identities that are new. -/
structure Interned (s s₁ : PartitionState) : Prop where
  custody : ∃ new, s₁.custody = s.custody ++ new ∧ ∀ c ∈ new, ∃ a i, c = CustodyRow.cleared a i
  accounts : ∃ new, s₁.accounts = s.accounts ++ new ∧
    ∀ a ∈ new, ∃ doc, a = AccountRow.cleared doc
  instruments : ∃ new, s₁.instruments = s.instruments ++ new ∧
    ∀ i ∈ new, ∃ id, i = InstrumentRow.cleared id
  rest : s₁ = { s with
    custody := s₁.custody
    accounts := s₁.accounts
    instruments := s₁.instruments
    accountIndex := s₁.accountIndex
    positionIndex := s₁.positionIndex
    instrumentIndex := s₁.instrumentIndex }
  sound : s₁.Sound

/-- Only the exception queue and its counters differ. -/
def Logged (s s' : PartitionState) : Prop :=
  ∃ xs n d, s' = { s with exceptions := xs, exceptionCount := n, exceptionDropped := d }

/-! ### Changes of rows -/

/-- The row of a trade that is executed. -/
def newTrade (e : TradeExecuted) (acct inst : ℕ) (cash : Raw) (next : Option ℕ) : TradeRow where
  tradeId := e.tradeId
  brokerNoteId := e.brokerNoteId
  account := acct
  instrument := inst
  qty := e.qty
  price := e.price
  cash := cash
  settlementDate := e.settlementDate
  side := e.side
  state := TradeState.executed.code
  next := next

/-- The position after a bonus of whole shares and a fraction. -/
def bonusCustody (e : CorporateActionApplied) (base whole rest : Raw) (c : CustodyRow) :
    Exec CustodyRow := do
  let cost ← mulDiv .halfEven whole e.unitCost kQtyOne
  let avg ← averagePriceHalfEven base c.avgPrice whole cost
  let av ← Fixed.add c.available whole
  let lo ← Fixed.add c.leftovers rest
  .ok { c with avgPrice := avg, available := av, leftovers := lo }

def subscriptionCustody (e : CorporateActionApplied) (base : Raw) (c : CustodyRow) :
    Exec CustodyRow := do
  let avg ← averagePriceHalfEven base c.avgPrice e.qtyDelta e.cashDelta
  let av ← Fixed.add c.available e.qtyDelta
  .ok { c with avgPrice := avg, available := av }

/-- The change of a corporate action on a position with `base` shares today. -/
inductive ActsOn (e : CorporateActionApplied) (base : Raw) (c : CustodyRow) :
    ActionType → CustodyRow → Prop
  | split {c'} (h : splitCustody e.factorNum e.factorDen c = .ok c') : ActsOn e base c .split c'
  | reverseSplit {c'} (h : splitCustody e.factorNum e.factorDen c = .ok c') :
    ActsOn e base c .reverseSplit c'
  | bonus {total rest whole c'} (hscale : scaleQtyTrunc base e.factorNum e.factorDen =
      .ok (total, rest)) (hwhole : Fixed.sub total base = .ok whole) (hpos : ¬ whole < 0)
      (h : bonusCustody e base whole rest c = .ok c') : ActsOn e base c .bonus c'
  | subscription {c'} (hright : e.factorNum ≠ 0 ∧ e.factorDen ≠ 0 → ∃ rights rest,
      scaleQtyTrunc base e.factorNum e.factorDen = .ok (rights, rest) ∧ ¬ rights < e.qtyDelta)
      (h : subscriptionCustody e base c = .ok c') : ActsOn e base c .subscription c'
  | auction : ActsOn e base c .leftoversAuction { c with leftovers := 0 }

/-- The money of a corporate action. -/
def actCash (e : CorporateActionApplied) (a : AccountRow) : ActionType → Exec AccountRow
  | .subscription => do
    let m ← Fixed.sub a.cash e.cashDelta
    .ok { a with cash := m }
  | .leftoversAuction => do
    let m ← Fixed.add a.cash e.cashDelta
    .ok { a with cash := m }
  | _ => .ok a

def withholdTax (e : CorporateActionApplied) (a : AccountRow) : Exec AccountRow := do
  let m ← Fixed.sub a.incomeReceivable e.withheldTax
  .ok { a with incomeReceivable := m }

/-- The rows a settlement finds: its account, its instrument and its position. -/
structure Settles (s₁ : PartitionState) (e : TradeSettled) (acct inst pos : ℕ) (c : CustodyRow)
    (a : AccountRow) : Prop where
  account : s₁.accountKeys[acct]? = some e.account
  instrument : s₁.instrumentKeys[inst]? = some (instrumentKey e.instrument)
  custody : s₁.custody[pos]? = some c
  owner : c.account = acct ∧ c.instrument = inst
  cash : s₁.accounts[acct]? = some a

/-- The rows of the position and the account of a settlement after an outcome; `k` is the slot of
the settlement date, when the outcome needs one. -/
inductive Outcome (w : SettlementWindow) (e : TradeSettled) (c : CustodyRow) (a : AccountRow) :
    SettleOutcome → CustodyRow → AccountRow → Prop
  | settled {k c' a'} (hk : w.slotOf e.settlementDate = some k) (hq : ¬ pendingOf e k c < e.qty)
      (hc : settleCustody e k c = .ok c') (ha : settleCash k e.cashAmount a = .ok a') :
      Outcome w e c a .settled c' a'
  | deliveryFailure {k c' a'} (hk : w.slotOf e.settlementDate = some k)
      (hq : ¬ pendingOf e k c < e.qty) (hc : failCustody e k c = .ok c')
      (ha : failCash k e.cashAmount a = .ok a') : Outcome w e c a .deliveryFailure c' a'
  | boughtIn {c' a'} (hq : ¬ overdueOf e c < e.qty) (hc : buyInCustody e c = .ok c')
      (ha : buyInCash e.cashAmount a = .ok a') : Outcome w e c a .boughtIn c' a'

/-! ### Effects -/

/-- What an accepted event does to the state. -/
inductive Effect (s : PartitionState) : Event → PartitionState → Prop
  | dayOpened {e s'} (hdate : e.businessDate ≠ 0)
      (hnext : s.businessDate = 0 ∨ s.businessDate < e.businessDate) (h : openDay e s = .ok s') :
      Effect s (.dayOpened e) s'
  | tradeExecuted {e s₁ k gross fees cash i c c' a a'} {acct inst pos : ℕ} (hI : Interned s s₁)
      (hroom : s.trades.length < s.cap.trades.toNat) (hnew : e.tradeId ∉ s.tradeKeys)
      (hacct : s₁.accountKeys[acct]? = some e.account)
      (hinst : s₁.instrumentKeys[inst]? = some (instrumentKey e.instrument))
      (hi : s₁.instruments[inst]? = some i) (hfactor : i.priceFactor ≠ 0)
      (hk : s.window.slotOf e.settlementDate = some k) (hc : s₁.custody[pos]? = some c)
      (howner : c.account = acct ∧ c.instrument = inst)
      (hqty : 0 < e.qty ∧ qtyInRange e.qty = true)
      (hgross : notionalHalfEven e.qty e.price i.priceFactor = .ok gross)
      (hfees : feesOf e = some fees)
      (hshort : e.side = kSideBuy ∨ e.flags &&& 2 ≠ 0 ∨ ¬ c.available < e.qty)
      (hcash : tradeCash e gross fees = .ok cash) (hc' : executeCustody e k c = .ok c')
      (ha : s₁.accounts[acct]? = some a) (ha' : addPending k cash a = .ok a') :
      Effect s (.tradeExecuted e) { s₁ with
        custody := s₁.custody.set pos c'
        accounts := s₁.accounts.set acct { a' with firstTrade := some s.trades.length }
        trades := s.trades ++ [newTrade e acct inst cash a'.firstTrade]
        tradeIndex := (s.tradeIndex.insertOrGet e.tradeId s.trades.length).2 }
  -- the account keeps the trade, and nothing but the state of the trade moves
  | allocatedInPlace {e s₁ r k} {t acct : ℕ} (hI : Interned s s₁)
      (ht : s.tradeIndex.find e.tradeId = some t) (hr : s.trades[t]? = some r)
      (hstate : r.state = TradeState.executed.code)
      (hfrom : s₁.accountKeys[acct]? = some e.fromAccount)
      (hto : s₁.accountKeys[acct]? = some e.toAccount)
      (hk : s.window.slotOf e.settlementDate = some k) (hqty : e.qty = r.qty) :
      Effect s (.tradeAllocated e) { s₁ with
        trades := s.trades.set t { r with state := TradeState.allocated.code } }
  -- the account the event takes it from is not compared with the account of the trade
  | allocated {e s₁ s₂ r r' k c₁ c₁' c₂ c₂' a₁ a₁' a₂ a₂'} {t de para posDe posPara : ℕ}
      (hI : Interned s s₁) (ht : s.tradeIndex.find e.tradeId = some t)
      (hr : s.trades[t]? = some r) (hstate : r.state = TradeState.executed.code)
      (hfrom : s₁.accountKeys[de]? = some e.fromAccount)
      (hto : s₁.accountKeys[para]? = some e.toAccount) (hne : de ≠ para)
      (hk : s.window.slotOf e.settlementDate = some k) (hqty : e.qty = r.qty)
      (hc₁ : s₁.custody[posDe]? = some c₁)
        (howner₁ : c₁.account = de ∧ c₁.instrument = r.instrument)
      (hc₂ : s₁.custody[posPara]? = some c₂)
      (howner₂ : c₂.account = para ∧ c₂.instrument = r.instrument)
      (hpend : ¬ (if e.side = kSideBuy then c₁.pendingBuy k < e.qty else c₁.pendingSell k < e.qty))
      (hshort : e.side = kSideBuy ∨ c₂.shortAllowed = true ∨ ¬ c₂.available < e.qty)
      (hc₁' : allocateFrom e k c₁ = .ok c₁') (hc₂' : allocateTo e k c₂ = .ok c₂')
      (ha₁ : s₁.accounts[de]? = some a₁) (ha₁' : subPending k e.cashAmount a₁ = .ok a₁')
      (ha₂ : s₁.accounts[para]? = some a₂) (ha₂' : addPending k e.cashAmount a₂ = .ok a₂')
      (hlink : relinkTrade de para t { s₁ with
        custody := (s₁.custody.set posDe c₁').set posPara c₂'
        accounts := (s₁.accounts.set de a₁').set para a₂' } = .ok s₂)
      (hr' : s₂.trades[t]? = some r') :
      Effect s (.tradeAllocated e) { s₂ with
        trades := s₂.trades.set t { r' with state := TradeState.allocated.code } }
  | batchNetted {e s₁ k a n rows s'} {acct : ℕ} (hI : Interned s s₁)
      (hacct : s₁.accountKeys[acct]? = some e.account) (ha : s₁.accounts[acct]? = some a)
      (hk : s.window.slotOf e.settlementDate = some k) (hnet : a.pending k = e.netAmount)
      (hadv : advance (ofBatch acct e.settlementDate) .net s.trades.length a.firstTrade s.trades =
        .ok (n, rows)) (hlog : Logged { s₁ with trades := rows } s') :
      Effect s (.batchNetted e) s'
  | tradeSettled {e s₁ acct inst pos c a outcome c' a' n rows s'} (hI : Interned s s₁)
      (hfind : Settles s₁ e acct inst pos c a)
      (hout : SettleOutcome.ofCode e.outcome = some outcome)
      (hrows : Outcome s.window e c a outcome c' a')
      (hadv : advance (covers e acct inst) (triggerOf outcome) s.trades.length a.firstTrade
        s.trades = .ok (n, rows))
      (hlog : Logged { s₁ with
        custody := s₁.custody.set pos c'
        accounts := s₁.accounts.set acct a'
        trades := rows } s') : Effect s (.tradeSettled e) s'
  | corporateActionApplied {e s₁ c a a₁ a' type base c' s'} {acct inst pos : ℕ}
      (hI : Interned s s₁)
      (hacct : s₁.accountKeys[acct]? = some e.account)
      (hinst : s₁.instrumentKeys[inst]? = some (instrumentKey e.instrument))
      (hc : s₁.custody[pos]? = some c) (howner : c.account = acct ∧ c.instrument = inst)
      (ha : s₁.accounts[acct]? = some a)
      (htype : ActionType.ofCode e.type = some type) (hvalid : validateAction e type = true)
      (hkey : s.appliedActions.contains e.actionId acct = false)
      (hins : (s.appliedActions.insert e.actionId acct).1 = .added)
      (hbase : c.custodyToday = .ok base) (hact : ActsOn e base c type c')
      (ha₁ : actCash e a type = .ok a₁) (ha' : withholdTax e a₁ = .ok a')
      (hlog : Logged { s₁ with
        custody := s₁.custody.set pos c'
        accounts := s₁.accounts.set acct a'
        appliedActions := (s.appliedActions.insert e.actionId acct).2 } s') :
      Effect s (.corporateActionApplied e) s'
  -- the stage of the income is not part of its key
  | dividendPaid {e s₁ a a'} {acct : ℕ} (hI : Interned s s₁)
      (hacct : s₁.accountKeys[acct]? = some e.account)
      (hnet : Fixed.sub e.grossAmount e.withheldTax = .ok e.netAmount)
      (hkey : s.appliedIncome.contains e.actionId acct = false)
      (hins : (s.appliedIncome.insert e.actionId acct).1 = .added)
      (ha : s₁.accounts[acct]? = some a) (ha' : creditIncome e a = .ok a') :
      Effect s (.dividendPaid e) { s₁ with
        accounts := s₁.accounts.set acct a'
        appliedIncome := (s.appliedIncome.insert e.actionId acct).2 }
  | closingPriceSet {e s₁ i} {inst : ℕ} (hI : Interned s s₁) (hfactor : e.priceFactor ≠ 0)
      (hinst : s₁.instrumentKeys[inst]? = some (instrumentKey e.instrument))
      (hi : s₁.instruments[inst]? = some i) :
      Effect s (.closingPriceSet e) { s₁ with
        instruments := s₁.instruments.set inst (describe e i) }
  | custodyReconciled {date ds} : Effect s (.custodyReconciled date ds)
      (recordDivergences date ds s)
  | eodMarked {e} : Effect s (.eodMarked e) { s with
      flags := if e.flags &&& 1 ≠ 0 then s.flags ||| kFlagReconDivergence else s.flags }

/-- The events that move a position: their effect is checked and published. -/
def Event.moves : Event → Bool
  | .tradeExecuted _ | .tradeAllocated _ | .tradeSettled _ | .corporateActionApplied _ => true
  | _ => false

/-- A code that neither accepts an event, nor finds it applied before, nor finds the state
corrupt. -/
def Err.plain : Err → Bool
  | .ok | .alreadyApplied | .stateCorrupt => false
  | _ => true

/-- The ways in which `apply` returns something else than `Ok`. -/
inductive Ended (s : PartitionState) (ev : EventView) : Status → PartitionState → Prop
  | turned {st s'} (hkept : Kept s s') (hplain : st.code.plain = true) : Ended s ev st s'
  | executedBefore {e d} (hev : LogRecord.event ev = some (.tradeExecuted e))
      (hknown : e.tradeId ∈ s.tradeKeys) : Ended s ev (.fail .alreadyApplied d) s
  | actionBefore {e s₁ d} {acct : ℕ} (hev : LogRecord.event ev = some (.corporateActionApplied e))
      (hI : Interned s s₁) (hacct : s₁.accountKeys[acct]? = some e.account)
      (hkey : s.appliedActions.contains e.actionId acct = true) :
      Ended s ev (.fail .alreadyApplied d) s₁
  | incomeBefore {e s₁ d} {acct : ℕ} (hev : LogRecord.event ev = some (.dividendPaid e))
      (hI : Interned s s₁) (hacct : s₁.accountKeys[acct]? = some e.account)
      (hkey : s.appliedIncome.contains e.actionId acct = true) :
      Ended s ev (.fail .alreadyApplied d) s₁
  | diverged {e d} (hev : LogRecord.event ev = some (.eodMarked e)) :
      Ended s ev (.fail .stateCorrupt d) s
  | refused {e s₁ st} {acct : ℕ} (hev : LogRecord.event ev = some (.corporateActionApplied e))
      (hI : Interned s s₁) (hacct : s₁.accountKeys[acct]? = some e.account)
      (hins : (s.appliedActions.insert e.actionId acct).1 = .added)
      (hplain : st.code.plain = true) (hst : st.isFatal = false) :
      Ended s ev st { s₁ with appliedActions := (s.appliedActions.insert e.actionId acct).2 }
  | unpublished {x s' d} (hev : LogRecord.event ev = some x) (hmoves : x.moves = true)
      (heff : Effect s x s') :
      Ended s ev (.fail .arenaExhausted d) s'
  | corrupt {x s' d} (hev : LogRecord.event ev = some x) (hmoves : x.moves = true)
      (heff : Effect s x s')
      (hbad : ∃ c ∈ s'.custody, c.bucketsNonNegative = false) :
      Ended s ev (.fail .stateCorrupt d) s'
  | corruptMove {e s' t r d} (hev : LogRecord.event ev = some (.tradeAllocated e))
      (heff : Effect s (.tradeAllocated e) { s' with
        trades := s'.trades.set t { r with state := TradeState.allocated.code } })
      (hrow : s.tradeIndex.find e.tradeId = some t) (hr : s'.trades[t]? = some r)
      (hbad : ∃ c ∈ s'.custody, c.bucketsNonNegative = false)
      (hstate : r.state = TradeState.executed.code) : Ended s ev (.fail .stateCorrupt d) s'

end MotorRv
