import MotorRv.Codec.Events
import MotorRv.Core.Outbox
import MotorRv.Core.PartitionState
import MotorRv.Lib.Proc
import MotorRv.Wal.Format

/-!
# Applying events

Ten events, ten handlers, one dispatch. A handler decodes, resolves identities, checks, and only
then changes the state: an early return keeps what was changed before it, and an arithmetic panic
or an access outside a table leaves no state at all. A failed invariant check is the release form,
`StateCorrupt`.

The definitions follow the source handler by handler, under its names, with the checks in the order
in which it makes them, since the order decides which status is given and what has happened to the
state by then. What several handlers share is one definition with parameters: the outcomes of a
settlement, the types of a corporate action, the walk along the trades of an account.

The procedures run over `Engine`, the state together with the outbox of the context, if there is
one; a handler that publishes a position stages its entry at the very end, and no room for it is a
fatal status. `apply` stamps the LSN of the event on the state whether or not the event was
accepted.
-/

namespace MotorRv

open Lib

/-- An event as `apply` sees it. -/
abbrev EventView := LogRecord

/-- What a handler works on: the state, and the outbox of its context if there is one. -/
structure Engine where
  s : PartitionState
  outbox : Option Outbox

/-- A handler, or a part of one. -/
abbrev Apply := Proc Abort Status Engine

/-- Row `i` of a table. -/
def rowAt {α : Type} (rows : List α) (i : ℕ) : Exec α :=
  match rows[i]? with
  | some r => .ok r
  | none => .error .outOfBounds

/-- Change row `i` of a table. -/
def modRow {α : Type} (rows : List α) (i : ℕ) (f : α → Exec α) : Exec (List α) := do
  let r ← rowAt rows i
  let r' ← f r
  .ok (rows.set i r')

namespace Apply

/-! ### Access to the state -/

def look {α : Type} (f : PartitionState → Exec α) : Apply α := Proc.query fun e => f e.s

def change (f : PartitionState → Exec PartitionState) : Apply PUnit :=
  Proc.update fun e => (f e.s).map fun s => { e with s := s }

def ask {α : Type} (f : PartitionState → α × PartitionState) : Apply α :=
  Proc.act fun e => ((f e.s).1, { e with s := (f e.s).2 })

def custodyAt (i : ℕ) : Apply CustodyRow := look fun s => rowAt s.custody i
def accountAt (i : ℕ) : Apply AccountRow := look fun s => rowAt s.accounts i
def instrumentAt (i : ℕ) : Apply InstrumentRow := look fun s => rowAt s.instruments i
def tradeAt (i : ℕ) : Apply TradeRow := look fun s => rowAt s.trades i

def modCustody (i : ℕ) (f : CustodyRow → Exec CustodyRow) : Apply PUnit :=
  change fun s => (modRow s.custody i f).map fun rows => { s with custody := rows }

def modAccount (i : ℕ) (f : AccountRow → Exec AccountRow) : Apply PUnit :=
  change fun s => (modRow s.accounts i f).map fun rows => { s with accounts := rows }

def modInstrument (i : ℕ) (f : InstrumentRow → Exec InstrumentRow) : Apply PUnit :=
  change fun s => (modRow s.instruments i f).map fun rows => { s with instruments := rows }

def modTrade (i : ℕ) (f : TradeRow → Exec TradeRow) : Apply PUnit :=
  change fun s => (modRow s.trades i f).map fun rows => { s with trades := rows }

def pushException (r : ExceptionRecord) (marksDivergence : Bool) : Apply PUnit :=
  change fun s => .ok (s.pushException r marksDivergence)

/-- The account row of a document, interned; a full table ends the handler. -/
def account (doc : UInt64) : Apply ℕ := do
  let r ← ask fun s => s.internAccount doc
  Proc.orFail r (.fail .arenaExhausted)

def instrument (externalId : UInt32) : Apply ℕ := do
  let r ← ask fun s => s.internInstrument externalId
  Proc.orFail r (.fail .arenaExhausted)

def position (account instrument : ℕ) : Apply ℕ := do
  let r ← ask fun s => s.internPosition account instrument
  Proc.orFail r (.fail .arenaExhausted)

/-- The slot of a settlement date, which must be in the window. -/
def slot (date : DateYmd) : Apply (Fin 3) := do
  let k ← look fun s => .ok (s.window.slotOf date)
  Proc.orFail k (.fail .outsideSettlementWindow date)

/-- `RV_CHECK(I3, ..)`. -/
def checkBuckets (pos : ℕ) : Apply PUnit := do
  let c ← custodyAt pos
  Proc.guard (c.bucketsNonNegative = true) (.fail .stateCorrupt)

/-- `decode`: the block, when the payload is long enough for it. -/
def decode {α : Type} (t : Tmpl) (ofBytes : Bytes → α) (ev : EventView) : Apply α := do
  Proc.guard (t.blockLength ≤ ev.payload.length)
    (.fail .shortPayload (UInt32.ofNat ev.payload.length))
  pure (ofBytes ev.payload)

/-! ### Output -/

/-- The bytes of a `PositionUpdate`. -/
def positionUpdate (c : CustodyRow) (a : AccountRow) (i : InstrumentRow) : Bytes :=
  encU64 a.document ++ encI64 c.available ++ encI64 c.avgPrice ++ encU32 i.externalId ++ encU32 0

/-- `publica_posicao`: no room for an output that the event produced is fatal. -/
def publicaPosicao (ev : EventView) (pos : ℕ) : Apply PUnit := fun e =>
  match e.outbox with
  | none => .ok (.ok ⟨⟩, e)
  | some o => do
    let c ← rowAt e.s.custody pos
    let a ← rowAt e.s.accounts c.account
    let i ← rowAt e.s.instruments c.instrument
    let (st, o') ← o.stage ev.lsn .readModelUpdate (positionUpdate c a i)
    if st.isOk then .ok (.ok ⟨⟩, { e with outbox := some o' })
    else .ok (.error (.fail .arenaExhausted (UInt32.ofNat pos)), { e with outbox := some o' })

/-! ### Lists of trades -/

/-- The row before `t`, going from row `cur`; `none` when the list ends first. A walk longer than
the table is on a cycle. -/
def predecessor (trades : List TradeRow) (t : ℕ) : ℕ → ℕ → Exec (Option ℕ)
  | 0, _ => .error .endlessLoop
  | fuel + 1, cur => do
    let r ← rowAt trades cur
    match r.next with
    | none => .ok none
    | some n => if n = t then .ok (some cur) else predecessor trades t fuel n

/-- `unlink_trade`: take trade `t` out of the list of an account, if it is there. -/
def unlinkTrade (s : PartitionState) (acct t : ℕ) : Exec (Bool × PartitionState) := do
  let a ← rowAt s.accounts acct
  match a.firstTrade with
  | none => .ok (false, s)
  | some first =>
    if first = t then do
      let r ← rowAt s.trades t
      .ok (true, { s with accounts := s.accounts.set acct { a with firstTrade := r.next } })
    else do
      match ← predecessor s.trades t s.trades.length first with
      | none => .ok (false, s)
      | some p => do
        let r ← rowAt s.trades t
        let rows ← modRow s.trades p fun q => .ok { q with next := r.next }
        .ok (true, { s with trades := rows })

/-- The next state of a stored state byte. -/
def nextOf (state : UInt8) (g : TradeTrigger) : Exec TradeState :=
  match TradeState.ofCode state with
  | some st => .ok (nextState st g)
  | none => .error .outOfBounds

/-- Walk a list and advance the trades that are covered; how many were, and the table after it. -/
def advance (covered : TradeRow → Bool) (g : TradeTrigger) :
    ℕ → Option ℕ → List TradeRow → Exec (ℕ × List TradeRow)
  | _, none, trades => .ok (0, trades)
  | 0, some _, _ => .error .endlessLoop
  | fuel + 1, some t, trades => do
    let r ← rowAt trades t
    if covered r then do
      let st ← nextOf r.state g
      if st = .none then advance covered g fuel r.next trades
      else do
        let (n, rows) ← advance covered g fuel r.next (trades.set t { r with state := st.code })
        .ok (n + 1, rows)
    else advance covered g fuel r.next trades

/-- Advance the covered trades in the list of an account. -/
def advanceAccount (acct : ℕ) (covered : TradeRow → Bool)
    (g : TradeTrigger) : Apply ℕ := fun e => do
  let a ← rowAt e.s.accounts acct
  let (n, rows) ← advance covered g e.s.trades.length a.firstTrade e.s.trades
  .ok (.ok n, { e with s := { e.s with trades := rows } })

/-! ### 1. DayOpened -/

/-- Replace one slot. -/
def setSlot {α : Type} (f : Slots α) (k : Fin 3) (x : α) : Slots α := Function.update f k x

/-- Move slot `k` of the old window: to its slot in the new one, or to overdue. -/
def rotateCustodySlot (old new : SettlementWindow) (c acc : CustodyRow) (k : Fin 3) :
    Exec CustodyRow :=
  if c.pendingBuy k = 0 ∧ c.pendingSell k = 0 then .ok acc
  else
    match new.slotOf (old k) with
    | none => do
      let b ← Fixed.add acc.overdueBuy (c.pendingBuy k)
      let v ← Fixed.add acc.overdueSell (c.pendingSell k)
      .ok { acc with overdueBuy := b, overdueSell := v }
    | some j => do
      let b ← Fixed.add (acc.pendingBuy j) (c.pendingBuy k)
      let v ← Fixed.add (acc.pendingSell j) (c.pendingSell k)
      .ok { acc with
        pendingBuy := setSlot acc.pendingBuy j b
        pendingSell := setSlot acc.pendingSell j v }

/-- The row of a position after the rotation. -/
def rotateCustody (old new : SettlementWindow) (c : CustodyRow) : Exec CustodyRow :=
  if ∀ k, c.pendingBuy k = 0 ∧ c.pendingSell k = 0 then .ok c
  else do
    let acc ← rotateCustodySlot old new c
      { c with pendingBuy := fun _ => 0, pendingSell := fun _ => 0 } 0
    let acc ← rotateCustodySlot old new c acc 1
    rotateCustodySlot old new c acc 2

def rotateCashSlot (old new : SettlementWindow) (a acc : AccountRow) (k : Fin 3) :
    Exec AccountRow :=
  if a.pending k = 0 then .ok acc
  else
    match new.slotOf (old k) with
    | none => do
      let p ← Fixed.add acc.overdue (a.pending k)
      .ok { acc with overdue := p }
    | some j => do
      let p ← Fixed.add (acc.pending j) (a.pending k)
      .ok { acc with pending := setSlot acc.pending j p }

/-- The cash row of an account after the rotation. -/
def rotateCash (old new : SettlementWindow) (a : AccountRow) : Exec AccountRow :=
  if ∀ k, a.pending k = 0 then .ok a
  else do
    let acc ← rotateCashSlot old new a { a with pending := fun _ => 0 } 0
    let acc ← rotateCashSlot old new a acc 1
    rotateCashSlot old new a acc 2

def newWindow (e : DayOpened) : SettlementWindow := ![e.businessDate, e.settleD1, e.settleD2]

/-- Rotate every bucket, set the dates, rotate the idempotency sets and compact the trades. -/
def openDay (e : DayOpened) (s : PartitionState) : Exec PartitionState := do
  let window := newWindow e
  let custody ← s.custody.mapM (rotateCustody s.window window)
  let accounts ← s.accounts.mapM (rotateCash s.window window)
  PartitionState.closeAndCompactTrades
    { s with
      custody := custody
      accounts := accounts
      window := window
      businessDate := e.businessDate
      prevBusinessDate := e.prevBusinessDate
      appliedActions := s.appliedActions.maybeRotate e.businessDate s.cap.idempotencyWindowDays
      appliedIncome := s.appliedIncome.maybeRotate e.businessDate s.cap.idempotencyWindowDays }

def applyDayOpened (ev : EventView) : Apply PUnit := do
  let e ← decode .dayOpened DayOpened.ofBytes ev
  Proc.guard (e.businessDate ≠ 0) (.fail .invalidArgument)
  let today ← look fun s => .ok s.businessDate
  Proc.guard (today = 0 ∨ today < e.businessDate) (.fail .invalidTransition e.businessDate)
  change (openDay e)

/-! ### 2. TradeExecuted -/

/-- `fees_of`: the sum of the costs, or nothing if it does not fit. -/
def feesOf (e : TradeExecuted) : Option Raw := do
  let total ← Fixed.checkedAdd 0 e.brokerageFee
  let total ← Fixed.checkedAdd total e.exchangeFee
  let total ← Fixed.checkedAdd total e.clearingFee
  Fixed.checkedAdd total e.taxes

/-- The position after an execution. -/
def executeCustody (e : TradeExecuted) (k : Fin 3) (c : CustodyRow) : Exec CustodyRow :=
  if e.side = kSideBuy then do
    let b ← Fixed.add (c.pendingBuy k) e.qty
    .ok { c with pendingBuy := setSlot c.pendingBuy k b }
  else do
    let av ← Fixed.sub c.available e.qty
    let v ← Fixed.add (c.pendingSell k) e.qty
    .ok { c with
      available := av
      pendingSell := setSlot c.pendingSell k v
      flags := if e.flags &&& 2 ≠ 0 then c.flags ||| kShortAllowed else c.flags }

/-- Add to the pending cash of a slot. -/
def addPending (k : Fin 3) (m : Raw) (a : AccountRow) : Exec AccountRow := do
  let p ← Fixed.add (a.pending k) m
  .ok { a with pending := setSlot a.pending k p }

def subPending (k : Fin 3) (m : Raw) (a : AccountRow) : Exec AccountRow := do
  let p ← Fixed.sub (a.pending k) m
  .ok { a with pending := setSlot a.pending k p }

/-- The cash of a trade, with its sign. -/
def tradeCash (e : TradeExecuted) (gross fees : Raw) : Exec Raw :=
  if e.side = kSideBuy then do Fixed.neg (← Fixed.add gross fees) else Fixed.sub gross fees

/-- Append the trade in front of its account's list and index it. -/
def insertTrade (e : TradeExecuted) (acct inst : ℕ) (cash : Raw) (s : PartitionState) :
    Exec PartitionState := do
  let a ← rowAt s.accounts acct
  let t := s.trades.length
  .ok { s with
    trades := s.trades ++ [{
      tradeId := e.tradeId
      brokerNoteId := e.brokerNoteId
      account := acct
      instrument := inst
      qty := e.qty
      price := e.price
      cash := cash
      settlementDate := e.settlementDate
      side := e.side
      state := (nextState .none .execute).code
      next := a.firstTrade }]
    accounts := s.accounts.set acct { a with firstTrade := some t }
    tradeIndex := (s.tradeIndex.insertOrGet e.tradeId t).2 }

def applyTradeExecuted (ev : EventView) : Apply PUnit := do
  let e ← decode .tradeExecuted TradeExecuted.ofBytes ev
  let full ← look fun s => .ok (decide (s.cap.tables.trades.toNat ≤ s.trades.length))
  Proc.guard (full = false) (.fail .arenaExhausted)
  let known ← look fun s => .ok (s.tradeIndex.contains e.tradeId)
  Proc.guard (known = false) (.fail .alreadyApplied)
  let acct ← account e.account
  let inst ← instrument e.instrument
  let described ← instrumentAt inst
  Proc.guard (described.priceFactor ≠ 0) (.fail .instrumentNotDescribed e.instrument)
  let k ← slot e.settlementDate
  let pos ← position acct inst
  Proc.guard (0 < e.qty ∧ qtyInRange e.qty = true) (.fail .overflow e.instrument)
  Proc.guard (priceInRange e.price = true) (.fail .overflow e.instrument)
  Proc.guard (moneyInRange e.brokerageFee = true ∧ moneyInRange e.exchangeFee = true ∧
    moneyInRange e.clearingFee = true ∧ moneyInRange e.taxes = true) (.fail .overflow e.instrument)
  let gross ← Proc.lift (notionalHalfEven e.qty e.price described.priceFactor)
  let fees ← Proc.orFail (feesOf e) (.fail .overflow e.instrument)
  let c ← custodyAt pos
  Proc.guard (e.side = kSideBuy ∨ e.flags &&& 2 ≠ 0 ∨ ¬ c.available < e.qty)
    (.fail .shortSaleNotAllowed (UInt32.ofNat pos))
  let cash ← Proc.lift (tradeCash e gross fees)
  modCustody pos (executeCustody e k)
  modAccount acct (addPending k cash)
  change (insertTrade e acct inst cash)
  checkBuckets pos
  publicaPosicao ev pos

/-! ### 3. TradeAllocated -/

/-- The position that the trade leaves. -/
def allocateFrom (e : TradeAllocated) (k : Fin 3) (c : CustodyRow) : Exec CustodyRow :=
  if e.side = kSideBuy then do
    let b ← Fixed.sub (c.pendingBuy k) e.qty
    .ok { c with pendingBuy := setSlot c.pendingBuy k b }
  else do
    let v ← Fixed.sub (c.pendingSell k) e.qty
    let av ← Fixed.add c.available e.qty
    .ok { c with pendingSell := setSlot c.pendingSell k v, available := av }

/-- The position that the trade enters. -/
def allocateTo (e : TradeAllocated) (k : Fin 3) (c : CustodyRow) : Exec CustodyRow :=
  if e.side = kSideBuy then do
    let b ← Fixed.add (c.pendingBuy k) e.qty
    .ok { c with pendingBuy := setSlot c.pendingBuy k b }
  else do
    let v ← Fixed.add (c.pendingSell k) e.qty
    let av ← Fixed.sub c.available e.qty
    .ok { c with pendingSell := setSlot c.pendingSell k v, available := av }

/-- Move trade `t` to the front of another account's list. -/
def relinkTrade (de para t : ℕ) (s : PartitionState) : Exec PartitionState := do
  let (_, s₁) ← unlinkTrade s de t
  let a ← rowAt s₁.accounts para
  let rows ← modRow s₁.trades t fun r => .ok { r with account := para, next := a.firstTrade }
  .ok { s₁ with trades := rows, accounts := s₁.accounts.set para { a with firstTrade := some t } }

/-- The rows of the two positions allow the move; nothing has been changed yet. -/
def checkAllocation (e : TradeAllocated) (k : Fin 3) (posDe posPara : ℕ) : Apply PUnit := do
  let de ← custodyAt posDe
  let para ← custodyAt posPara
  Proc.guard (¬ (if e.side = kSideBuy then de.pendingBuy k < e.qty else de.pendingSell k < e.qty))
    (.fail .qtyMismatch (UInt32.ofNat posDe))
  Proc.guard (e.side = kSideBuy ∨ para.shortAllowed = true ∨ ¬ para.available < e.qty)
    (.fail .shortSaleNotAllowed (UInt32.ofNat posPara))

/-- Allocation between different accounts. -/
def moveAllocation (e : TradeAllocated) (k : Fin 3) (de para inst t : ℕ) : Apply PUnit := do
  let rDe ← ask fun s => s.internPosition de inst
  let rPara ← ask fun s => s.internPosition para inst
  let posDe ← Proc.orFail rDe (.fail .arenaExhausted)
  let posPara ← Proc.orFail rPara (.fail .arenaExhausted)
  checkAllocation e k posDe posPara
  modCustody posDe (allocateFrom e k)
  modCustody posPara (allocateTo e k)
  modAccount de (subPending k e.cashAmount)
  modAccount para (addPending k e.cashAmount)
  change (relinkTrade de para t)
  checkBuckets posDe
  checkBuckets posPara

def applyTradeAllocated (ev : EventView) : Apply PUnit := do
  let e ← decode .tradeAllocated TradeAllocated.ofBytes ev
  let found ← look fun s => .ok (s.tradeIndex.find e.tradeId)
  let t ← Proc.orFail found (.fail .notFound e.tradeId.toUInt32)
  let trade ← tradeAt t
  let next ← Proc.lift (nextOf trade.state .allocate)
  Proc.guard (next ≠ .none) (.fail .invalidTransition trade.state.toUInt32)
  let rDe ← ask fun s => s.internAccount e.fromAccount
  let rPara ← ask fun s => s.internAccount e.toAccount
  let de ← Proc.orFail rDe (.fail .arenaExhausted)
  let para ← Proc.orFail rPara (.fail .arenaExhausted)
  let k ← slot e.settlementDate
  Proc.guard (e.qty = trade.qty) (.fail .qtyMismatch e.tradeId.toUInt32)
  (if de ≠ para then moveAllocation e k de para trade.instrument t else pure ⟨⟩)
  modTrade t fun r => .ok { r with state := next.code }

/-! ### 4. BatchNetted -/

/-- A trade of an account with a settlement date. -/
def ofBatch (acct : ℕ) (date : DateYmd) (r : TradeRow) : Bool :=
  decide (r.account = acct) && decide (r.settlementDate = date)

def applyBatchNetted (ev : EventView) : Apply PUnit := do
  let e ← decode .batchNetted BatchNetted.ofBytes ev
  let acct ← account e.account
  let k ← slot e.settlementDate
  let a ← accountAt acct
  (if a.pending k ≠ e.netAmount then do
      pushException ⟨e.account, a.pending k - e.netAmount, 0, e.settlementDate,
        UInt16.ofNat Err.amountMismatch.code⟩ false
      Proc.fail (.fail .amountMismatch e.settlementDate)
    else pure ⟨⟩)
  let counted ← advanceAccount acct (ofBatch acct e.settlementDate) .net
  (if e.tradeCount ≠ 0 ∧ UInt32.ofNat counted ≠ e.tradeCount then
      pushException ⟨e.account, Int64.ofInt ((counted : ℤ) - e.tradeCount.toNat), 0,
        e.settlementDate, UInt16.ofNat Err.qtyMismatch.code⟩ false
    else pure ⟨⟩)

/-! ### 5. TradeSettled -/

/-- The trigger of an outcome. -/
def triggerOf : SettleOutcome → TradeTrigger
  | .settled => .settle
  | .deliveryFailure => .fail
  | .boughtIn => .buyIn

/-- The pending quantity of the side being settled. -/
def pendingOf (e : TradeSettled) (k : Fin 3) (c : CustodyRow) : Raw :=
  if e.side = kSideBuy then c.pendingBuy k else c.pendingSell k

def overdueOf (e : TradeSettled) (c : CustodyRow) : Raw :=
  if e.side = kSideBuy then c.overdueBuy else c.overdueSell

/-- The position after a settlement: only a purchase moves the average price. -/
def settleCustody (e : TradeSettled) (k : Fin 3) (c : CustodyRow) : Exec CustodyRow :=
  if e.side = kSideBuy then do
    let base ← c.custodyToday
    let avg ← averagePriceHalfEven base c.avgPrice e.qty e.costBasis
    let b ← Fixed.sub (c.pendingBuy k) e.qty
    let av ← Fixed.add c.available e.qty
    .ok { c with avgPrice := avg, pendingBuy := setSlot c.pendingBuy k b, available := av }
  else do
    let v ← Fixed.sub (c.pendingSell k) e.qty
    .ok { c with pendingSell := setSlot c.pendingSell k v }

/-- The position after a delivery failure: the obligation becomes overdue. -/
def failCustody (e : TradeSettled) (k : Fin 3) (c : CustodyRow) : Exec CustodyRow :=
  if e.side = kSideBuy then do
    let b ← Fixed.sub (c.pendingBuy k) e.qty
    let o ← Fixed.add c.overdueBuy e.qty
    .ok { c with pendingBuy := setSlot c.pendingBuy k b, overdueBuy := o }
  else do
    let v ← Fixed.sub (c.pendingSell k) e.qty
    let o ← Fixed.add c.overdueSell e.qty
    .ok { c with pendingSell := setSlot c.pendingSell k v, overdueSell := o }

/-- The position after a buy-in. -/
def buyInCustody (e : TradeSettled) (c : CustodyRow) : Exec CustodyRow :=
  if e.side = kSideBuy then do
    let o ← Fixed.sub c.overdueBuy e.qty
    let av ← Fixed.add c.available e.qty
    .ok { c with overdueBuy := o, available := av }
  else do
    let o ← Fixed.sub c.overdueSell e.qty
    .ok { c with overdueSell := o }

/-- From pending to cash. -/
def settleCash (k : Fin 3) (m : Raw) (a : AccountRow) : Exec AccountRow := do
  let c ← Fixed.add a.cash m
  let p ← Fixed.sub (a.pending k) m
  .ok { a with cash := c, pending := setSlot a.pending k p }

/-- From pending to overdue. -/
def failCash (k : Fin 3) (m : Raw) (a : AccountRow) : Exec AccountRow := do
  let p ← Fixed.sub (a.pending k) m
  let o ← Fixed.add a.overdue m
  .ok { a with pending := setSlot a.pending k p, overdue := o }

/-- From overdue to cash. -/
def buyInCash (m : Raw) (a : AccountRow) : Exec AccountRow := do
  let o ← Fixed.sub a.overdue m
  let c ← Fixed.add a.cash m
  .ok { a with overdue := o, cash := c }

/-- The buckets of an outcome; a quantity above the bucket is rejected first. -/
def settleBuckets (e : TradeSettled) (acct pos : ℕ) : SettleOutcome → Apply PUnit
  | .settled => do
    let k ← slot e.settlementDate
    let c ← custodyAt pos
    Proc.guard (¬ pendingOf e k c < e.qty) (.fail .qtyMismatch)
    modCustody pos (settleCustody e k)
    modAccount acct (settleCash k e.cashAmount)
  | .deliveryFailure => do
    let k ← slot e.settlementDate
    let c ← custodyAt pos
    Proc.guard (¬ pendingOf e k c < e.qty) (.fail .qtyMismatch)
    modCustody pos (failCustody e k)
    modAccount acct (failCash k e.cashAmount)
    pushException ⟨e.account, e.qty, e.instrument, e.settlementDate,
      UInt16.ofNat Err.qtyMismatch.code⟩ false
  | .boughtIn => do
    let c ← custodyAt pos
    Proc.guard (¬ overdueOf e c < e.qty) (.fail .qtyMismatch)
    modCustody pos (buyInCustody e)
    modAccount acct (buyInCash e.cashAmount)

/-- A trade covered by a settlement. -/
def covers (e : TradeSettled) (acct inst : ℕ) (r : TradeRow) : Bool :=
  decide (r.account = acct) && decide (r.instrument = inst) &&
    decide (r.settlementDate = e.settlementDate) && decide (r.side = e.side)

def applyTradeSettled (ev : EventView) : Apply PUnit := do
  let e ← decode .tradeSettled TradeSettled.ofBytes ev
  let acct ← account e.account
  let inst ← instrument e.instrument
  let found ← look fun s => .ok (s.findPosition acct inst)
  let pos ← Proc.orFail found (.fail .notFound e.instrument)
  let outcome ← Proc.orFail (SettleOutcome.ofCode e.outcome)
    (.fail .invalidArgument e.outcome.toUInt32)
  settleBuckets e acct pos outcome
  let _ ← advanceAccount acct (covers e acct inst) (triggerOf outcome)
  checkBuckets pos
  publicaPosicao ev pos

/-! ### 6. CorporateActionApplied -/

/-- The checks made before the idempotency key is used up. -/
def validateAction (e : CorporateActionApplied) : ActionType → Bool
  | .bonus | .split | .reverseSplit => decide (e.factorNum ≠ 0 ∧ e.factorDen ≠ 0)
  | .subscription => decide (0 ≤ e.qtyDelta)
  | .leftoversAuction => true

/-- A position after a split or a reverse split. Fractions of what is owned become leftovers;
what is in flight keeps its fraction. -/
def splitCustody (num den : UInt32) (c : CustodyRow) : Exec CustodyRow := do
  let (available, s₁) ← scaleQtyTrunc c.available num den
  let (blocked, s₂) ← scaleQtyTrunc c.blocked num den
  let rest ← Fixed.add s₁ s₂
  let overdueBuy ← scaleQtyKeepFraction c.overdueBuy num den
  let overdueSell ← scaleQtyKeepFraction c.overdueSell num den
  let b0 ← scaleQtyKeepFraction (c.pendingBuy 0) num den
  let b1 ← scaleQtyKeepFraction (c.pendingBuy 1) num den
  let b2 ← scaleQtyKeepFraction (c.pendingBuy 2) num den
  let v0 ← scaleQtyKeepFraction (c.pendingSell 0) num den
  let v1 ← scaleQtyKeepFraction (c.pendingSell 1) num den
  let v2 ← scaleQtyKeepFraction (c.pendingSell 2) num den
  let (whole, s₃) ← scaleQtyTrunc c.leftovers num den
  let left ← Fixed.add whole s₃
  let leftovers ← Fixed.add left rest
  let avgPrice ← scalePriceHalfEven c.avgPrice num den
  .ok { c with
    available := available
    blocked := blocked
    overdueBuy := overdueBuy
    overdueSell := overdueSell
    pendingBuy := ![b0, b1, b2]
    pendingSell := ![v0, v1, v2]
    leftovers := leftovers
    avgPrice := avgPrice }

/-- `Split` and `ReverseSplit`. -/
def actSplit (e : CorporateActionApplied) (pos : ℕ) (base : Raw) : Apply Raw := do
  modCustody pos (splitCustody e.factorNum e.factorDen)
  let c ← custodyAt pos
  let today ← Proc.lift c.custodyToday
  Proc.lift (Fixed.sub today base)

/-- `Bonus`: whole shares to the free position, the fraction to the leftovers. -/
def actBonus (e : CorporateActionApplied) (pos : ℕ) (base : Raw) : Apply Raw := do
  let (total, rest) ← Proc.lift (scaleQtyTrunc base e.factorNum e.factorDen)
  let whole ← Proc.lift (Fixed.sub total base)
  Proc.guard (¬ whole < 0) (.fail .invalidArgument)
  let cost ← Proc.lift (mulDiv .halfEven whole e.unitCost kQtyOne)
  modCustody pos fun c => do
    let avg ← averagePriceHalfEven base c.avgPrice whole cost
    let av ← Fixed.add c.available whole
    let lo ← Fixed.add c.leftovers rest
    .ok { c with avgPrice := avg, available := av, leftovers := lo }
  Proc.lift (Fixed.add whole rest)

/-- `Subscription`: no more than the right, when the event gives the ratio. -/
def actSubscription (e : CorporateActionApplied) (acct pos : ℕ) (base : Raw) : Apply Raw := do
  (if e.factorNum ≠ 0 ∧ e.factorDen ≠ 0 then do
      let (rights, _) ← Proc.lift (scaleQtyTrunc base e.factorNum e.factorDen)
      Proc.guard (¬ rights < e.qtyDelta) (.fail .qtyMismatch (UInt32.ofNat pos))
    else pure ⟨⟩)
  modCustody pos fun c => do
    let avg ← averagePriceHalfEven base c.avgPrice e.qtyDelta e.cashDelta
    let av ← Fixed.add c.available e.qtyDelta
    .ok { c with avgPrice := avg, available := av }
  modAccount acct fun a => do
    let m ← Fixed.sub a.cash e.cashDelta
    .ok { a with cash := m }
  pure e.qtyDelta

/-- `LeftoversAuction`: the fraction leaves, the money enters. -/
def actAuction (e : CorporateActionApplied) (acct pos : ℕ) : Apply Raw := do
  let c ← custodyAt pos
  let delta ← Proc.lift (Fixed.neg c.leftovers)
  modCustody pos fun c => .ok { c with leftovers := 0 }
  modAccount acct fun a => do
    let m ← Fixed.add a.cash e.cashDelta
    .ok { a with cash := m }
  pure delta

/-- The change of an action on a position; the change of quantity it computed. -/
def actOn (e : CorporateActionApplied) (acct pos : ℕ) (base : Raw) : ActionType → Apply Raw
  | .split | .reverseSplit => actSplit e pos base
  | .bonus => actBonus e pos base
  | .subscription => actSubscription e acct pos base
  | .leftoversAuction => actAuction e acct pos

/-- What an idempotency set answers to an insertion. -/
def refusedBy (actionId : UInt64) : OpenTable.Inserted Unit → Apply PUnit
  | .added => pure ⟨⟩
  | .present _ => Proc.fail (.fail .alreadyApplied actionId.toUInt32)
  | .full => Proc.fail (.fail .arenaExhausted)

/-- Use up the key of a corporate action. -/
def consumeAction (actionId : UInt64) (acct : ℕ) : Apply PUnit := do
  let r ← ask fun s =>
    ((s.appliedActions.insert actionId acct).1,
      { s with appliedActions := (s.appliedActions.insert actionId acct).2 })
  refusedBy actionId r

/-- Use up the key of an income. -/
def consumeIncome (actionId : UInt64) (acct : ℕ) : Apply PUnit := do
  let r ← ask fun s =>
    ((s.appliedIncome.insert actionId acct).1,
      { s with appliedIncome := (s.appliedIncome.insert actionId acct).2 })
  refusedBy actionId r

def applyCorporateAction (ev : EventView) : Apply PUnit := do
  let e ← decode .corporateActionApplied CorporateActionApplied.ofBytes ev
  let acct ← account e.account
  let inst ← instrument e.instrument
  let pos ← position acct inst
  let type ← Proc.orFail (ActionType.ofCode e.type) (.fail .invalidArgument e.type.toUInt32)
  Proc.guard (validateAction e type = true) (.fail .invalidArgument e.type.toUInt32)
  consumeAction e.actionId acct
  let c ← custodyAt pos
  let base ← Proc.lift c.custodyToday
  let delta ← actOn e acct pos base type
  modAccount acct fun a => do
    let m ← Fixed.sub a.incomeReceivable e.withheldTax
    .ok { a with incomeReceivable := m }
  (if e.flags &&& 1 ≠ 0 ∧ delta ≠ e.qtyDelta then
      pushException ⟨e.account, delta - e.qtyDelta, e.instrument, e.exDate,
        UInt16.ofNat Err.qtyMismatch.code⟩ false
    else pure ⟨⟩)
  checkBuckets pos
  publicaPosicao ev pos

/-! ### 7. DividendPaid -/

/-- Credit an income: accrued to receivable, paid from receivable to cash. -/
def creditIncome (e : DividendPaid) (a : AccountRow) : Exec AccountRow :=
  if e.stage = kStageAccrued then do
    let r ← Fixed.add a.incomeReceivable e.netAmount
    .ok { a with incomeReceivable := r }
  else do
    let r ← Fixed.sub a.incomeReceivable e.netAmount
    let m ← Fixed.add a.cash e.netAmount
    .ok { a with incomeReceivable := r, cash := m }

def applyDividendPaid (ev : EventView) : Apply PUnit := do
  let e ← decode .dividendPaid DividendPaid.ofBytes ev
  let acct ← account e.account
  let net ← Proc.lift (Fixed.sub e.grossAmount e.withheldTax)
  Proc.guard (net = e.netAmount) (.fail .amountMismatch)
  Proc.guard (qtyInRange e.qtyBasis = true ∧ moneyInRange e.ratePerShare = true)
    (.fail .overflow e.instrument)
  let expected ← Proc.lift (mulDiv .halfEven e.qtyBasis e.ratePerShare kQtyOne)
  (if 100 < e.grossAmount - expected ∨ e.grossAmount - expected < -100 then do
      pushException ⟨e.account, e.grossAmount - expected, e.instrument, e.exDate,
        UInt16.ofNat Err.amountMismatch.code⟩ false
      Proc.fail (.fail .amountMismatch e.instrument)
    else pure ⟨⟩)
  consumeIncome e.actionId acct
  modAccount acct (creditIncome e)

/-! ### 8. ClosingPriceSet -/

/-- The register of an instrument, replaced by the event. -/
def describe (e : ClosingPriceSet) (i : InstrumentRow) : InstrumentRow where
  externalId := i.externalId
  symbol := e.symbol
  isin := e.isin
  type := e.type
  priceFactor := e.priceFactor
  lotSize := e.lotSize
  closingPrice := e.closingPrice
  previousClose := e.previousClose
  closingDate := e.date

def applyClosingPrice (ev : EventView) : Apply PUnit := do
  let e ← decode .closingPriceSet ClosingPriceSet.ofBytes ev
  Proc.guard (e.priceFactor ≠ 0) (.fail .invalidArgument)
  let inst ← instrument e.instrument
  modInstrument inst fun i => .ok (describe e i)

/-! ### 9. CustodyReconciled -/

/-- One record per divergence, each of them marking the state. -/
def recordDivergences (date : DateYmd) (ds : List Divergence) (s : PartitionState) :
    PartitionState :=
  ds.foldl (fun s d => s.pushException ⟨d.account, d.qtyDelta, d.instrument, date,
    UInt16.ofNat Err.qtyMismatch.code⟩ true) s

def applyCustodyReconciled (ev : EventView) : Apply PUnit := do
  let date ← decode .custodyReconciled (fun b => u32At b 0) ev
  let ds ← Proc.ofExcept (viewGroup (ev.payload.drop Tmpl.custodyReconciled.blockLength))
  change fun s => .ok (recordDivergences date ds s)

/-! ### 10. EodMarked -/

def applyEodMarked (ev : EventView) : Apply PUnit := do
  let e ← decode .eodMarked EodMarked.ofBytes ev
  let custody ← look fun s => .ok s.custodyChecksum
  let cash ← look fun s => .ok s.cashChecksum
  Proc.guard ((e.custodyChecksum = 0 ∧ e.cashChecksum = 0) ∨
    (custody = e.custodyChecksum ∧ cash = e.cashChecksum)) (.fail .stateCorrupt e.date)
  change fun s => .ok
    { s with flags := if e.flags &&& 1 ≠ 0 then s.flags ||| kFlagReconDivergence else s.flags }

/-! ### Dispatch -/

/-- The handler of a template. -/
def handler (ev : EventView) : Tmpl → Apply PUnit
  | .dayOpened => applyDayOpened ev
  | .tradeExecuted => applyTradeExecuted ev
  | .tradeAllocated => applyTradeAllocated ev
  | .batchNetted => applyBatchNetted ev
  | .tradeSettled => applyTradeSettled ev
  | .corporateActionApplied => applyCorporateAction ev
  | .dividendPaid => applyDividendPaid ev
  | .closingPriceSet => applyClosingPrice ev
  | .custodyReconciled => applyCustodyReconciled ev
  | .eodMarked => applyEodMarked ev

/-- What the handler of the event's template does. -/
def dispatch (ev : EventView) : Apply PUnit :=
  match Tmpl.ofId ev.tmpl.toNat with
  | some t => handler ev t
  | none => Proc.fail (.fail .unknownTemplate ev.tmpl.toUInt32)

end Apply

/-- The status of a handler that returned. -/
def statusOf : Except Status PUnit → Status
  | .ok _ => .kOk
  | .error st => st

/-- `apply`: the handler, and then the LSN of the event, accepted or not. -/
def apply (e : Engine) (ev : EventView) : Exec (Status × Engine) := do
  let (r, e') ← Apply.dispatch ev e
  .ok (statusOf r, { e' with s := { e'.s with appliedLsn := UInt64.ofNat ev.lsn } })

end MotorRv
