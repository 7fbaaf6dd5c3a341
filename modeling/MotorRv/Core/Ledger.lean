import MotorRv.Base.Fixed
import MotorRv.Base.Ids

/-!
# Ledgers and the trade state machine

The columns of the ledgers are kept here as lists of rows: row `i` of a list is element `i` of
every column of its table, and the length of the list is the table's `count`. Row numbers that the
source marks as absent with all ones are `none`.

The columns of a row (`CustodyRow.columns` and its siblings) list the fields in the order of the
source, with their sizes; they decide what an image contains, and how much of the arena a table
takes. Sums over a row are checked additions from left to right, as in the code, so the order
decides where an overflow is noticed.

`nextState` is the transition table of a trade with its triggers. It is partial, and where there is
no edge a walk leaves the trade as it is.
-/

namespace MotorRv

/-- A value for each settlement slot. -/
abbrev Slots (α : Type) := Fin 3 → α

/-! ### Rows -/

structure CustodyRow where
  available : Raw
  pendingBuy : Slots Raw
  pendingSell : Slots Raw
  overdueBuy : Raw
  overdueSell : Raw
  blocked : Raw
  leftovers : Raw
  avgPrice : Raw
  account : ℕ
  instrument : ℕ
  flags : UInt8
  deriving DecidableEq

/-- `kShortAllowed`: short sale authorised. -/
def kShortAllowed : UInt8 := 1

/-- A cash row with what is kept per account beside it. -/
structure AccountRow where
  cash : Raw
  pending : Slots Raw
  overdue : Raw
  incomeReceivable : Raw
  document : UInt64
  firstTrade : Option ℕ
  deriving DecidableEq

structure InstrumentRow where
  externalId : UInt32
  symbol : Vector UInt8 12
  isin : Vector UInt8 12
  type : UInt8
  priceFactor : UInt32
  lotSize : UInt32
  closingPrice : Raw
  previousClose : Raw
  closingDate : DateYmd
  deriving DecidableEq

structure TradeRow where
  tradeId : UInt64
  brokerNoteId : UInt64
  account : ℕ
  instrument : ℕ
  qty : Raw
  price : Raw
  cash : Raw
  settlementDate : DateYmd
  side : UInt8
  state : UInt8
  next : Option ℕ
  deriving DecidableEq

/-- The row after `clear_row`, with its owner. -/
def CustodyRow.cleared (account instrument : ℕ) : CustodyRow :=
  ⟨0, fun _ => 0, fun _ => 0, 0, 0, 0, 0, 0, account, instrument, 0⟩

def AccountRow.cleared (document : UInt64) : AccountRow := ⟨0, fun _ => 0, 0, 0, document, none⟩

/-- A row that only names its instrument: not described yet. -/
def InstrumentRow.cleared (externalId : UInt32) : InstrumentRow :=
  ⟨externalId, .replicate 12 0, .replicate 12 0, 0, 0, 0, 0, 0, 0⟩

/-- The rows of a table whose columns were cleared while its count was kept. -/
def InstrumentRow.zero : InstrumentRow := InstrumentRow.cleared 0

def TradeRow.zero : TradeRow := ⟨0, 0, 0, 0, 0, 0, 0, 0, 0, 0, some 0⟩

/-! ### The columns of a row

In the order in which `init` asks for them and clears them.
-/

def CustodyRow.columns : List (CustodyRow → CustodyRow) :=
  [fun c => { c with available := 0 }, fun c => { c with pendingBuy := fun _ => 0 },
    fun c => { c with pendingSell := fun _ => 0 }, fun c => { c with overdueBuy := 0 },
    fun c => { c with overdueSell := 0 }, fun c => { c with blocked := 0 },
    fun c => { c with leftovers := 0 }, fun c => { c with avgPrice := 0 },
    fun c => { c with account := 0 }, fun c => { c with instrument := 0 },
    fun c => { c with flags := 0 }]

def AccountRow.columns : List (AccountRow → AccountRow) :=
  [fun a => { a with cash := 0 }, fun a => { a with pending := fun _ => 0 },
    fun a => { a with overdue := 0 }, fun a => { a with incomeReceivable := 0 }]

def InstrumentRow.columns : List (InstrumentRow → InstrumentRow) :=
  [fun i => { i with externalId := 0 }, fun i => { i with symbol := .replicate 12 0 },
    fun i => { i with isin := .replicate 12 0 }, fun i => { i with type := 0 },
    fun i => { i with priceFactor := 0 }, fun i => { i with lotSize := 0 },
    fun i => { i with closingPrice := 0 }, fun i => { i with previousClose := 0 },
    fun i => { i with closingDate := 0 }]

def TradeRow.columns : List (TradeRow → TradeRow) :=
  [fun t => { t with tradeId := 0 }, fun t => { t with brokerNoteId := 0 },
    fun t => { t with account := 0 }, fun t => { t with instrument := 0 },
    fun t => { t with qty := 0 }, fun t => { t with price := 0 }, fun t => { t with cash := 0 },
    fun t => { t with settlementDate := 0 }, fun t => { t with side := 0 },
    fun t => { t with state := 0 }, fun t => { t with next := some 0 }]

/-! ### Sums over a row -/

/-- The 64-bit pattern of a raw value. -/
def bits (r : Raw) : UInt64 := r.toUInt64

def CustodyRow.checksum (c : CustodyRow) : UInt64 :=
  bits c.available + bits c.blocked + bits c.leftovers + bits c.overdueBuy + bits c.overdueSell +
    bits c.avgPrice + (bits (c.pendingBuy 0) + bits (c.pendingSell 0)) +
    (bits (c.pendingBuy 1) + bits (c.pendingSell 1)) +
    (bits (c.pendingBuy 2) + bits (c.pendingSell 2))

def AccountRow.checksum (a : AccountRow) : UInt64 :=
  bits a.cash + bits a.overdue + bits a.incomeReceivable + bits (a.pending 0) +
    bits (a.pending 1) + bits (a.pending 2)

/-- Sum of checked values, from left to right. -/
def sumRaw : Raw → List Raw → Exec Raw
  | acc, [] => pure acc
  | acc, x :: xs => do sumRaw (← Fixed.add acc x) xs

namespace CustodyRow

/-- The quantity of invariant I1: what the investor owns today. -/
def custodyToday (c : CustodyRow) : Exec Raw :=
  sumRaw c.available [c.blocked, c.leftovers, c.overdueSell, c.pendingSell 0, c.pendingSell 1,
    c.pendingSell 2]

def shortAllowed (c : CustodyRow) : Bool := decide (c.flags &&& kShortAllowed ≠ 0)

/-- Invariant I3. -/
def bucketsNonNegative (c : CustodyRow) : Bool :=
  decide (¬ (c.available < 0 ∧ c.shortAllowed = false) ∧ 0 ≤ c.blocked ∧ 0 ≤ c.leftovers ∧
    0 ≤ c.overdueBuy ∧ 0 ≤ c.overdueSell ∧ ∀ k, 0 ≤ c.pendingBuy k ∧ 0 ≤ c.pendingSell k)

end CustodyRow

/-! ### The settlement window -/

abbrev SettlementWindow := Slots DateYmd

/-- The first slot with this date. -/
def SettlementWindow.slotOf (w : SettlementWindow) (d : DateYmd) : Option (Fin 3) :=
  if w 0 = d then some 0 else if w 1 = d then some 1 else if w 2 = d then some 2 else none

theorem SettlementWindow.slotOf_eq_some {w : SettlementWindow} {d : DateYmd} {k : Fin 3}
    (h : w.slotOf d = some k) : w k = d := by
  unfold slotOf at h
  split_ifs at h with h0 h1 h2 <;> (obtain rfl := Option.some.inj h; assumption)

theorem SettlementWindow.slotOf_eq_none {w : SettlementWindow} {d : DateYmd} :
    w.slotOf d = none ↔ ∀ k, w k ≠ d := by
  unfold slotOf
  constructor
  · intro h k
    split_ifs at h with h0 h1 h2
    match k with
    | 0 => exact h0
    | 1 => exact h1
    | 2 => exact h2
  · intro h
    rw [if_neg (h 0), if_neg (h 1), if_neg (h 2)]

/-! ### The trade state machine -/

inductive TradeState
  | none
  | executed
  | allocated
  | netted
  | settled
  | deliveryFailed
  | closed
  deriving DecidableEq, Repr

inductive TradeTrigger
  | execute
  | allocate
  | net
  | settle
  | fail
  | buyIn
  | close
  deriving DecidableEq, Repr

namespace TradeState

def code : TradeState → UInt8
  | .none => 0
  | .executed => 1
  | .allocated => 2
  | .netted => 3
  | .settled => 4
  | .deliveryFailed => 5
  | .closed => 6

/-- The state a stored byte stands for; a byte past the enumeration is outside the table. -/
def ofCode : UInt8 → Option TradeState
  | 0 => some .none
  | 1 => some .executed
  | 2 => some .allocated
  | 3 => some .netted
  | 4 => some .settled
  | 5 => some .deliveryFailed
  | 6 => some .closed
  | _ => Option.none

@[simp] theorem ofCode_code (s : TradeState) : ofCode s.code = some s := by cases s <;> rfl

theorem code_of_ofCode {b : UInt8} {x : TradeState} (h : ofCode b = some x) : x.code = b := by
  unfold ofCode at h
  split at h <;> first | (obtain rfl := Option.some.inj h; rfl) | cases h

end TradeState

/-- The transition table: the next state, or `none` where there is no edge. -/
def nextState : TradeState → TradeTrigger → TradeState
  | .none, .execute => .executed
  | .executed, .allocate => .allocated
  | .allocated, .net => .netted
  | .netted, .settle => .settled
  | .netted, .fail => .deliveryFailed
  | .deliveryFailed, .buyIn => .netted
  | .deliveryFailed, .close => .closed
  | .settled, .close => .closed
  | _, _ => .none

end MotorRv
