import MotorRv.Base.Arena
import MotorRv.Base.Index
import MotorRv.Core.Ledger

/-!
# The state of a partition

Everything `apply` reads and writes. The indexes are caches of relations that the rows hold; the
two idempotency sets are data of their own. A row is created by interning, in the order in which
the identities appear, and only trades are ever removed, by the compaction at the opening of a day.

`init` is a list of steps, each with what it asks of the arena, what it makes of the state when that
is granted, and what it leaves when it is refused. The capacities are kept twice, as they were asked
for last (`PartitionCapacity`) and as each table has them (`TableCapacity`), because an `init` that
is cut short has changed the first already and not all of the second, and recovery goes on with such
a state.

The functions that follow are those of the source: interning, the rebuilding of the indexes, the
compaction as a filter, the checksums and the ring of exceptions. `blank` is the state before any
`init`; all runs of the development begin with an `init` of it.
-/

namespace MotorRv

open Lib

structure PartitionCapacity where
  accounts : UInt32
  instruments : UInt32
  positions : UInt32
  trades : UInt32
  corporateActionsPerGen : UInt32
  exceptions : UInt32
  outboxSlots : UInt32
  outboxPayloadBytes : UInt32
  idempotencyWindowDays : Int32
  deriving DecidableEq

/-- The capacities that the tables and the exception queue were given. -/
structure TableCapacity where
  positions : UInt32
  accounts : UInt32
  instruments : UInt32
  trades : UInt32
  exceptions : UInt32
  deriving DecidableEq

/-- What the tables are given by an `init` that is granted everything. -/
def PartitionCapacity.forTables (c : PartitionCapacity) : TableCapacity :=
  ⟨c.positions, c.accounts, c.instruments, c.trades, c.exceptions⟩

/-- The capacities asked for last, and beside them what each table compares its count with. The two
differ where an `init` was cut short: it replaces the former first and the latter table by table. -/
structure StateCapacity extends PartitionCapacity where
  tables : TableCapacity
  deriving DecidableEq

instance : Coe StateCapacity PartitionCapacity := ⟨StateCapacity.toPartitionCapacity⟩

structure ExceptionRecord where
  document : UInt64
  qtyDeltaRaw : Raw
  instrument : UInt32
  date : UInt32
  errCode : UInt16
  deriving DecidableEq

def ExceptionRecord.zero : ExceptionRecord := ⟨0, 0, 0, 0, 0⟩

/-- `kFlagReconDivergence`. -/
def kFlagReconDivergence : UInt32 := 1

structure PartitionState where
  id : UInt16
  cap : StateCapacity
  businessDate : DateYmd
  prevBusinessDate : DateYmd
  window : SettlementWindow
  appliedLsn : UInt64
  custody : List CustodyRow
  accounts : List AccountRow
  instruments : List InstrumentRow
  trades : List TradeRow
  accountIndex : DenseIndex
  positionIndex : DenseIndex
  instrumentIndex : DenseIndex
  tradeIndex : DenseIndex
  appliedActions : TwoGenSet
  appliedIncome : TwoGenSet
  exceptions : List ExceptionRecord
  exceptionCount : UInt32
  exceptionDropped : UInt32
  flags : UInt32

namespace PartitionState

/-! ### Keys -/

/-- The key of a position: account above instrument. -/
def positionKey (account instrument : ℕ) : UInt64 := UInt64.ofNat (account * 2 ^ 32 + instrument)

def accountKeys (s : PartitionState) : List UInt64 := s.accounts.map (·.document)

def positionKeys (s : PartitionState) : List UInt64 :=
  s.custody.map fun c => positionKey c.account c.instrument

/-- The key of an instrument: its external id. -/
def instrumentKey (externalId : UInt32) : UInt64 := externalId.toUInt64

def instrumentKeys (s : PartitionState) : List UInt64 :=
  s.instruments.map fun i => instrumentKey i.externalId

def tradeKeys (s : PartitionState) : List UInt64 := s.trades.map (·.tradeId)

/-! ### Initialisation -/

/-- The slots of the four indexes and of a generation of the idempotency sets; no answer where
the doubling of `slotCount` never ends. -/
def indexSlots (c : PartitionCapacity) : Option (ℕ × ℕ × ℕ × ℕ × ℕ) := do
  let na ← slotCount c.accounts.toNat
  let np ← slotCount c.positions.toNat
  let ni ← slotCount c.instruments.toNat
  let nt ← slotCount c.trades.toNat
  let ng ← slotCount c.corporateActionsPerGen.toNat
  pure (na, np, ni, nt, ng)

/-- A column of `n` elements. -/
def column (size : ℕ) (n : UInt32) : ℕ × ℕ := (size * n.toNat, size)

/-- A column of `n` texts of twelve characters. -/
def textColumn (n : UInt32) : ℕ × ℕ := (12 * n.toNat, 1)

/-- The columns of the custody ledger. The slot columns are sized in 32 bits. -/
def custodyBlock (p : UInt32) : Arena.Block :=
  ⟨[column 8 p, column 8 (3 * p), column 8 (3 * p), column 8 p, column 8 p, column 8 p, column 8 p,
    column 8 p, column 4 p, column 4 p, column 1 p], false⟩

def cashBlock (a : UInt32) : Arena.Block :=
  ⟨[column 8 a, column 8 (3 * a), column 8 a, column 8 a], false⟩

def instrumentBlock (i : UInt32) : Arena.Block :=
  ⟨[column 4 i, textColumn i, textColumn i, column 1 i, column 4 i, column 4 i, column 8 i,
    column 8 i, column 4 i], false⟩

def tradeBlock (t : UInt32) : Arena.Block :=
  ⟨[column 8 t, column 8 t, column 4 t, column 4 t, column 8 t, column 8 t, column 8 t, column 4 t,
    column 1 t, column 1 t, column 4 t], false⟩

/-- The columns of an index of so many slots. -/
def denseBlock (slots : ℕ) : Arena.Block := ⟨[(8 * slots, 8), (4 * slots, 4)], true⟩

def pairBlock (slots : ℕ) : Arena.Block := ⟨[(8 * slots, 8), (4 * slots, 4), (1 * slots, 1)], true⟩

/-- The columns of the accounts that are no ledger. -/
def ownerBlock (a : UInt32) : Arena.Block := ⟨[column 4 a, column 8 a], false⟩

def exceptionBlock (n : UInt32) : Arena.Block := ⟨[(32 * n.toNat, 8)], false⟩

/-- A step of `init`: what it asks of the arena, the state where that is granted, and the state
where it is refused after so many columns. -/
structure InitStep where
  block : Arena.Block
  granted : PartitionState → PartitionState
  refused : ℕ → PartitionState → PartitionState

/-- The rows of a table whose first `n` columns are new. -/
def wiped {ρ : Type} (columns : List (ρ → ρ)) (n : ℕ) (rows : List ρ) : List ρ :=
  rows.map fun r => (columns.take n).foldl (fun r clear => clear r) r

/-- The ledgers start over; the other two tables keep their counts. -/
def tableSteps (c : PartitionCapacity) : List InitStep :=
  [⟨custodyBlock c.positions,
      fun s => { s with custody := [], cap.tables.positions := c.positions },
      fun n s => { s with custody := wiped CustodyRow.columns n s.custody }⟩,
    ⟨cashBlock c.accounts,
      fun s => { s with accounts := [], cap.tables.accounts := c.accounts },
      fun n s => { s with accounts := wiped AccountRow.columns n s.accounts }⟩,
    ⟨instrumentBlock c.instruments,
      fun s => { s with
        instruments := List.replicate s.instruments.length InstrumentRow.zero
        cap.tables.instruments := c.instruments },
      fun n s => { s with instruments := wiped InstrumentRow.columns n s.instruments }⟩,
    ⟨tradeBlock c.trades,
      fun s => { s with
        trades := List.replicate s.trades.length TradeRow.zero
        cap.tables.trades := c.trades },
      fun n s => { s with trades := wiped TradeRow.columns n s.trades }⟩]

/-- An index is left alone unless all its columns are granted. -/
def indexStep (block : ℕ → Arena.Block) (fill : ℕ → PartitionState → PartitionState)
    (slots : ℕ) : InitStep :=
  ⟨block slots, fill slots, fun _ s => s⟩

/-- The indexes with the capacities they are sized for, then the generations of the two idempotency
sets, whose choice of a generation and date `init` leaves alone. -/
def indexSteps (c : PartitionCapacity) : List (UInt32 × (ℕ → InitStep)) :=
  [(c.accounts, indexStep denseBlock fun n s => { s with accountIndex := OpenTable.empty n }),
    (c.positions, indexStep denseBlock fun n s => { s with positionIndex := OpenTable.empty n }),
    (c.instruments, indexStep denseBlock fun n s =>
      { s with instrumentIndex := OpenTable.empty n }),
    (c.trades, indexStep denseBlock fun n s => { s with tradeIndex := OpenTable.empty n }),
    (c.corporateActionsPerGen,
      indexStep pairBlock fun n s => { s with appliedActions.gen0 := OpenTable.empty n }),
    (c.corporateActionsPerGen,
      indexStep pairBlock fun n s => { s with appliedActions.gen1 := OpenTable.empty n }),
    (c.corporateActionsPerGen,
      indexStep pairBlock fun n s => { s with appliedIncome.gen0 := OpenTable.empty n }),
    (c.corporateActionsPerGen,
      indexStep pairBlock fun n s => { s with appliedIncome.gen1 := OpenTable.empty n })]

/-- The columns of the accounts that are no ledger, of which no row is left, and the exceptions. -/
def restSteps (c : PartitionCapacity) : List InitStep :=
  [⟨ownerBlock c.accounts, fun s => s, fun _ s => s⟩,
    ⟨exceptionBlock c.exceptions,
      fun s => { s with
        exceptions := List.replicate c.exceptions.toNat ExceptionRecord.zero
        cap.tables.exceptions := c.exceptions },
      fun _ s => s⟩]

/-- The doubling of the slots of an index that is too large never ends. -/
def sizedStep (x : UInt32 × (ℕ → InitStep)) : Exec InitStep :=
  match slotCount x.1.toNat with
  | none => .error .endlessLoop
  | some slots => .ok (x.2 slots)

/-- The steps in the order of the source. -/
def initSteps (c : PartitionCapacity) : List (Exec InitStep) :=
  (tableSteps c).map .ok ++ ((indexSteps c).map sizedStep ++ (restSteps c).map .ok)

/-- Step after step, up to the first that is refused. -/
def runInit : List (Exec InitStep) → PartitionState → Arena →
    Exec (Bool × PartitionState × Arena)
  | [], s, arena => .ok (true, s, arena)
  | .error a :: _, _, _ => .error a
  | .ok step :: steps, s, arena =>
    match arena.allocBlock step.block with
    | (true, arena') => runInit steps (step.granted s) arena'
    | (false, arena') =>
      .ok (false, step.refused (arena.columnsGranted step.block.columns) s, arena')

/-- `init`: whether it succeeded, the state and the arena. A capacity whose triple does not fit in
32 bits gets slot columns shorter than its rows, which the model does not follow. -/
def init (s : PartitionState) (arena : Arena) (pid : UInt16) (c : PartitionCapacity) :
    Exec (Bool × PartitionState × Arena) := do
  let (ok, s', arena') ←
    runInit (initSteps c) { s with id := pid, cap := { c with tables := s.cap.tables } } arena
  if (ok && !arena'.overflowed) = false then .ok (false, s', arena')
  else if 2 ^ 32 ≤ 3 * c.positions.toNat ∨ 2 ^ 32 ≤ 3 * c.accounts.toNat then .error .outOfBounds
  else .ok (true, s', arena')

/-- What `init` asks of the arena, in its order. -/
def initBlocks (c : PartitionCapacity) : ℕ × ℕ × ℕ × ℕ × ℕ → List Arena.Block
  | (na, np, ni, nt, ng) =>
    [custodyBlock c.positions, cashBlock c.accounts, instrumentBlock c.instruments,
      tradeBlock c.trades, denseBlock na, denseBlock np, denseBlock ni, denseBlock nt, pairBlock ng,
      pairBlock ng, pairBlock ng, pairBlock ng, ownerBlock c.accounts, exceptionBlock c.exceptions]

/-- Idempotency sets emptied by `init`, which leaves generation and date alone. -/
def emptied (s : TwoGenSet) (slots : ℕ) : TwoGenSet :=
  { s with gen0 := OpenTable.empty slots, gen1 := OpenTable.empty slots }

/-- The state once every request was granted. The two ledgers start over; the other counts, the
dates, the applied LSN, the exception counters and the flags are what they were. -/
def initialised (s : PartitionState) (pid : UInt16) (c : PartitionCapacity) :
    ℕ × ℕ × ℕ × ℕ × ℕ → PartitionState
  | (na, np, ni, nt, ng) =>
    { s with
      id := pid
      cap := { c with tables := c.forTables }
      custody := []
      accounts := []
      instruments := List.replicate s.instruments.length InstrumentRow.zero
      trades := List.replicate s.trades.length TradeRow.zero
      accountIndex := OpenTable.empty na
      positionIndex := OpenTable.empty np
      instrumentIndex := OpenTable.empty ni
      tradeIndex := OpenTable.empty nt
      appliedActions := emptied s.appliedActions ng
      appliedIncome := emptied s.appliedIncome ng
      exceptions := List.replicate c.exceptions.toNat ExceptionRecord.zero }

/-- A default-constructed set. -/
def blankSet : TwoGenSet := ⟨OpenTable.empty 0, OpenTable.empty 0, false, 0⟩

/-- A default-constructed state: its tables hold nothing yet. -/
def blank : PartitionState where
  id := 0
  cap := ⟨⟨65536, 4096, 262144, 1048576, 65536, 4096, 16384, 4194304, 60⟩, ⟨0, 0, 0, 0, 0⟩⟩
  businessDate := 0
  prevBusinessDate := 0
  window := fun _ => 0
  appliedLsn := 0
  custody := []
  accounts := []
  instruments := []
  trades := []
  accountIndex := OpenTable.empty 0
  positionIndex := OpenTable.empty 0
  instrumentIndex := OpenTable.empty 0
  tradeIndex := OpenTable.empty 0
  appliedActions := blankSet
  appliedIncome := blankSet
  exceptions := []
  exceptionCount := 0
  exceptionDropped := 0
  flags := 0

/-! ### Interning -/

/-- Row of the account of a document; `none` is the source's `kEmpty`. The capacity is looked at
before the index. -/
def internAccount (s : PartitionState) (doc : UInt64) : Option ℕ × PartitionState :=
  if s.cap.tables.accounts.toNat ≤ s.accounts.length then (none, s)
  else
    match s.accountIndex.insertOrGet doc s.accounts.length with
    | (.full, t) => (none, { s with accountIndex := t })
    | (.present i, t) => (some i, { s with accountIndex := t })
    | (.added, t) =>
      (some s.accounts.length,
        { s with accountIndex := t, accounts := s.accounts ++ [AccountRow.cleared doc] })

def internInstrument (s : PartitionState) (externalId : UInt32) : Option ℕ × PartitionState :=
  if s.cap.tables.instruments.toNat ≤ s.instruments.length then (none, s)
  else
    match s.instrumentIndex.insertOrGet (instrumentKey externalId) s.instruments.length with
    | (.full, t) => (none, { s with instrumentIndex := t })
    | (.present i, t) => (some i, { s with instrumentIndex := t })
    | (.added, t) =>
      (some s.instruments.length,
        { s with
          instrumentIndex := t
          instruments := s.instruments ++ [InstrumentRow.cleared externalId] })

def internPosition (s : PartitionState) (account instrument : ℕ) : Option ℕ × PartitionState :=
  if s.cap.tables.positions.toNat ≤ s.custody.length then (none, s)
  else
    match s.positionIndex.insertOrGet (positionKey account instrument) s.custody.length with
    | (.full, t) => (none, { s with positionIndex := t })
    | (.present i, t) => (some i, { s with positionIndex := t })
    | (.added, t) =>
      (some s.custody.length,
        { s with
          positionIndex := t
          custody := s.custody ++ [CustodyRow.cleared account instrument] })

def findPosition (s : PartitionState) (account instrument : ℕ) : Option ℕ :=
  s.positionIndex.find (positionKey account instrument)

/-! ### Indexes from the rows -/

/-- Insert keys with consecutive row numbers; whether all fitted. -/
def insertKeys : DenseIndex → ℕ → List UInt64 → Bool × DenseIndex
  | t, _, [] => (true, t)
  | t, i, k :: ks =>
    match t.insertOrGet k i with
    | (.full, t') => (false, t')
    | (_, t') => insertKeys t' (i + 1) ks

/-- The same, when the answers are thrown away. -/
def insertKeysUnchecked : DenseIndex → ℕ → List UInt64 → DenseIndex
  | t, _, [] => t
  | t, i, k :: ks => insertKeysUnchecked (t.insertOrGet k i).2 (i + 1) ks

/-- `rebuild_indexes`: it stops at the first index that is full. -/
def rebuildIndexes (s : PartitionState) : Bool × PartitionState :=
  match insertKeys s.accountIndex 0 s.accountKeys with
  | (false, t) => (false, { s with accountIndex := t })
  | (true, ta) =>
    match insertKeys s.positionIndex 0 s.positionKeys with
    | (false, t) => (false, { s with accountIndex := ta, positionIndex := t })
    | (true, tp) =>
      match insertKeys s.instrumentIndex 0 s.instrumentKeys with
      | (false, t) =>
        (false, { s with accountIndex := ta, positionIndex := tp, instrumentIndex := t })
      | (true, ti) =>
        match insertKeys s.tradeIndex 0 s.tradeKeys with
        | (ok, t) =>
          (ok, { s with
            accountIndex := ta
            positionIndex := tp
            instrumentIndex := ti
            tradeIndex := t })

/-! ### Compaction -/

/-- A trade that ends with the day: settled, with its date out of the window. -/
def closes (w : SettlementWindow) (t : TradeRow) : Bool :=
  decide (t.state = TradeState.settled.code) && (w.slotOf t.settlementDate).isNone

/-- Link the trades again, from the last to the first, each in front of its account's list. -/
def relink : ℕ → List TradeRow → List AccountRow → Exec (List TradeRow × List AccountRow)
  | _, [], accounts => .ok ([], accounts)
  | i, t :: ts, accounts => do
    let (ts', accounts') ← relink (i + 1) ts accounts
    match accounts'[t.account]? with
    | none => .error .outOfBounds
    | some a =>
      .ok ({ t with next := a.firstTrade } :: ts',
        accounts'.set t.account { a with firstTrade := some i })

/-- `close_and_compact_trades`: with nothing to close nothing is touched. -/
def closeAndCompactTrades (s : PartitionState) : Exec PartitionState :=
  if s.trades.any (closes s.window) then do
    let kept := s.trades.filter fun t => !closes s.window t
    let (trades, accounts) ← relink 0 kept (s.accounts.map fun a => { a with firstTrade := none })
    .ok { s with
      trades := trades
      accounts := accounts
      tradeIndex := insertKeysUnchecked s.tradeIndex.clear 0 (trades.map (·.tradeId)) }
  else .ok s

/-! ### Checksums and exceptions -/

/-- The anchor of the custody ledger: a wrapping sum. -/
def custodyChecksum (s : PartitionState) : UInt64 := (s.custody.map CustodyRow.checksum).sum

def cashChecksum (s : PartitionState) : UInt64 := (s.accounts.map AccountRow.checksum).sum

/-- The exception queue is a ring: a full queue loses its oldest record and counts it. -/
def pushException (s : PartitionState) (r : ExceptionRecord) (marksDivergence : Bool) :
    PartitionState :=
  if s.cap.tables.exceptions = 0 then s
  else
    { s with
      exceptionDropped :=
        if s.cap.tables.exceptions ≤ s.exceptionCount then s.exceptionDropped + 1
        else s.exceptionDropped
      exceptions := s.exceptions.set (s.exceptionCount % s.cap.tables.exceptions).toNat r
      exceptionCount := s.exceptionCount + 1
      flags := if marksDivergence then s.flags ||| kFlagReconDivergence else s.flags }

end PartitionState

end MotorRv
