import MotorRv.Base.Fixed
import MotorRv.Base.Ids

/-!
# The ten events

Blocks are little-endian with the fields in schema order; a payload longer than its block is
accepted and the rest ignored. Each structure holds the fields that the handlers read.

The ten templates are an enumeration (`Tmpl`), with the number and the block length of each as
functions, so a payload that carries an unknown number is told from one that is too short. The
fields of type `enum` in the schema are single bytes on the wire: some handlers refuse an unknown
value (`SettleOutcome.ofCode` and `ActionType.ofCode` are partial), others take every value but one
for the other case, and the definitions keep that difference.

The report of custody is the only event with a repeated group. The size and the number of its
elements, and what is left of the payload, are checked before an element is read (`viewGroup`), each
with its own status.
-/

namespace MotorRv

open Lib

/-! ### Fields of a block -/

def u8At (b : Bytes) (off : ℕ) : UInt8 := decU8 (slice b off 1)
def u16At (b : Bytes) (off : ℕ) : UInt16 := decU16 (slice b off 2)
def u32At (b : Bytes) (off : ℕ) : UInt32 := decU32 (slice b off 4)
def u64At (b : Bytes) (off : ℕ) : UInt64 := decU64 (slice b off 8)
def i64At (b : Bytes) (off : ℕ) : Int64 := decI64 (slice b off 8)

/-- A text of twelve bytes. -/
def text12At (b : Bytes) (off : ℕ) : Vector UInt8 12 := .ofFn fun i => b.getD (off + i) 0

/-! ### Templates and enumerations -/

/-- The template of an event. -/
inductive Tmpl
  | dayOpened
  | tradeExecuted
  | tradeAllocated
  | batchNetted
  | tradeSettled
  | corporateActionApplied
  | dividendPaid
  | closingPriceSet
  | custodyReconciled
  | eodMarked
  deriving DecidableEq, Repr

namespace Tmpl

def ofId : ℕ → Option Tmpl
  | 1 => some dayOpened
  | 2 => some tradeExecuted
  | 3 => some tradeAllocated
  | 4 => some batchNetted
  | 5 => some tradeSettled
  | 6 => some corporateActionApplied
  | 7 => some dividendPaid
  | 8 => some closingPriceSet
  | 9 => some custodyReconciled
  | 10 => some eodMarked
  | _ => none

/-- `kBlockLength` of the template. -/
def blockLength : Tmpl → ℕ
  | dayOpened => 24
  | tradeExecuted => 88
  | tradeAllocated => 64
  | batchNetted => 32
  | tradeSettled => 56
  | corporateActionApplied => 88
  | dividendPaid => 72
  | closingPriceSet => 64
  | custodyReconciled => 16
  | eodMarked => 32

end Tmpl

/-- `Side::Buy`; every other byte is a sale. -/
def kSideBuy : UInt8 := 1

inductive SettleOutcome
  | settled
  | deliveryFailure
  | boughtIn
  deriving DecidableEq

def SettleOutcome.ofCode : UInt8 → Option SettleOutcome
  | 1 => some .settled
  | 2 => some .deliveryFailure
  | 3 => some .boughtIn
  | _ => none

inductive ActionType
  | bonus
  | split
  | reverseSplit
  | subscription
  | leftoversAuction
  deriving DecidableEq

def ActionType.ofCode : UInt8 → Option ActionType
  | 1 => some .bonus
  | 2 => some .split
  | 3 => some .reverseSplit
  | 4 => some .subscription
  | 5 => some .leftoversAuction
  | _ => none

/-- `IncomeStage::Accrued`; every other byte is a payment. -/
def kStageAccrued : UInt8 := 1
def kStagePaid : UInt8 := 2

/-! ### Blocks -/

structure DayOpened where
  businessDate : DateYmd
  prevBusinessDate : DateYmd
  settleD1 : DateYmd
  settleD2 : DateYmd

def DayOpened.ofBytes (b : Bytes) : DayOpened := ⟨u32At b 0, u32At b 4, u32At b 8, u32At b 12⟩

structure TradeExecuted where
  tradeId : UInt64
  brokerNoteId : UInt64
  account : UInt64
  qty : Raw
  price : Raw
  brokerageFee : Raw
  exchangeFee : Raw
  clearingFee : Raw
  taxes : Raw
  instrument : UInt32
  settlementDate : DateYmd
  flags : UInt16
  side : UInt8

def TradeExecuted.ofBytes (b : Bytes) : TradeExecuted where
  tradeId := u64At b 0
  brokerNoteId := u64At b 8
  account := u64At b 16
  qty := i64At b 24
  price := i64At b 32
  brokerageFee := i64At b 40
  exchangeFee := i64At b 48
  clearingFee := i64At b 56
  taxes := i64At b 64
  instrument := u32At b 72
  settlementDate := u32At b 76
  flags := u16At b 80
  side := u8At b 82

structure TradeAllocated where
  tradeId : UInt64
  fromAccount : UInt64
  toAccount : UInt64
  qty : Raw
  cashAmount : Raw
  settlementDate : DateYmd
  side : UInt8

def TradeAllocated.ofBytes (b : Bytes) : TradeAllocated where
  tradeId := u64At b 8
  fromAccount := u64At b 16
  toAccount := u64At b 24
  qty := i64At b 32
  cashAmount := i64At b 40
  settlementDate := u32At b 52
  side := u8At b 56

structure BatchNetted where
  account : UInt64
  netAmount : Raw
  settlementDate : DateYmd
  tradeCount : UInt32

def BatchNetted.ofBytes (b : Bytes) : BatchNetted where
  account := u64At b 8
  netAmount := i64At b 16
  settlementDate := u32At b 24
  tradeCount := u32At b 28

structure TradeSettled where
  account : UInt64
  qty : Raw
  cashAmount : Raw
  costBasis : Raw
  instrument : UInt32
  settlementDate : DateYmd
  side : UInt8
  outcome : UInt8

def TradeSettled.ofBytes (b : Bytes) : TradeSettled where
  account := u64At b 8
  qty := i64At b 16
  cashAmount := i64At b 24
  costBasis := i64At b 32
  instrument := u32At b 40
  settlementDate := u32At b 44
  side := u8At b 48
  outcome := u8At b 49

structure CorporateActionApplied where
  actionId : UInt64
  account : UInt64
  qtyDelta : Raw
  cashDelta : Raw
  withheldTax : Raw
  unitCost : Raw
  instrument : UInt32
  exDate : DateYmd
  factorNum : UInt32
  factorDen : UInt32
  type : UInt8
  flags : UInt8

def CorporateActionApplied.ofBytes (b : Bytes) : CorporateActionApplied where
  actionId := u64At b 0
  account := u64At b 8
  qtyDelta := i64At b 16
  cashDelta := i64At b 32
  withheldTax := i64At b 40
  unitCost := i64At b 48
  instrument := u32At b 56
  exDate := u32At b 64
  factorNum := u32At b 72
  factorDen := u32At b 76
  type := u8At b 80
  flags := u8At b 81

structure DividendPaid where
  actionId : UInt64
  account : UInt64
  qtyBasis : Raw
  ratePerShare : Raw
  grossAmount : Raw
  withheldTax : Raw
  netAmount : Raw
  instrument : UInt32
  exDate : DateYmd
  stage : UInt8

def DividendPaid.ofBytes (b : Bytes) : DividendPaid where
  actionId := u64At b 0
  account := u64At b 8
  qtyBasis := i64At b 16
  ratePerShare := i64At b 24
  grossAmount := i64At b 32
  withheldTax := i64At b 40
  netAmount := i64At b 48
  instrument := u32At b 56
  exDate := u32At b 60
  stage := u8At b 69

structure ClosingPriceSet where
  closingPrice : Raw
  previousClose : Raw
  instrument : UInt32
  date : DateYmd
  priceFactor : UInt32
  lotSize : UInt32
  symbol : Vector UInt8 12
  isin : Vector UInt8 12
  type : UInt8

def ClosingPriceSet.ofBytes (b : Bytes) : ClosingPriceSet where
  closingPrice := i64At b 0
  previousClose := i64At b 8
  instrument := u32At b 16
  date := u32At b 20
  priceFactor := u32At b 24
  lotSize := u32At b 28
  symbol := text12At b 32
  isin := text12At b 44
  type := u8At b 56

structure EodMarked where
  custodyChecksum : UInt64
  cashChecksum : UInt64
  date : DateYmd
  flags : UInt32

def EodMarked.ofBytes (b : Bytes) : EodMarked := ⟨u64At b 0, u64At b 8, u32At b 16, u32At b 28⟩

/-! ### The repeated group -/

structure Divergence where
  account : UInt64
  qtyDelta : Raw
  instrument : UInt32

def Divergence.ofBytes (b : Bytes) : Divergence := ⟨u64At b 0, i64At b 8, u32At b 16⟩

/-- `sizeof(CustodyReconciledDivergence)`. -/
def kDivergenceBytes : ℕ := 24

/-- `kMaxCustodyReconciledDivergence`. -/
def kMaxDivergence : ℕ := 16

/-- `view_group`: the elements after the block, or why they are refused. -/
def viewGroup (b : Bytes) : Except Status (List Divergence) :=
  if b.length < 8 then .error (.fail .shortPayload (UInt32.ofNat b.length))
  else if (u16At b 0).toNat ≠ kDivergenceBytes then .error (.fail .badBlockLength)
  else if kMaxDivergence < (u16At b 2).toNat then .error (.fail .groupTooLarge)
  else if (b.drop 8).length < (u16At b 2).toNat * kDivergenceBytes then
    .error (.fail .shortPayload)
  else
    .ok ((List.range (u16At b 2).toNat).map fun i =>
      .ofBytes (slice (b.drop 8) (i * kDivergenceBytes) kDivergenceBytes))

end MotorRv
