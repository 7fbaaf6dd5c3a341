import MotorRv.Codec.Events

/-!
# Writing the events

The blocks that stand for given fields, as a producer writes them, with zeros for the fields no
handler reads. Decoding a block gives back what was written.

The round trips make the replay of a log meaningful: an event and its record determine each other,
as far as the handlers look. Nothing is claimed of the padding, nor of fields that no handler reads;
a block that differs from `encode` there is decoded to the same event.

The last section names a few events of one instrument and one day. The examples and the concrete
runs of the other modules are built from them.
-/

namespace MotorRv

open Lib

/-- Bytes that nobody reads. -/
def pad (n : ℕ) : Bytes := List.replicate n 0

@[simp] theorem length_pad (n : ℕ) : (pad n).length = n := List.length_replicate

def DayOpened.encode (e : DayOpened) : Bytes :=
  encU32 e.businessDate ++ encU32 e.prevBusinessDate ++ encU32 e.settleD1 ++ encU32 e.settleD2 ++
    pad 8

def TradeExecuted.encode (e : TradeExecuted) : Bytes :=
  encU64 e.tradeId ++ encU64 e.brokerNoteId ++ encU64 e.account ++ encI64 e.qty ++
    encI64 e.price ++ encI64 e.brokerageFee ++ encI64 e.exchangeFee ++ encI64 e.clearingFee ++
    encI64 e.taxes ++ encU32 e.instrument ++ encU32 e.settlementDate ++ encU16 e.flags ++
    encU8 e.side ++ pad 5

def TradeAllocated.encode (e : TradeAllocated) : Bytes :=
  pad 8 ++ encU64 e.tradeId ++ encU64 e.fromAccount ++ encU64 e.toAccount ++ encI64 e.qty ++
    encI64 e.cashAmount ++ pad 4 ++ encU32 e.settlementDate ++ encU8 e.side ++ pad 7

def BatchNetted.encode (e : BatchNetted) : Bytes :=
  pad 8 ++ encU64 e.account ++ encI64 e.netAmount ++ encU32 e.settlementDate ++
    encU32 e.tradeCount

def TradeSettled.encode (e : TradeSettled) : Bytes :=
  pad 8 ++ encU64 e.account ++ encI64 e.qty ++ encI64 e.cashAmount ++ encI64 e.costBasis ++
    encU32 e.instrument ++ encU32 e.settlementDate ++ encU8 e.side ++ encU8 e.outcome ++ pad 6

def CorporateActionApplied.encode (e : CorporateActionApplied) : Bytes :=
  encU64 e.actionId ++ encU64 e.account ++ encI64 e.qtyDelta ++ pad 8 ++ encI64 e.cashDelta ++
    encI64 e.withheldTax ++ encI64 e.unitCost ++ encU32 e.instrument ++ pad 4 ++ encU32 e.exDate ++
    pad 4 ++ encU32 e.factorNum ++ encU32 e.factorDen ++ encU8 e.type ++ encU8 e.flags ++ pad 6

def DividendPaid.encode (e : DividendPaid) : Bytes :=
  encU64 e.actionId ++ encU64 e.account ++ encI64 e.qtyBasis ++ encI64 e.ratePerShare ++
    encI64 e.grossAmount ++ encI64 e.withheldTax ++ encI64 e.netAmount ++ encU32 e.instrument ++
    encU32 e.exDate ++ pad 5 ++ encU8 e.stage ++ pad 2

def ClosingPriceSet.encode (e : ClosingPriceSet) : Bytes :=
  encI64 e.closingPrice ++ encI64 e.previousClose ++ encU32 e.instrument ++ encU32 e.date ++
    encU32 e.priceFactor ++ encU32 e.lotSize ++ e.symbol.toList ++ e.isin.toList ++ encU8 e.type ++
    pad 7

def EodMarked.encode (e : EodMarked) : Bytes :=
  encU64 e.custodyChecksum ++ encU64 e.cashChecksum ++ encU32 e.date ++ pad 8 ++ encU32 e.flags

@[simp] theorem take_encU8 (x : UInt8) : (encU8 x).take 1 = encU8 x := rfl
@[simp] theorem tail_encU8 (x : UInt8) : (encU8 x).tail = [] := rfl

@[simp] theorem take_encU32 (x : UInt32) : (encU32 x).take 4 = encU32 x :=
  List.take_of_length_le (by simp)

/-- A text of twelve bytes is read where it was written. -/
theorem text12At_append (b post : Bytes) (v : Vector UInt8 12) (off : ℕ) (h : b.length = off) :
    text12At (b ++ (v.toList ++ post)) off = v := by
  subst h
  refine Vector.ext fun i hi => ?_
  have hlt : i < v.toList.length := by simpa using hi
  rw [text12At, Vector.getElem_ofFn, List.getD_eq_getElem?_getD,
    List.getElem?_append_right (Nat.le_add_right _ _), Nat.add_sub_cancel_left,
    List.getElem?_append_left hlt, List.getElem?_eq_getElem hlt]
  rfl

/-! ### Decoding what was written -/

/-- The block of an event is decoded to the event; so are those of the other events below. -/
theorem DayOpened.ofBytes_encode (e : DayOpened) : ofBytes e.encode = e := by
  simp [ofBytes, encode, u32At, slice, List.drop_append, List.drop_of_length_le]

theorem TradeExecuted.ofBytes_encode (e : TradeExecuted) : ofBytes e.encode = e := by
  simp [ofBytes, encode, u64At, i64At, u32At, u16At, u8At, slice, List.drop_append,
    List.take_append, List.drop_of_length_le]

theorem TradeAllocated.ofBytes_encode (e : TradeAllocated) : ofBytes e.encode = e := by
  simp [ofBytes, encode, u64At, i64At, u32At, u8At, slice, List.drop_append,
    List.take_append, List.drop_of_length_le]

theorem BatchNetted.ofBytes_encode (e : BatchNetted) : ofBytes e.encode = e := by
  simp [ofBytes, encode, u64At, i64At, u32At, slice, List.drop_append, List.drop_of_length_le]

theorem TradeSettled.ofBytes_encode (e : TradeSettled) : ofBytes e.encode = e := by
  simp [ofBytes, encode, u64At, i64At, u32At, u8At, slice, List.drop_append,
    List.take_append, List.drop_of_length_le]

theorem CorporateActionApplied.ofBytes_encode (e : CorporateActionApplied) :
    ofBytes e.encode = e := by
  simp [ofBytes, encode, u64At, i64At, u32At, u8At, slice, List.drop_append,
    List.take_append, List.drop_of_length_le]

theorem DividendPaid.ofBytes_encode (e : DividendPaid) : ofBytes e.encode = e := by
  simp [ofBytes, encode, u64At, i64At, u32At, u8At, slice, List.drop_append,
    List.take_append, List.drop_of_length_le]

theorem EodMarked.ofBytes_encode (e : EodMarked) : ofBytes e.encode = e := by
  simp [ofBytes, encode, u64At, u32At, slice, List.drop_append, List.drop_of_length_le]

theorem ClosingPriceSet.ofBytes_encode (e : ClosingPriceSet) : ofBytes e.encode = e := by
  have hsymbol : text12At e.encode 32 = e.symbol := by
    have h := text12At_append (encI64 e.closingPrice ++ encI64 e.previousClose ++
      encU32 e.instrument ++ encU32 e.date ++ encU32 e.priceFactor ++ encU32 e.lotSize)
      (e.isin.toList ++ encU8 e.type ++ pad 7) e.symbol 32 (by simp)
    simpa only [encode, List.append_assoc] using h
  have hisin : text12At e.encode 44 = e.isin := by
    have h := text12At_append (encI64 e.closingPrice ++ encI64 e.previousClose ++
      encU32 e.instrument ++ encU32 e.date ++ encU32 e.priceFactor ++ encU32 e.lotSize ++
      e.symbol.toList) (encU8 e.type ++ pad 7) e.isin 44 (by simp)
    simpa only [encode, List.append_assoc] using h
  rw [ofBytes, hsymbol, hisin]
  simp [encode, i64At, u32At, u8At, slice, List.drop_append, List.take_append,
    List.drop_of_length_le]

/-! ### Some events -/

/-- An instrument quoted per unit. -/
def quoted : ClosingPriceSet := ⟨0, 0, 1, 0, 1, 1, .replicate 12 0, .replicate 12 0, 0⟩

/-- A business day with the two after it. -/
def firstDay : DayOpened := ⟨20260901, 20260831, 20260902, 20260903⟩

/-- A purchase of one unit for delivery at the end of the window of `firstDay`. -/
def boughtOne : TradeExecuted where
  tradeId := 1
  brokerNoteId := 0
  account := 1
  qty := 10000
  price := 10000
  brokerageFee := 0
  exchangeFee := 0
  clearingFee := 0
  taxes := 0
  instrument := 1
  settlementDate := 20260903
  flags := 0
  side := 1

/-- The purchase of `boughtOne` by another account. -/
def boughtOther : TradeExecuted := { boughtOne with tradeId := 2, account := 2 }

end MotorRv
