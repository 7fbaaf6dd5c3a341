import MotorRv.Base.Crc32c
import MotorRv.Core.PartitionState
import MotorRv.Lib.Layout
import MotorRv.Lib.Proc

/-!
# The state image

A header, then one section per column, each aligned to eight bytes and with its own checksum. The
hash indexes are not written but rebuilt from the columns; of the idempotency sets the members are
written, in slot order, and inserted again into their generation.

A column is a field of a row with the number of elements it takes, and the sections of a table are
generated from its columns, so the format is a table of data and the code that saves and the code
that loads walk it in the same order. The header has a reference to each section: offset, element
size, count and checksum.

Loading checks the header, initialises the target for the capacities of the image, and only then
copies; whatever fails on the way leaves the target as it is by then, which is why the load is a
procedure over the target and the arena. Offsets and sizes are added in 64 bits and numbers of
elements multiplied in 32, as in the code.
-/

namespace MotorRv

open Lib

/-- `kStateImageMagic`. -/
def kStateImageMagic : UInt32 := 0x324D5352

/-- `kStateImageVersion`. -/
def kStateImageVersion : UInt16 := 2

/-- `sizeof(StateImageHeader)`. -/
def kStateImageHeaderBytes : ℕ := 1112

/-- The number of sections. -/
def kStateSections : ℕ := 40

/-- There is a first section. -/
instance neZero_forty : NeZero 40 := ⟨by decide⟩

/-- `alinha8`. -/
def alinha8 (v : ℕ) : ℕ := (v + 7) / 8 * 8

/-! ### Fields -/

section Fields

variable {ρ : Type}

def fieldU8 (get : ρ → UInt8) (set : UInt8 → ρ → ρ) : FieldCodec ρ :=
  ⟨1, fun r => encU8 (get r), fun b => set (decU8 b), fun _ => by simp⟩

def fieldU16 (get : ρ → UInt16) (set : UInt16 → ρ → ρ) : FieldCodec ρ :=
  ⟨2, fun r => encU16 (get r), fun b => set (decU16 b), fun _ => by simp⟩

def fieldU32 (get : ρ → UInt32) (set : UInt32 → ρ → ρ) : FieldCodec ρ :=
  ⟨4, fun r => encU32 (get r), fun b => set (decU32 b), fun _ => by simp⟩

def fieldU64 (get : ρ → UInt64) (set : UInt64 → ρ → ρ) : FieldCodec ρ :=
  ⟨8, fun r => encU64 (get r), fun b => set (decU64 b), fun _ => by simp⟩

def fieldI32 (get : ρ → Int32) (set : Int32 → ρ → ρ) : FieldCodec ρ :=
  ⟨4, fun r => encI32 (get r), fun b => set (decI32 b), fun _ => by simp⟩

def fieldI64 (get : ρ → Int64) (set : Int64 → ρ → ρ) : FieldCodec ρ :=
  ⟨8, fun r => encI64 (get r), fun b => set (decI64 b), fun _ => by simp⟩

/-- A row number, in 32 bits. -/
def fieldRow (get : ρ → ℕ) (set : ℕ → ρ → ρ) : FieldCodec ρ :=
  ⟨4, fun r => le 4 (get r), fun b => set (ofLe b), fun _ => by simp⟩

/-- A link to a row; `kNil` is all ones. -/
def fieldLink (get : ρ → Option ℕ) (set : Option ℕ → ρ → ρ) : FieldCodec ρ :=
  ⟨4, fun r => le 4 ((get r).getD (2 ^ 32 - 1)),
    fun b => set (if ofLe b = 2 ^ 32 - 1 then none else some (ofLe b)), fun _ => by simp⟩

/-- The three slots of a row. -/
def fieldSlots (get : ρ → Slots Raw) (set : Slots Raw → ρ → ρ) : FieldCodec ρ :=
  ⟨24, fun r => encI64 (get r 0) ++ (encI64 (get r 1) ++ encI64 (get r 2)),
    fun b => set ![decI64 (slice b 0 8), decI64 (slice b 8 8), decI64 (slice b 16 8)],
    fun _ => by simp⟩

def fieldText12 (get : ρ → Vector UInt8 12) (set : Vector UInt8 12 → ρ → ρ) : FieldCodec ρ :=
  ⟨12, fun r => (get r).toList, fun b => set (.ofFn fun i => b.getD i 0), fun _ => by simp⟩

/-- Bytes that carry nothing. -/
def fieldPad (n : ℕ) : FieldCodec ρ :=
  ⟨n, fun _ => List.replicate n 0, fun _ r => r, fun _ => by simp⟩

end Fields

/-! ### Columns and sections -/

/-- A column of a table: a field, and how many elements of the section one row takes. -/
structure Column (ρ : Type) where
  field : FieldCodec ρ
  perRow : ℕ

/-- `elem_size` of the section. -/
def Column.elemSize {ρ : Type} (c : Column ρ) : ℕ := c.field.size / c.perRow

def custodyColumns : List (Column CustodyRow) :=
  [⟨fieldI64 (·.available) fun x r => { r with available := x }, 1⟩,
    ⟨fieldSlots (·.pendingBuy) fun x r => { r with pendingBuy := x }, 3⟩,
    ⟨fieldSlots (·.pendingSell) fun x r => { r with pendingSell := x }, 3⟩,
    ⟨fieldI64 (·.overdueBuy) fun x r => { r with overdueBuy := x }, 1⟩,
    ⟨fieldI64 (·.overdueSell) fun x r => { r with overdueSell := x }, 1⟩,
    ⟨fieldI64 (·.blocked) fun x r => { r with blocked := x }, 1⟩,
    ⟨fieldI64 (·.leftovers) fun x r => { r with leftovers := x }, 1⟩,
    ⟨fieldI64 (·.avgPrice) fun x r => { r with avgPrice := x }, 1⟩,
    ⟨fieldRow (·.account) fun x r => { r with account := x }, 1⟩,
    ⟨fieldRow (·.instrument) fun x r => { r with instrument := x }, 1⟩,
    ⟨fieldU8 (·.flags) fun x r => { r with flags := x }, 1⟩]

def accountColumns : List (Column AccountRow) :=
  [⟨fieldI64 (·.cash) fun x r => { r with cash := x }, 1⟩,
    ⟨fieldSlots (·.pending) fun x r => { r with pending := x }, 3⟩,
    ⟨fieldI64 (·.overdue) fun x r => { r with overdue := x }, 1⟩,
    ⟨fieldI64 (·.incomeReceivable) fun x r => { r with incomeReceivable := x }, 1⟩,
    ⟨fieldU64 (·.document) fun x r => { r with document := x }, 1⟩,
    ⟨fieldLink (·.firstTrade) fun x r => { r with firstTrade := x }, 1⟩]

def instrumentColumns : List (Column InstrumentRow) :=
  [⟨fieldU32 (·.externalId) fun x r => { r with externalId := x }, 1⟩,
    ⟨fieldText12 (·.symbol) fun x r => { r with symbol := x }, 1⟩,
    ⟨fieldText12 (·.isin) fun x r => { r with isin := x }, 1⟩,
    ⟨fieldU8 (·.type) fun x r => { r with type := x }, 1⟩,
    ⟨fieldU32 (·.priceFactor) fun x r => { r with priceFactor := x }, 1⟩,
    ⟨fieldU32 (·.lotSize) fun x r => { r with lotSize := x }, 1⟩,
    ⟨fieldI64 (·.closingPrice) fun x r => { r with closingPrice := x }, 1⟩,
    ⟨fieldI64 (·.previousClose) fun x r => { r with previousClose := x }, 1⟩,
    ⟨fieldU32 (·.closingDate) fun x r => { r with closingDate := x }, 1⟩]

def tradeColumns : List (Column TradeRow) :=
  [⟨fieldU64 (·.tradeId) fun x r => { r with tradeId := x }, 1⟩,
    ⟨fieldU64 (·.brokerNoteId) fun x r => { r with brokerNoteId := x }, 1⟩,
    ⟨fieldRow (·.account) fun x r => { r with account := x }, 1⟩,
    ⟨fieldRow (·.instrument) fun x r => { r with instrument := x }, 1⟩,
    ⟨fieldI64 (·.qty) fun x r => { r with qty := x }, 1⟩,
    ⟨fieldI64 (·.price) fun x r => { r with price := x }, 1⟩,
    ⟨fieldI64 (·.cash) fun x r => { r with cash := x }, 1⟩,
    ⟨fieldU32 (·.settlementDate) fun x r => { r with settlementDate := x }, 1⟩,
    ⟨fieldU8 (·.side) fun x r => { r with side := x }, 1⟩,
    ⟨fieldU8 (·.state) fun x r => { r with state := x }, 1⟩,
    ⟨fieldLink (·.next) fun x r => { r with next := x }, 1⟩]

/-- An exception record is one element of 32 bytes. -/
def exceptionFields : List (FieldCodec ExceptionRecord) :=
  [fieldU64 (·.document) fun x r => { r with document := x },
    fieldI64 (·.qtyDeltaRaw) fun x r => { r with qtyDeltaRaw := x },
    fieldU32 (·.instrument) fun x r => { r with instrument := x },
    fieldU32 (·.date) fun x r => { r with date := x },
    fieldU16 (·.errCode) fun x r => { r with errCode := x },
    fieldPad 6]

def exceptionField : FieldCodec ExceptionRecord where
  size := 32
  enc := encodeFields exceptionFields
  dec b r := decodeFields exceptionFields b r
  length_enc r := by
    rw [length_encodeFields]
    rfl

/-- A section as `descreve` sees it, with the copies into and out of the state. -/
structure StateSection where
  elemSize : ℕ
  count : PartitionState → ℕ
  data : PartitionState → Bytes
  fill : Bytes → PartitionState → PartitionState

/-- The section of a column of a table. -/
def tableSection {ρ : Type} (get : PartitionState → List ρ)
    (set : List ρ → PartitionState → PartitionState) (c : Column ρ) : StateSection where
  elemSize := c.elemSize
  count s := c.perRow * (get s).length
  data s := encodeColumn c.field (get s)
  fill b s := set (decodeColumn c.field (get s) b) s

/-- How many exception records the image holds. -/
def keptExceptions (s : PartitionState) : ℕ :=
  min s.exceptionCount.toNat s.cap.tables.exceptions.toNat

def exceptionSection : StateSection where
  elemSize := 32
  count := keptExceptions
  data s := encodeColumn exceptionField (s.exceptions.take (keptExceptions s))
  fill b s := { s with
    exceptions := decodeColumn exceptionField (s.exceptions.take (keptExceptions s)) b ++
      s.exceptions.drop (keptExceptions s) }

def custodySections : List StateSection :=
  custodyColumns.map (tableSection (·.custody) fun rows s => { s with custody := rows })

def accountSections : List StateSection :=
  accountColumns.map (tableSection (·.accounts) fun rows s => { s with accounts := rows })

def instrumentSections : List StateSection :=
  instrumentColumns.map (tableSection (·.instruments) fun rows s => { s with instruments := rows })

def tradeSections : List StateSection :=
  tradeColumns.map (tableSection (·.trades) fun rows s => { s with trades := rows })

/-- The sections that are columns, in the order of the format. -/
def columnSections : List StateSection :=
  custodySections ++ (accountSections ++ (instrumentSections ++ (tradeSections ++
    [exceptionSection])))

/-- `AppliedKeyRecord`: a member of an idempotency set and its generation. -/
def keyRecord (m : UInt64 × ℕ × Bool) : Bytes :=
  encU64 m.1 ++ (le 4 m.2.1 ++ le 4 (if m.2.2 then 1 else 0))

/-- `sizeof(AppliedKeyRecord)`. -/
def kKeyRecordBytes : ℕ := 16

/-- What `save` writes of a section. -/
structure Part where
  elemSize : ℕ
  count : ℕ
  data : Bytes

def StateSection.part (s : PartitionState) (sec : StateSection) : Part :=
  ⟨sec.elemSize, sec.count s, sec.data s⟩

def setPart (t : TwoGenSet) : Part := ⟨kKeyRecordBytes, t.size, t.members.flatMap keyRecord⟩

/-- The forty sections of a state. -/
def parts (s : PartitionState) : List Part :=
  columnSections.map (·.part s) ++ [setPart s.appliedActions, setPart s.appliedIncome]

/-! ### The header -/

structure StateSectionRef where
  offset : UInt64
  elemSize : UInt32
  count : UInt32
  crc32c : UInt32
  deriving DecidableEq

def StateSectionRef.encode (r : StateSectionRef) : Bytes :=
  encU64 r.offset ++ (encU32 r.elemSize ++ (encU32 r.count ++ (encU32 r.crc32c ++ encU32 0)))

def StateSectionRef.decode (b : Bytes) : StateSectionRef :=
  ⟨decU64 (slice b 0 8), decU32 (slice b 8 4), decU32 (slice b 12 4), decU32 (slice b 16 4)⟩

structure StateImageHeader where
  magic : UInt32
  version : UInt16
  partitionId : UInt16
  imageBytes : UInt64
  appliedLsn : UInt64
  businessDate : DateYmd
  prevBusinessDate : DateYmd
  windowDates : SettlementWindow
  flags : UInt32
  custodyCount : UInt32
  cashCount : UInt32
  instrumentCount : UInt32
  tradeCount : UInt32
  exceptionCount : UInt32
  exceptionDropped : UInt32
  actionsCurrent : UInt32
  actionsRotationDate : DateYmd
  incomeCurrent : UInt32
  incomeRotationDate : DateYmd
  custodyChecksum : UInt64
  cashChecksum : UInt64
  cap : PartitionCapacity
  sections : Vector StateSectionRef 40

def fieldWindow : FieldCodec StateImageHeader :=
  ⟨12, fun h => encU32 (h.windowDates 0) ++ (encU32 (h.windowDates 1) ++ encU32 (h.windowDates 2)),
    fun b h => { h with
      windowDates := ![decU32 (slice b 0 4), decU32 (slice b 4 4), decU32 (slice b 8 4)] },
    fun _ => by simp⟩

/-- The fields of the capacities. -/
def capFields : List (FieldCodec PartitionCapacity) :=
  [fieldU32 (·.accounts) fun x c => { c with accounts := x },
    fieldU32 (·.instruments) fun x c => { c with instruments := x },
    fieldU32 (·.positions) fun x c => { c with positions := x },
    fieldU32 (·.trades) fun x c => { c with trades := x },
    fieldU32 (·.corporateActionsPerGen) fun x c => { c with corporateActionsPerGen := x },
    fieldU32 (·.exceptions) fun x c => { c with exceptions := x },
    fieldU32 (·.outboxSlots) fun x c => { c with outboxSlots := x },
    fieldU32 (·.outboxPayloadBytes) fun x c => { c with outboxPayloadBytes := x },
    fieldI32 (·.idempotencyWindowDays) fun x c => { c with idempotencyWindowDays := x }]

def fieldCap : FieldCodec StateImageHeader where
  size := 36
  enc h := encodeFields capFields h.cap
  dec b h := { h with cap := decodeFields capFields b h.cap }
  length_enc h := by
    rw [length_encodeFields]
    rfl

def fieldSections : FieldCodec StateImageHeader where
  size := 960
  enc h := h.sections.toList.flatMap StateSectionRef.encode
  dec b h := { h with sections := .ofFn fun k => .decode (slice b (24 * k) 24) }
  length_enc h := by
    simp [List.length_flatMap, StateSectionRef.encode]

/-- The header up to its checksum. -/
def headerFields : List (FieldCodec StateImageHeader) :=
  [fieldU32 (·.magic) fun x h => { h with magic := x },
    fieldU16 (·.version) fun x h => { h with version := x },
    fieldU16 (·.partitionId) fun x h => { h with partitionId := x },
    fieldU64 (·.imageBytes) fun x h => { h with imageBytes := x },
    fieldU64 (·.appliedLsn) fun x h => { h with appliedLsn := x },
    fieldU32 (·.businessDate) fun x h => { h with businessDate := x },
    fieldU32 (·.prevBusinessDate) fun x h => { h with prevBusinessDate := x },
    fieldWindow,
    fieldU32 (·.flags) fun x h => { h with flags := x },
    fieldU32 (·.custodyCount) fun x h => { h with custodyCount := x },
    fieldU32 (·.cashCount) fun x h => { h with cashCount := x },
    fieldU32 (·.instrumentCount) fun x h => { h with instrumentCount := x },
    fieldU32 (·.tradeCount) fun x h => { h with tradeCount := x },
    fieldU32 (·.exceptionCount) fun x h => { h with exceptionCount := x },
    fieldU32 (·.exceptionDropped) fun x h => { h with exceptionDropped := x },
    fieldU32 (·.actionsCurrent) fun x h => { h with actionsCurrent := x },
    fieldU32 (·.actionsRotationDate) fun x h => { h with actionsRotationDate := x },
    fieldU32 (·.incomeCurrent) fun x h => { h with incomeCurrent := x },
    fieldU32 (·.incomeRotationDate) fun x h => { h with incomeRotationDate := x },
    fieldU64 (·.custodyChecksum) fun x h => { h with custodyChecksum := x },
    fieldU64 (·.cashChecksum) fun x h => { h with cashChecksum := x },
    fieldCap,
    fieldPad 4,
    fieldSections]

/-- The position of the header's checksum. -/
def kHeaderCrcOffset : ℕ := 1104

def StateImageHeader.blank : StateImageHeader where
  magic := 0
  version := 0
  partitionId := 0
  imageBytes := 0
  appliedLsn := 0
  businessDate := 0
  prevBusinessDate := 0
  windowDates := fun _ => 0
  flags := 0
  custodyCount := 0
  cashCount := 0
  instrumentCount := 0
  tradeCount := 0
  exceptionCount := 0
  exceptionDropped := 0
  actionsCurrent := 0
  actionsRotationDate := 0
  incomeCurrent := 0
  incomeRotationDate := 0
  custodyChecksum := 0
  cashChecksum := 0
  cap := ⟨0, 0, 0, 0, 0, 0, 0, 0, 0⟩
  sections := .replicate 40 ⟨0, 0, 0, 0⟩

/-- `crc_do_cabecalho`: the checksum of the header with its own field zeroed. -/
def crcDoCabecalho (b : Bytes) : UInt32 :=
  crc32c 0 (b.take kHeaderCrcOffset ++ (List.replicate 4 0 ++ slice b (kHeaderCrcOffset + 4) 4))

/-- The header as it is written, checksum included. -/
def StateImageHeader.encode (h : StateImageHeader) : Bytes :=
  encodeFields headerFields h ++
    (encU32 (crcDoCabecalho (encodeFields headerFields h ++ (List.replicate 4 0 ++ encU32 0))) ++
      encU32 0)

def StateImageHeader.decode (b : Bytes) : StateImageHeader :=
  decodeFields headerFields b StateImageHeader.blank

/-! ### Saving -/

/-- The references to the sections, from an offset on. An empty section has no checksum. -/
def refsFrom : ℕ → List Part → List StateSectionRef
  | _, [] => []
  | off, p :: ps =>
    ⟨UInt64.ofNat off, UInt32.ofNat p.elemSize, UInt32.ofNat p.count,
      if p.elemSize * p.count = 0 then 0 else crc32c 0 p.data⟩ ::
      refsFrom (alinha8 (off + p.elemSize * p.count)) ps

/-- The bytes of the sections, each padded with zeros. -/
def sectionBytes (ps : List Part) : Bytes :=
  ps.flatMap fun p =>
    p.data ++ List.replicate (alinha8 (p.elemSize * p.count) - p.data.length) 0

/-- Where the last of the sections ends. -/
def endFrom : ℕ → List Part → ℕ
  | off, [] => off
  | off, p :: ps => endFrom (alinha8 (off + p.elemSize * p.count)) ps

/-- `state_image_bytes`. -/
def stateImageBytes (s : PartitionState) : ℕ := endFrom kStateImageHeaderBytes (parts s)

/-- The header of a state. -/
def headerOf (s : PartitionState) : StateImageHeader where
  magic := kStateImageMagic
  version := kStateImageVersion
  partitionId := s.id
  imageBytes := UInt64.ofNat (stateImageBytes s)
  appliedLsn := s.appliedLsn
  businessDate := s.businessDate
  prevBusinessDate := s.prevBusinessDate
  windowDates := s.window
  flags := s.flags
  custodyCount := UInt32.ofNat s.custody.length
  cashCount := UInt32.ofNat s.accounts.length
  instrumentCount := UInt32.ofNat s.instruments.length
  tradeCount := UInt32.ofNat s.trades.length
  exceptionCount := s.exceptionCount
  exceptionDropped := s.exceptionDropped
  actionsCurrent := if s.appliedActions.current then 1 else 0
  actionsRotationDate := s.appliedActions.rotation
  incomeCurrent := if s.appliedIncome.current then 1 else 0
  incomeRotationDate := s.appliedIncome.rotation
  custodyChecksum := s.custodyChecksum
  cashChecksum := s.cashChecksum
  cap := s.cap
  sections := .ofFn fun k =>
    (refsFrom kStateImageHeaderBytes (parts s)).getD k ⟨0, 0, 0, 0⟩

/-- `save_state_image` into a buffer of `room` bytes: the bytes written. -/
def saveStateImage (s : PartitionState) (room : ℕ) : Except Status Bytes :=
  if room < stateImageBytes s then .error (.fail .outOfRange (UInt32.ofNat (stateImageBytes s)))
  else .ok ((headerOf s).encode ++ sectionBytes (parts s))

/-! ### Loading -/

/-- A part of `load_state_image`: it works on the target state and the arena. -/
abbrev Load := Proc Abort Status (PartitionState × Arena)

/-- The checks of the header, which touch nothing. -/
def loadHeader (image : Bytes) : Except Status StateImageHeader :=
  let h := StateImageHeader.decode image
  if image.length < kStateImageHeaderBytes then .error (.fail .shortPayload)
  else if h.magic ≠ kStateImageMagic then .error (.fail .badMagic)
  else if h.version ≠ kStateImageVersion then .error (.fail .badBlockLength h.version.toUInt32)
  else if crcDoCabecalho image ≠ decU32 (slice image kHeaderCrcOffset 4) then
    .error (.fail .badCrc)
  else if image.length < h.imageBytes.toNat then .error (.fail .shortPayload)
  else .ok h

namespace Load

def loadInit (h : StateImageHeader) : Load PUnit := fun sa => do
  let (ok, s', a') ← sa.1.init sa.2 h.partitionId h.cap
  if ok then .ok (.ok ⟨⟩, (s', a')) else .ok (.error (.fail .arenaExhausted), (s', a'))

def modify (f : PartitionState → PartitionState) : Load PUnit :=
  Proc.update fun sa => .ok (f sa.1, sa.2)

/-- The counters, over columns that `init` has just cleared. -/
def setCounts (h : StateImageHeader) (s : PartitionState) : PartitionState :=
  { s with
    custody := List.replicate h.custodyCount.toNat (CustodyRow.cleared 0 0)
    accounts := List.replicate h.cashCount.toNat (AccountRow.cleared 0)
    instruments := List.replicate h.instrumentCount.toNat InstrumentRow.zero
    trades := List.replicate h.tradeCount.toNat TradeRow.zero
    exceptionCount := h.exceptionCount
    exceptionDropped := h.exceptionDropped }

/-- No count is above its capacity. -/
def countsFit (h : StateImageHeader) : Bool :=
  decide (h.custodyCount ≤ h.cap.positions ∧ h.cashCount ≤ h.cap.accounts ∧
    h.instrumentCount ≤ h.cap.instruments ∧ h.tradeCount ≤ h.cap.trades)

/-- The bytes of a section. The sum of offset and size wraps before it is compared with the image,
so a section far outside passes the check and is read from there. -/
def sectionAt (image : Bytes) (ref : StateSectionRef) (detail : UInt32) : Load Bytes := do
  let bytes := ref.elemSize.toNat * ref.count.toNat
  Proc.guard ((ref.offset.toNat + bytes) % 2 ^ 64 ≤ image.length) (.fail .shortPayload)
  let data ← Proc.lift (if image.length < ref.offset.toNat + bytes then .error .outOfBounds
    else .ok (slice image ref.offset.toNat bytes))
  Proc.guard (crc32c 0 data = ref.crc32c) (.fail .badCrc detail)
  pure data

/-- Copy a column. -/
def loadSection (image : Bytes) (k : ℕ) (sec : StateSection) (ref : StateSectionRef) :
    Load PUnit := do
  let count ← Proc.read fun sa => sec.count sa.1
  Proc.guard (ref.elemSize.toNat = sec.elemSize ∧ ref.count.toNat = count)
    (.fail .stateCorrupt (UInt32.ofNat k))
  (if ref.elemSize.toNat * ref.count.toNat = 0 then pure ⟨⟩
    else do
      let data ← sectionAt image ref (UInt32.ofNat k)
      modify (sec.fill data))

/-- Copy the columns in order. -/
def loadSections (image : Bytes) : ℕ → List StateSection → List StateSectionRef → Load PUnit
  | k, sec :: secs, ref :: refs => do
    loadSection image k sec ref
    loadSections image (k + 1) secs refs
  | _, _, _ => pure ⟨⟩

/-- The members a section of an idempotency set holds. -/
def keyRecords (data : Bytes) (n : ℕ) : List (UInt64 × ℕ × Bool) :=
  (List.range n).map fun j =>
    (decU64 (slice data (16 * j) 8), ofLe (slice data (16 * j + 8) 4),
      decide (ofLe (slice data (16 * j + 12) 4) % 2 = 1))

/-- Insert members into their generation; it stops at the first that is refused. -/
def insertMembers : TwoGenSet → List (UInt64 × ℕ × Bool) → Bool × TwoGenSet
  | t, [] => (true, t)
  | t, m :: ms =>
    match t.insertInto m.2.2 m.1 m.2.1 with
    | (true, t') => insertMembers t' ms
    | (false, t') => (false, t')

/-- Read an idempotency set. -/
def loadSet (image : Bytes) (ref : StateSectionRef) (get : PartitionState → TwoGenSet)
    (set : TwoGenSet → PartitionState → PartitionState) : Load PUnit := do
  (if ref.elemSize.toNat * ref.count.toNat = 0 then pure ⟨⟩
    else do
      Proc.guard (ref.elemSize.toNat = kKeyRecordBytes) (.fail .stateCorrupt)
      let data ← sectionAt image ref 0
      let ok ← Proc.act fun sa =>
        ((insertMembers (get sa.1) (keyRecords data ref.count.toNat)).1,
          (set (insertMembers (get sa.1) (keyRecords data ref.count.toNat)).2 sa.1, sa.2))
      Proc.guard (ok = true) (.fail .arenaExhausted))

/-- Generation and date of the two sets. -/
def setState (h : StateImageHeader) (s : PartitionState) : PartitionState :=
  { s with
    appliedActions := { s.appliedActions with
      current := decide (h.actionsCurrent &&& 1 = 1)
      rotation := h.actionsRotationDate }
    appliedIncome := { s.appliedIncome with
      current := decide (h.incomeCurrent &&& 1 = 1)
      rotation := h.incomeRotationDate } }

/-- The fields that are no columns. -/
def setScalars (h : StateImageHeader) (s : PartitionState) : PartitionState :=
  { s with
    id := h.partitionId
    appliedLsn := h.appliedLsn
    businessDate := h.businessDate
    prevBusinessDate := h.prevBusinessDate
    window := h.windowDates
    flags := h.flags }

/-- Everything after the header checks. -/
def loadBody (image : Bytes) (h : StateImageHeader) : Load PUnit := do
  loadInit h
  modify (setCounts h)
  Proc.guard (countsFit h = true) (.fail .stateCorrupt)
  loadSections image 0 columnSections (h.sections.toList.take 38)
  modify (setState h)
  loadSet image (h.sections.get 38) (·.appliedActions) fun t s => { s with appliedActions := t }
  loadSet image (h.sections.get 39) (·.appliedIncome) fun t s => { s with appliedIncome := t }
  modify (setScalars h)
  let ok ← Proc.act fun sa => (sa.1.rebuildIndexes.1, (sa.1.rebuildIndexes.2, sa.2))
  Proc.guard (ok = true) (.fail .arenaExhausted)
  let custody ← Proc.read fun sa => sa.1.custodyChecksum
  let cash ← Proc.read fun sa => sa.1.cashChecksum
  Proc.guard (custody = h.custodyChecksum ∧ cash = h.cashChecksum) (.fail .stateCorrupt)

end Load

/-- `load_state_image`: the status, and what is left of the target and the arena. -/
def loadStateImage (s : PartitionState) (arena : Arena) (image : Bytes) :
    Exec (Status × PartitionState × Arena) :=
  match loadHeader image with
  | .error st => .ok (st, s, arena)
  | .ok h => do
    let (r, s', arena') ← Load.loadBody image h (s, arena)
    match r with
    | .ok _ => .ok (.kOk, s', arena')
    | .error st => .ok (st, s', arena')

end MotorRv
