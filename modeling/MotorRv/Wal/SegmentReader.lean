import MotorRv.Wal.Format

/-!
# The segment reader

`open` validates the header; `next` scans from the current offset to the next valid record and
gives up at the first thing it cannot explain. `scan` is one turn of its loop. A turn that skips
goes to the next block boundary, and a turn at a boundary never skips, so the loop ends; `next`
counts down from the bytes that are left.

LSNs wrap at `2 ^ 64` here: what the reader sees is whatever stands in the file.

The code walks a pointer through a mapping of the file; here the mapping is a list of bytes and the
offset a number. `scanRecord` makes the checks in the order of the code, since that order decides
which reason is given: the epoch first, then the length, by itself and against the end of the
mapping, then the checksum, then the LSN. A reader that has stopped may be called again, and does
what its offset says.
-/

namespace MotorRv

open Lib

inductive ReplayStopReason
  | clean
  | badMagic
  | badCrc
  | lsnGap
  | epochMismatch
  | segmentDiscontinuity
  | shortSegment
  deriving DecidableEq, Repr

structure SegmentReader where
  mapped : Bytes
  offset : ℕ
  resumeOffset : ℕ
  blockSize : ℕ
  epoch : UInt32
  firstLsn : ℕ
  expectedLsn : ℕ
  lastValidLsn : ℕ
  stopReason : ReplayStopReason
  deriving DecidableEq

/-- What one turn of the loop decides. -/
inductive Scan
  | skip (offset : ℕ)
  | stop (reason : ReplayStopReason)
  | event (ev : LogRecord)
  deriving DecidableEq

namespace SegmentReader

/-- The reader over a mapping, before the header is looked at. -/
def ofMapped (mapped : Bytes) : SegmentReader where
  mapped := mapped
  offset := kSegmentHdrBytes
  resumeOffset := kSegmentHdrBytes
  blockSize := kFallbackBlock
  epoch := 0
  firstLsn := 0
  expectedLsn := 0
  lastValidLsn := 0
  stopReason := .clean

/-- The reader at the start of a segment with the given header. -/
def start (mapped : Bytes) (h : SegmentHdr) : SegmentReader :=
  { ofMapped mapped with
    epoch := h.epoch
    firstLsn := h.firstLsn.toNat
    blockSize := effectiveBlock h.blockSize.toNat
    expectedLsn := h.firstLsn.toNat
    lastValidLsn := if 1 < h.firstLsn.toNat then h.firstLsn.toNat - 1 else 0 }

def «open» (mapped : Bytes) (expectedFirst : ℕ) : Status × SegmentReader :=
  let r := ofMapped mapped
  if mapped.length < kSegmentHdrBytes then
    (.fail .badMagic, { r with stopReason := .shortSegment })
  else
    match SegmentHdr.check mapped with
    | .error e =>
      (.fail e, { r with stopReason := if e = .badCrc then .badCrc else .badMagic })
    | .ok h =>
      if expectedFirst ≠ 0 ∧ expectedFirst < h.firstLsn.toNat then
        -- the two LSNs derived from the header are not set yet
        (.fail .lsnGap, { r with
          epoch := h.epoch
          firstLsn := h.firstLsn.toNat
          blockSize := effectiveBlock h.blockSize.toNat
          stopReason := .segmentDiscontinuity })
      else (.kOk, start mapped h)

/-- The header and payload checks of a record at an offset where a magic was found. -/
def scanRecord (r : SegmentReader) : Scan :=
  let h := WalHdr.decode (slice r.mapped r.offset kWalHdrBytes)
  let payload := slice r.mapped (r.offset + kWalHdrBytes) h.len.toNat
  if h.epoch ≠ r.epoch then .stop .epochMismatch
  else if kMaxPayload < h.len.toNat then .stop .badMagic
  else if r.mapped.length < r.offset + recordBytes h.len.toNat then .stop .shortSegment
  else if crc32c (crc32c 0 { h with crc32c := 0 }.encode) payload ≠ h.crc32c then .stop .badCrc
  else if r.expectedLsn ≠ 0 ∧ h.lsn.toNat ≠ r.expectedLsn then .stop .lsnGap
  else .event ⟨h.lsn.toNat, h.tsNs, h.tmpl, payload⟩

/-- One turn of the loop, at an offset before the end. -/
def scan (r : SegmentReader) : Scan :=
  if r.mapped.length - r.offset < kWalHdrBytes then
    .stop (if (r.mapped.drop r.offset).all (· = 0) then .clean else .shortSegment)
  else if ofLe (slice r.mapped r.offset 8) = 0 then
    -- zeros at a boundary end the log; elsewhere they pad the group before
    if r.offset % r.blockSize = 0 then .stop .clean else .skip (padToBlock r.offset r.blockSize)
  else if decU32 (slice r.mapped r.offset 4) ≠ kWalMagic then
    if r.offset % r.blockSize ≠ 0 then .skip (padToBlock r.offset r.blockSize)
    else .stop .badMagic
  else r.scanRecord

/-- The reader after it returned a record. -/
def accept (r : SegmentReader) (ev : LogRecord) : SegmentReader :=
  let offset := r.offset + recordBytes ev.payload.length
  { r with
    offset := offset
    resumeOffset := padToBlock offset r.blockSize
    lastValidLsn := ev.lsn
    expectedLsn := (ev.lsn + 1) % 2 ^ 64 }

/-- The loop of `next`. -/
def loop : ℕ → SegmentReader → Option LogRecord × SegmentReader
  | 0, r => (none, { r with stopReason := .clean })
  | n + 1, r =>
    if r.offset < r.mapped.length then
      match r.scan with
      | .skip offset => loop n { r with offset := offset }
      | .stop reason => (none, { r with stopReason := reason })
      | .event ev => (some ev, r.accept ev)
    else (none, { r with stopReason := .clean })

/-- The next valid record, or none at the end of the log or at a fault. -/
def next (r : SegmentReader) : Option LogRecord × SegmentReader :=
  loop (r.mapped.length - r.offset + 1) r

/-- Call `next` until it returns no record, `n` times at most. -/
def readUpTo : ℕ → SegmentReader → List LogRecord × SegmentReader
  | 0, r => ([], r)
  | n + 1, r =>
    match r.next with
    | (none, r') => ([], r')
    | (some ev, r') =>
      let (evs, r'') := readUpTo n r'
      (ev :: evs, r'')

/-- Read to the end: a record takes at least one byte, so this many calls are enough. -/
def readAll (r : SegmentReader) : List LogRecord × SegmentReader :=
  readUpTo (r.mapped.length - r.offset + 1) r

end SegmentReader

end MotorRv
