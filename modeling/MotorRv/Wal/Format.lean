import MotorRv.Base.Crc32c
import MotorRv.Base.Status

/-!
# The on-disk format of the log

Constants, sizes and the two headers. A record is its 32-byte header, its payload and zeros up to
a multiple of eight (`encodeRecord`); a segment starts with a 4096-byte region that holds the
64-byte segment header (`segmentHeader`). Writer and reader share the size arithmetic.

Checksums are computed over the header bytes with the checksum field zeroed, which is how both
sides take them here (`zeroCrcField`).

The size arithmetic is stated with natural numbers and its lemmas are those that proofs about
offsets need: padding reaches a multiple (`padToBlock_dvd`), cuts nothing off (`le_padToBlock`),
adds less than a block (`padToBlock_lt`) and commutes with whole blocks (`padToBlock_add`). A block
size outside of the four valid ones is replaced by 4096, on both sides.

Reading back a header that was written gives the header (`WalHdr.decode_encode`,
`SegmentHdr.check_eq_ok`), and the lengths of records and groups are known without looking at their
bytes.
-/

namespace MotorRv

open Lib

/-! ### Constants -/

/-- `'RVW1'`, the magic of a record. -/
def kWalMagic : UInt32 := 0x31575652

/-- `'RVS1'`, the magic of a segment header. -/
def kSegmentMagic : UInt32 := 0x31535652

def kSegmentFormatVersion : UInt16 := 1

/-- The largest payload length a `uint16` can carry. -/
def kMaxPayload : ℕ := 65535

def kFallbackBlock : ℕ := 4096
def kMinBlock : ℕ := 512
def kMaxBlock : ℕ := 4096

/-- `sizeof(WalHdr)`. -/
def kWalHdrBytes : ℕ := 32

/-- Where the data area of a segment begins. -/
def kSegmentHdrBytes : ℕ := 4096

/-- The capacity of a commit buffer, hence of a group. -/
def kMaxGroupBytes : ℕ := 65536

/-! ### Sizes -/

/-- Round up to a multiple of eight. -/
def pad8 (n : ℕ) : ℕ := (n + 7) / 8 * 8

/-- The bytes a record takes in the log. -/
def recordBytes (payloadLen : ℕ) : ℕ := kWalHdrBytes + pad8 payloadLen

/-- Round up to the device block. -/
def padToBlock (len block : ℕ) : ℕ := (len + block - 1) / block * block

/-- The block sizes the format accepts: powers of two from 512 to 4096. -/
def isValidBlock (block : ℕ) : Bool :=
  decide (kMinBlock ≤ block ∧ block ≤ kMaxBlock ∧ block &&& (block - 1) = 0)

/-- There are four valid block sizes. -/
theorem isValidBlock_cases {block : ℕ} (h : isValidBlock block = true) :
    block = 512 ∨ block = 1024 ∨ block = 2048 ∨ block = 4096 := by
  -- the search is split in two digits of base 64, so that no recursion is deep
  have hall : ∀ q < 65, ∀ r < 64, isValidBlock (64 * q + r) = true →
      64 * q + r = 512 ∨ 64 * q + r = 1024 ∨ 64 * q + r = 2048 ∨ 64 * q + r = 4096 := by
    decide +kernel
  have hle : block ≤ 4096 := (of_decide_eq_true h).2.1
  have hsplit : 64 * (block / 64) + block % 64 = block := Nat.div_add_mod block 64
  have := hall (block / 64) (by omega) (block % 64) (by omega)
  rw [hsplit] at this
  exact this h

/-- A valid block is a positive multiple of eight that divides the header region. -/
structure BlockOk (block : ℕ) : Prop where
  pos : 8 ≤ block
  dvd8 : 8 ∣ block
  dvdHdr : block ∣ kSegmentHdrBytes
  dvdGroup : block ∣ kMaxGroupBytes

theorem BlockOk.zero_lt {block : ℕ} (h : BlockOk block) : 0 < block :=
  lt_of_lt_of_le (by decide) h.pos

/-- A block that the code accepts can be used. -/
theorem BlockOk.of_isValidBlock {block : ℕ} (h : isValidBlock block = true) : BlockOk block := by
  rcases isValidBlock_cases h with rfl | rfl | rfl | rfl <;>
    exact ⟨by decide, by decide, by decide, by decide⟩

theorem BlockOk.kFallbackBlock : BlockOk kFallbackBlock :=
  .of_isValidBlock (by decide)

/-- The block size that `open` and the reader use: the given one, or 4096 when it is invalid. -/
def effectiveBlock (block : ℕ) : ℕ := if isValidBlock block then block else kFallbackBlock

/-- The effective block can be used whatever was asked for. -/
theorem BlockOk.effectiveBlock (block : ℕ) : BlockOk (effectiveBlock block) := by
  unfold MotorRv.effectiveBlock
  split
  · exact .of_isValidBlock ‹_›
  · exact .kFallbackBlock

theorem le_pad8 (n : ℕ) : n ≤ pad8 n := by unfold pad8; omega

theorem dvd_pad8 (n : ℕ) : 8 ∣ pad8 n := Dvd.intro_left _ rfl

/-- Records are padded to multiples of eight. -/
theorem dvd_recordBytes (n : ℕ) : 8 ∣ recordBytes n :=
  (show 8 ∣ kWalHdrBytes by decide).add (dvd_pad8 n)

section Block

variable {block : ℕ}

/-- What is padded ends with a block. -/
theorem padToBlock_dvd (len block : ℕ) : block ∣ padToBlock len block := Dvd.intro_left _ rfl

/-- Padding does not cut anything off. -/
theorem le_padToBlock (hb : 0 < block) (len : ℕ) : len ≤ padToBlock len block := by
  have h1 := Nat.div_add_mod (len + block - 1) block
  have h2 := Nat.mod_lt (len + block - 1) hb
  rw [padToBlock, Nat.mul_comm]
  omega

/-- Padding adds less than a block. -/
theorem padToBlock_lt (hb : 0 < block) (len : ℕ) : padToBlock len block < len + block := by
  have h1 := Nat.div_mul_le_self (len + block - 1) block
  rw [padToBlock]
  omega

/-- Rounding a multiple of the block changes nothing. -/
theorem padToBlock_of_dvd (hb : 0 < block) {len : ℕ} (h : block ∣ len) :
    padToBlock len block = len := by
  obtain ⟨k, rfl⟩ := h
  rw [padToBlock, show block * k + block - 1 = (block - 1) + block * k by omega,
    Nat.add_mul_div_left _ _ hb, Nat.div_eq_of_lt (by omega), Nat.zero_add, Nat.mul_comm]

/-- Rounding commutes with a shift by whole blocks. -/
theorem padToBlock_add (hb : 0 < block) {off : ℕ} (h : block ∣ off) (len : ℕ) :
    padToBlock (off + len) block = off + padToBlock len block := by
  obtain ⟨k, rfl⟩ := h
  rw [padToBlock, padToBlock, show block * k + len + block - 1 = (len + block - 1) + block * k by
    omega, Nat.add_mul_div_left _ _ hb, Nat.add_mul]
  ring

theorem padToBlock_pos (hb : 0 < block) {len : ℕ} (h : 0 < len) : 0 < padToBlock len block :=
  lt_of_lt_of_le h (le_padToBlock hb len)

/-- The padded length is the least number of whole blocks. -/
theorem padToBlock_le_of_dvd {len n : ℕ} (hb : 0 < block) (hn : block ∣ n) (h : len ≤ n) :
    padToBlock len block ≤ n := by
  have h1 := padToBlock_lt hb len
  obtain ⟨a, ha⟩ := padToBlock_dvd len block
  obtain ⟨k, rfl⟩ := hn
  rw [ha] at h1 ⊢
  refine Nat.mul_le_mul_left block ?_
  by_contra hlt
  have : block * (k + 1) ≤ block * a := Nat.mul_le_mul_left block (by omega)
  rw [Nat.mul_add] at this
  omega

end Block

/-! ### Record header -/

/-- The record header, field by field. -/
structure WalHdr where
  magic : UInt32
  crc32c : UInt32
  lsn : UInt64
  tsNs : UInt64
  epoch : UInt32
  tmpl : UInt16
  len : UInt16
  deriving DecidableEq

/-- The 32 bytes of a record header. -/
def WalHdr.encode (h : WalHdr) : Bytes :=
  encU32 h.magic ++ (encU32 h.crc32c ++ (encU64 h.lsn ++ (encU64 h.tsNs ++ (encU32 h.epoch ++
    (encU16 h.tmpl ++ encU16 h.len)))))

/-- Read a record header from its bytes. -/
def WalHdr.decode (b : Bytes) : WalHdr where
  magic := decU32 (slice b 0 4)
  crc32c := decU32 (slice b 4 4)
  lsn := decU64 (slice b 8 8)
  tsNs := decU64 (slice b 16 8)
  epoch := decU32 (slice b 24 4)
  tmpl := decU16 (slice b 28 2)
  len := decU16 (slice b 30 2)

/-- The header bytes with the checksum field zeroed. -/
def zeroCrcField (b : Bytes) : Bytes := b.take 4 ++ List.replicate 4 0 ++ b.drop 8

@[simp]
theorem WalHdr.length_encode (h : WalHdr) : h.encode.length = kWalHdrBytes := by
  simp [encode, kWalHdrBytes]

/-- Reading back a written header. -/
theorem WalHdr.decode_encode (h : WalHdr) : decode h.encode = h := by
  have h0 : HoldsAt h.encode 0 h.encode := List.prefix_rfl
  have h1 := h0.right
  have h2 := h1.right
  have h3 := h2.right
  have h4 := h3.right
  have h5 := h4.right
  have h6 := h5.right
  simp only [length_encU32, length_encU64, length_encU16, Nat.zero_add, Nat.reduceAdd]
    at h1 h2 h3 h4 h5 h6
  have e0 : slice h.encode 0 4 = encU32 h.magic := h0.left.slice_eq
  have e1 : slice h.encode 4 4 = encU32 h.crc32c := h1.left.slice_eq
  have e2 : slice h.encode 8 8 = encU64 h.lsn := h2.left.slice_eq
  have e3 : slice h.encode 16 8 = encU64 h.tsNs := h3.left.slice_eq
  have e4 : slice h.encode 24 4 = encU32 h.epoch := h4.left.slice_eq
  have e5 : slice h.encode 28 2 = encU16 h.tmpl := h5.left.slice_eq
  have e6 : slice h.encode 30 2 = encU16 h.len := h6.slice_eq
  simp [decode, e0, e1, e2, e3, e4, e5, e6]

/-! ### Records -/

/-- A record as the log carries it: what `append` was given, and its LSN. -/
structure LogRecord where
  lsn : ℕ
  tsNs : UInt64
  tmpl : UInt16
  payload : Bytes
  deriving DecidableEq

/-- The header `append` writes, before the checksum is filled in. -/
def LogRecord.header (epoch : UInt32) (r : LogRecord) : WalHdr where
  magic := kWalMagic
  crc32c := 0
  lsn := UInt64.ofNat r.lsn
  tsNs := r.tsNs
  epoch := epoch
  tmpl := r.tmpl
  len := UInt16.ofNat r.payload.length

/-- The checksum of a record: header with a zero checksum field, then payload. -/
def LogRecord.crc (epoch : UInt32) (r : LogRecord) : UInt32 :=
  MotorRv.crc32c (MotorRv.crc32c 0 (r.header epoch).encode) r.payload

/-- The header as it stands in the log. -/
def LogRecord.sealed (epoch : UInt32) (r : LogRecord) : WalHdr :=
  { r.header epoch with crc32c := r.crc epoch }

/-- The bytes of a record in the log. -/
def encodeRecord (epoch : UInt32) (r : LogRecord) : Bytes :=
  (r.sealed epoch).encode ++
    (r.payload ++ List.replicate (pad8 r.payload.length - r.payload.length) 0)

/-- A record takes its header and its payload, padded. -/
@[simp]
theorem length_encodeRecord (epoch : UInt32) (r : LogRecord) :
    (encodeRecord epoch r).length = recordBytes r.payload.length := by
  have := le_pad8 r.payload.length
  simp only [encodeRecord, recordBytes, List.length_append, WalHdr.length_encode,
    List.length_replicate]
  omega

/-- The bytes of a run of records, one after the other. -/
def encodeRecords (epoch : UInt32) (rs : List LogRecord) : Bytes :=
  rs.flatMap (encodeRecord epoch)

@[simp] theorem encodeRecords_nil (epoch : UInt32) : encodeRecords epoch [] = [] := rfl

@[simp]
theorem encodeRecords_cons (epoch : UInt32) (r : LogRecord) (rs : List LogRecord) :
    encodeRecords epoch (r :: rs) = encodeRecord epoch r ++ encodeRecords epoch rs :=
  List.flatMap_cons

/-- Records are written one after the other. -/
theorem encodeRecords_append (epoch : UInt32) (rs ss : List LogRecord) :
    encodeRecords epoch (rs ++ ss) = encodeRecords epoch rs ++ encodeRecords epoch ss :=
  List.flatMap_append

/-- Records together are a multiple of eight. -/
theorem dvd_length_encodeRecords (epoch : UInt32) (rs : List LogRecord) :
    8 ∣ (encodeRecords epoch rs).length := by
  induction rs with
  | nil => simp
  | cons r rs ih =>
    rw [encodeRecords_cons, List.length_append, length_encodeRecord]
    exact (dvd_recordBytes _).add ih

/-- The bytes of a group: its records, then zeros up to the block. -/
def groupBytes (epoch : UInt32) (block : ℕ) (rs : List LogRecord) : Bytes :=
  encodeRecords epoch rs ++
    List.replicate (padToBlock (encodeRecords epoch rs).length block -
      (encodeRecords epoch rs).length) 0

/-- A group is padded to whole blocks. -/
theorem length_groupBytes {block : ℕ} (hb : 0 < block) (epoch : UInt32) (rs : List LogRecord) :
    (groupBytes epoch block rs).length = padToBlock (encodeRecords epoch rs).length block := by
  have := le_padToBlock hb (encodeRecords epoch rs).length
  simp only [groupBytes, List.length_append, List.length_replicate]
  omega

theorem dvd_length_groupBytes {block : ℕ} (hb : 0 < block) (epoch : UInt32)
    (rs : List LogRecord) : block ∣ (groupBytes epoch block rs).length := by
  rw [length_groupBytes hb]
  exact padToBlock_dvd _ _

/-! ### Segment header -/

/-- The segment header; the explicit padding, the creation time and the reserved words are
written as zeros. -/
structure SegmentHdr where
  partition : UInt16
  epoch : UInt32
  firstLsn : UInt64
  segmentBytes : UInt64
  blockSize : UInt32
  blockSource : UInt8
  deriving DecidableEq

/-- The 64 header bytes with the given checksum. -/
def SegmentHdr.encode (h : SegmentHdr) (crc : UInt32) : Bytes :=
  encU32 kSegmentMagic ++ (encU32 crc ++ (encU16 kSegmentFormatVersion ++ (encU16 h.partition ++
    (encU32 h.epoch ++ (encU64 h.firstLsn ++ (encU64 h.segmentBytes ++ (encU32 h.blockSize ++
      (encU8 h.blockSource ++ List.replicate 27 0))))))))

@[simp]
theorem SegmentHdr.length_encode (h : SegmentHdr) (crc : UInt32) : (h.encode crc).length = 64 := by
  simp [encode]

/-- Read a segment header from its bytes. -/
def SegmentHdr.decode (b : Bytes) : SegmentHdr where
  partition := decU16 (slice b 10 2)
  epoch := decU32 (slice b 12 4)
  firstLsn := decU64 (slice b 16 8)
  segmentBytes := decU64 (slice b 24 8)
  blockSize := decU32 (slice b 32 4)
  blockSource := decU8 (slice b 36 1)

/-- The checks that `open_existing` and the reader make of a segment header: magic, version,
checksum. -/
def SegmentHdr.check (b : Bytes) : Except Err SegmentHdr :=
  if decU32 (slice b 0 4) ≠ kSegmentMagic then .error .badMagic
  else if decU16 (slice b 8 2) ≠ kSegmentFormatVersion then .error .badMagic
  else if crc32c 0 (zeroCrcField (b.take 64)) ≠ decU32 (slice b 4 4) then .error .badCrc
  else .ok (decode b)

/-- The header region `open_create` writes: the sealed header and zeros. -/
def SegmentHdr.region (h : SegmentHdr) : Bytes :=
  h.encode (crc32c 0 (h.encode 0)) ++ List.replicate (kSegmentHdrBytes - 64) 0

/-- The header of a segment takes its whole region. -/
@[simp]
theorem SegmentHdr.length_region (h : SegmentHdr) : h.region.length = kSegmentHdrBytes := by
  rw [region, List.length_append, length_encode, List.length_replicate]
  decide

/-- Zeroing the checksum bytes of a sealed header gives the header the checksum was taken of. -/
theorem SegmentHdr.zeroCrcField_encode (h : SegmentHdr) (crc : UInt32) :
    zeroCrcField (h.encode crc) = h.encode 0 := by
  have ht : (h.encode crc).take 4 = encU32 kSegmentMagic := by
    rw [encode, List.take_left' (length_encU32 _)]
  have hd : (h.encode crc).drop 8 = encU16 kSegmentFormatVersion ++ (encU16 h.partition ++
      (encU32 h.epoch ++ (encU64 h.firstLsn ++ (encU64 h.segmentBytes ++ (encU32 h.blockSize ++
        (encU8 h.blockSource ++ List.replicate 27 0)))))) := by
    rw [encode, ← List.append_assoc, List.drop_left' (by simp)]
  have hz : List.replicate 4 0 = encU32 0 := by decide
  rw [zeroCrcField, ht, hd, encode, List.append_assoc, hz]

/-- A file that starts with a written header region passes the checks, with that header. -/
theorem SegmentHdr.check_eq_ok {b : Bytes} {h : SegmentHdr} (hb : HoldsAt b 0 h.region) :
    SegmentHdr.check b = .ok h := by
  set crc := MotorRv.crc32c 0 (h.encode 0) with hcrc
  have h0 : HoldsAt b 0 (h.encode crc) := hb.left
  have h1 := h0.right
  have h2 := h1.right
  have h3 := h2.right
  have h4 := h3.right
  have h5 := h4.right
  have h6 := h5.right
  have h7 := h6.right
  have h8 := h7.right
  simp only [length_encU32, length_encU64, length_encU16, Nat.zero_add,
    Nat.reduceAdd] at h1 h2 h3 h4 h5 h6 h7 h8
  have e0 : slice b 0 4 = encU32 kSegmentMagic := h0.left.slice_eq
  have e1 : slice b 4 4 = encU32 crc := h1.left.slice_eq
  have e2 : slice b 8 2 = encU16 kSegmentFormatVersion := h2.left.slice_eq
  have e3 : slice b 10 2 = encU16 h.partition := h3.left.slice_eq
  have e4 : slice b 12 4 = encU32 h.epoch := h4.left.slice_eq
  have e5 : slice b 16 8 = encU64 h.firstLsn := h5.left.slice_eq
  have e6 : slice b 24 8 = encU64 h.segmentBytes := h6.left.slice_eq
  have e7 : slice b 32 4 = encU32 h.blockSize := h7.left.slice_eq
  have e8 : slice b 36 1 = encU8 h.blockSource := h8.left.slice_eq
  have et : b.take 64 = h.encode crc := by
    have := h0.slice_eq
    rwa [SegmentHdr.length_encode, slice, List.drop_zero] at this
  rw [check, e0, e1, e2, et, zeroCrcField_encode, decU32_encU32, decU32_encU32, decU16_encU16,
    if_neg (by simp), if_neg (by simp), if_neg (by simp [hcrc]), decode, e3, e4, e5, e6, e7, e8]
  simp

end MotorRv
