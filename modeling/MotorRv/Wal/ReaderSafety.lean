import MotorRv.Wal.ReadBack

/-!
# The reader on arbitrary bytes

Recovery maps whatever the disk holds. The checked reader below reads the mapping through `readAt`,
which fails outside of it, and fails too when its loop runs out of turns; on every byte string it
does what the reader does (`checkedCalls_eq`). What is returned stands in the mapping, record after
record (`Placed`).

No hypothesis is made on the bytes: the header may lie about the block size, the lengths of the
records, the first LSN. The argument is that each field is compared with what is left of the mapping
before it is used, and the checked reader makes that visible, since it has no answer where a read
would leave the mapping.

`Steady` is what the reader keeps from call to call, also after the one that stopped it: a valid
block, an offset at an eighth place, and a place to resume at that is a boundary. A record that is
returned stands behind the offset and inside the mapping (`Returned`). `Steady.next` is the step and
`Steady.calls` the run; that the reader stops follows from the offsets (`Steady.exists_stop`).
-/

namespace MotorRv

open Lib

/-! ### The checked reader -/

theorem SegmentHdr.check_take (b : Bytes) : SegmentHdr.check (b.take 64) = SegmentHdr.check b := by
  rw [check, check, slice_take (by decide), slice_take (by decide), slice_take (by decide),
    List.take_take, min_self, decode, decode, slice_take (by decide), slice_take (by decide),
    slice_take (by decide), slice_take (by decide), slice_take (by decide), slice_take (by decide)]

theorem SegmentHdr.eq_decode_of_check {b : Bytes} {h : SegmentHdr} (hc : check b = .ok h) :
    h = decode b := by
  unfold check at hc
  split_ifs at hc
  exact (Except.ok.inj hc).symm

namespace SegmentReader

variable {r : SegmentReader}

/-- `open`, reading inside the mapping. -/
def checkedOpen (mapped : Bytes) (expectedFirst : ℕ) : Option (Status × SegmentReader) :=
  let r := ofMapped mapped
  if mapped.length < kSegmentHdrBytes then
    some (.fail .badMagic, { r with stopReason := .shortSegment })
  else do
    let hdr ← readAt mapped 0 64
    match SegmentHdr.check hdr with
    | .error e =>
      some (.fail e, { r with stopReason := if e = .badCrc then .badCrc else .badMagic })
    | .ok h =>
      if expectedFirst ≠ 0 ∧ expectedFirst < h.firstLsn.toNat then
        some (.fail .lsnGap, { r with
          epoch := h.epoch
          firstLsn := h.firstLsn.toNat
          blockSize := effectiveBlock h.blockSize.toNat
          stopReason := .segmentDiscontinuity })
      else some (.kOk, start mapped h)

theorem checkedOpen_eq (mapped : Bytes) (expectedFirst : ℕ) :
    checkedOpen mapped expectedFirst = some («open» mapped expectedFirst) := by
  unfold checkedOpen «open»
  dsimp only
  split_ifs with hlen
  · rfl
  · have h64 : 0 + 64 ≤ mapped.length := by
      simp only [kSegmentHdrBytes] at hlen
      omega
    rw [readAt_eq h64, slice, List.drop_zero, Option.bind_eq_bind, Option.bind_some,
      SegmentHdr.check_take]
    cases SegmentHdr.check mapped with
    | error e => rfl
    | ok h =>
      dsimp only
      split_ifs <;> rfl

/-- The checks of a record, reading inside the mapping. -/
def checkedScanRecord (r : SegmentReader) : Option Scan := do
  let h := WalHdr.decode (← readAt r.mapped r.offset kWalHdrBytes)
  if h.epoch ≠ r.epoch then some (.stop .epochMismatch)
  else if kMaxPayload < h.len.toNat then some (.stop .badMagic)
  else if r.mapped.length < r.offset + recordBytes h.len.toNat then some (.stop .shortSegment)
  else
    let payload ← readAt r.mapped (r.offset + kWalHdrBytes) h.len.toNat
    if crc32c (crc32c 0 { h with crc32c := 0 }.encode) payload ≠ h.crc32c then
      some (.stop .badCrc)
    else if r.expectedLsn ≠ 0 ∧ h.lsn.toNat ≠ r.expectedLsn then some (.stop .lsnGap)
    else some (.event ⟨h.lsn.toNat, h.tsNs, h.tmpl, payload⟩)

/-- One turn of the loop, reading inside the mapping. -/
def checkedScan (r : SegmentReader) : Option Scan :=
  if r.mapped.length - r.offset < kWalHdrBytes then do
    let rest ← readAt r.mapped r.offset (r.mapped.length - r.offset)
    some (.stop (if rest.all (· = 0) then .clean else .shortSegment))
  else do
    let w ← readAt r.mapped r.offset 8
    if ofLe w = 0 then
      some (if r.offset % r.blockSize = 0 then .stop .clean
        else .skip (padToBlock r.offset r.blockSize))
    else
      let magic ← readAt r.mapped r.offset 4
      if decU32 magic ≠ kWalMagic then
        some (if r.offset % r.blockSize ≠ 0 then .skip (padToBlock r.offset r.blockSize)
          else .stop .badMagic)
      else r.checkedScanRecord

theorem checkedScanRecord_eq (h : r.offset + kWalHdrBytes ≤ r.mapped.length) :
    r.checkedScanRecord = some r.scanRecord := by
  unfold checkedScanRecord scanRecord
  rw [readAt_eq h, Option.bind_eq_bind, Option.bind_some]
  dsimp only
  generalize hdec : WalHdr.decode (slice r.mapped r.offset kWalHdrBytes) = hdr
  by_cases hepoch : hdr.epoch ≠ r.epoch
  · rw [if_pos hepoch, if_pos hepoch]
  rw [if_neg hepoch, if_neg hepoch]
  by_cases hlen : kMaxPayload < hdr.len.toNat
  · rw [if_pos hlen, if_pos hlen]
  rw [if_neg hlen, if_neg hlen]
  by_cases hfit : r.mapped.length < r.offset + recordBytes hdr.len.toNat
  · rw [if_pos hfit, if_pos hfit]
  rw [if_neg hfit, if_neg hfit]
  -- the record fits, and its payload in it
  have hpad := le_pad8 hdr.len.toNat
  simp only [recordBytes] at hfit
  rw [readAt_eq (by omega), Option.bind_some]
  split_ifs <;> rfl

theorem checkedScan_eq (h : r.offset ≤ r.mapped.length) : r.checkedScan = some r.scan := by
  unfold checkedScan scan
  by_cases hrest : r.mapped.length - r.offset < kWalHdrBytes
  · have hall : slice r.mapped r.offset (r.mapped.length - r.offset) = r.mapped.drop r.offset := by
      rw [slice, List.take_of_length_le (by rw [List.length_drop])]
    rw [if_pos hrest, if_pos hrest, readAt_eq (by omega), hall]
    rfl
  rw [if_neg hrest, if_neg hrest]
  have hfit : r.offset + kWalHdrBytes ≤ r.mapped.length := by omega
  have h8 : r.offset + 8 ≤ r.mapped.length :=
    (Nat.add_le_add_left (by decide) r.offset).trans hfit
  rw [readAt_eq h8, Option.bind_eq_bind, Option.bind_some]
  by_cases hzero : ofLe (slice r.mapped r.offset 8) = 0
  · rw [if_pos hzero, if_pos hzero]
  rw [if_neg hzero, if_neg hzero, readAt_eq (by omega), Option.bind_some]
  by_cases hmagic : decU32 (slice r.mapped r.offset 4) ≠ kWalMagic
  · rw [if_pos hmagic, if_pos hmagic]
  rw [if_neg hmagic, if_neg hmagic, checkedScanRecord_eq hfit]

/-- The loop of `next`, reading inside the mapping; it has no answer when its turns are used up. -/
def checkedLoop : ℕ → SegmentReader → Option (Option LogRecord × SegmentReader)
  | 0, _ => none
  | n + 1, r =>
    if r.offset < r.mapped.length then do
      match ← r.checkedScan with
      | .skip offset => checkedLoop n { r with offset := offset }
      | .stop reason => some (none, { r with stopReason := reason })
      | .event ev => some (some ev, r.accept ev)
    else some (none, { r with stopReason := .clean })

def checkedNext (r : SegmentReader) : Option (Option LogRecord × SegmentReader) :=
  checkedLoop (r.mapped.length - r.offset + 1) r

theorem checkedLoop_eq (hb : 0 < r.blockSize) {n : ℕ} (hn : r.mapped.length - r.offset < n) :
    checkedLoop n r = some (loop n r) := by
  induction n generalizing r with
  | zero => omega
  | succ n ih =>
    rw [checkedLoop, loop]
    split_ifs with hlt
    · rw [checkedScan_eq hlt.le, Option.bind_eq_bind, Option.bind_some]
      cases hs : r.scan with
      | skip o =>
        obtain ⟨hmod, rfl⟩ := scan_skip hs
        have hgt := lt_padToBlock hb hmod
        exact ih (r := { r with offset := padToBlock r.offset r.blockSize }) hb
          (by dsimp only; omega)
      | stop reason => rfl
      | event ev => rfl
    · rfl

theorem checkedNext_eq (hb : 0 < r.blockSize) : r.checkedNext = some r.next :=
  checkedLoop_eq hb (Nat.lt_succ_self _)

/-! ### Any number of calls -/

/-- `n` calls of `next`, also after one that returned no record. -/
def calls : ℕ → SegmentReader → List LogRecord × SegmentReader
  | 0, r => ([], r)
  | n + 1, r =>
    let (ev, r') := r.next
    let (evs, r'') := calls n r'
    (ev.toList ++ evs, r'')

def checkedCalls : ℕ → SegmentReader → Option (List LogRecord × SegmentReader)
  | 0, r => some ([], r)
  | n + 1, r => do
    let (ev, r') ← r.checkedNext
    let (evs, r'') ← checkedCalls n r'
    some (ev.toList ++ evs, r'')

/-- Records that stand in a mapping one behind the other, between two offsets. -/
def Placed (mapped : Bytes) : ℕ → List LogRecord → ℕ → Prop
  | lo, [], hi => lo ≤ hi
  | lo, ev :: evs, hi => ∃ o, lo ≤ o ∧ 8 ∣ o ∧
      o + recordBytes ev.payload.length ≤ mapped.length ∧
      ev.payload = slice mapped (o + kWalHdrBytes) ev.payload.length ∧
      Placed mapped (o + recordBytes ev.payload.length) evs hi

/-- What the reader keeps from call to call. -/
structure Steady (r : SegmentReader) : Prop where
  block : BlockOk r.blockSize
  aligned : 8 ∣ r.offset
  resume : r.blockSize ∣ r.resumeOffset

/-- A call that returns a record. -/
structure Returned (r : SegmentReader) (ev : LogRecord) (r' : SegmentReader) : Prop where
  place : ∃ o, r.offset ≤ o ∧ 8 ∣ o ∧ o + recordBytes ev.payload.length ≤ r.mapped.length ∧
    ev.payload = slice r.mapped (o + kWalHdrBytes) ev.payload.length ∧
    r'.offset = o + recordBytes ev.payload.length
  resume : r'.offset ≤ r'.resumeOffset
  lsn : r.expectedLsn ≠ 0 → ev.lsn = r.expectedLsn
  expected : r'.expectedLsn = (ev.lsn + 1) % 2 ^ 64

theorem Returned.lt_offset {ev : LogRecord} {r' : SegmentReader} (h : r.Returned ev r') :
    r.offset < r'.offset := by
  obtain ⟨o, ho, -, -, -, hoff⟩ := h.place
  rw [hoff, recordBytes, kWalHdrBytes]
  omega

/-- The payload of a record that matches is what stands behind its header. -/
theorem payload_of_recordAt {epoch : UInt32} {b : Bytes} {o : ℕ} {ev : LogRecord}
    (h : recordAt epoch b o = some ev) :
    o + recordBytes ev.payload.length ≤ b.length ∧
      ev.payload = slice b (o + kWalHdrBytes) ev.payload.length := by
  unfold recordAt at h
  dsimp only at h
  split_ifs at h with hc
  obtain rfl := Option.some.inj h
  have hfit := hc.2.2.1
  have hpad := le_pad8 (WalHdr.decode (slice b o kWalHdrBytes)).len.toNat
  have hlen : (slice b (o + kWalHdrBytes)
    (WalHdr.decode (slice b o kWalHdrBytes)).len.toNat).length =
      (WalHdr.decode (slice b o kWalHdrBytes)).len.toNat := by
    refine length_slice ?_
    simp only [recordBytes] at hfit
    omega
  dsimp only
  rw [hlen]
  exact ⟨hfit, rfl⟩

/-- **One call.** -/
theorem Steady.next (h : r.Steady) : r.next.2.Steady ∧ r.next.2.mapped = r.mapped ∧
    r.next.2.blockSize = r.blockSize ∧ r.next.2.firstLsn = r.firstLsn ∧
      match r.next.1 with
      | some ev => r.Returned ev r.next.2
      | none => r.offset ≤ r.next.2.offset ∧ r.next.2.resumeOffset = r.resumeOffset ∧
          r.next.2.expectedLsn = r.expectedLsn := by
  have haligned : ∀ {o}, o = r.offset ∨ r.blockSize ∣ o → 8 ∣ o := by
    rintro o (rfl | hbd)
    · exact h.aligned
    · exact h.block.dvd8.trans hbd
  obtain ⟨o, reason, ho, hbd, hnext⟩ | ⟨o, ev, ho, hbd, -, hscan, hnext⟩ :=
    next_cases h.block.zero_lt
  · rw [hnext]
    exact ⟨⟨h.block, haligned hbd, h.resume⟩, rfl, rfl, rfl, ho, rfl, rfl⟩
  · obtain ⟨hrec, hlsn⟩ := recordAt_of_event hscan
    obtain ⟨hfit, hpay⟩ := payload_of_recordAt hrec
    rw [hnext]
    exact ⟨⟨h.block, (haligned hbd).add (dvd_recordBytes _), padToBlock_dvd _ _⟩, rfl, rfl, rfl,
      ⟨o, ho, haligned hbd, hfit, hpay, rfl⟩, le_padToBlock h.block.zero_lt _, hlsn, rfl⟩

/-- The reader that `open` leaves, whatever it answers. -/
theorem steady_open (mapped : Bytes) (expectedFirst : ℕ) :
    («open» mapped expectedFirst).2.Steady ∧ («open» mapped expectedFirst).2.mapped = mapped ∧
      («open» mapped expectedFirst).2.offset = kSegmentHdrBytes ∧
      («open» mapped expectedFirst).2.resumeOffset = kSegmentHdrBytes ∧
      ((«open» mapped expectedFirst).1.isOk = true →
        («open» mapped expectedFirst).2.expectedLsn = («open» mapped expectedFirst).2.firstLsn ∧
        («open» mapped expectedFirst).2.firstLsn = (SegmentHdr.decode mapped).firstLsn.toNat) := by
  have h8 : 8 ∣ kSegmentHdrBytes := by decide
  have hfallback := BlockOk.kFallbackBlock
  unfold «open»
  dsimp only
  split_ifs with hlen
  · exact ⟨⟨hfallback, h8, hfallback.dvdHdr⟩, rfl, rfl, rfl, nofun⟩
  · cases hck : SegmentHdr.check mapped with
    | error e =>
      refine ⟨⟨hfallback, h8, hfallback.dvdHdr⟩, rfl, rfl, rfl, fun hok => ?_⟩
      rw [Status.isOk_fail] at hok
      exact absurd (of_decide_eq_true hok) (SegmentHdr.ne_ok_of_check hck)
    | ok h =>
      have hblock := BlockOk.effectiveBlock h.blockSize.toNat
      dsimp only
      split_ifs
      · exact ⟨⟨hblock, h8, hblock.dvdHdr⟩, rfl, rfl, rfl, nofun⟩
      · refine ⟨⟨hblock, h8, hblock.dvdHdr⟩, rfl, rfl, rfl, fun _ => ⟨rfl, ?_⟩⟩
        rw [← SegmentHdr.eq_decode_of_check hck]
        rfl

/-- Consecutive LSNs from `n` on, as long as they can be counted. -/
def Counted (n : ℕ) (evs : List LogRecord) : Prop :=
  ∀ i ev, evs[i]? = some ev → n + i < 2 ^ 64 → ev.lsn = n + i

/-- **Any number of calls**, after records that end at `lo`. -/
theorem Steady.calls (n : ℕ) : ∀ {r : SegmentReader} {lo : ℕ}, r.Steady → lo ≤ r.offset →
    lo ≤ r.resumeOffset → checkedCalls n r = some (calls n r) ∧ (calls n r).2.Steady ∧
      (calls n r).2.mapped = r.mapped ∧ (calls n r).2.blockSize = r.blockSize ∧
      (∃ hi, Placed r.mapped lo (calls n r).1 hi ∧ hi ≤ (calls n r).2.offset ∧
        hi ≤ (calls n r).2.resumeOffset) ∧
      (r.expectedLsn ≠ 0 → Counted r.expectedLsn (calls n r).1) := by
  induction n with
  | zero =>
    intro r lo h hoff hres
    refine ⟨rfl, h, rfl, rfl, ⟨lo, le_rfl, hoff, hres⟩, fun _ i ev hi => ?_⟩
    cases hi
  | succ n ih =>
    intro r lo h hoff hres
    obtain ⟨hsteady, hmapped, hblock, -, hcall⟩ := h.next
    have hchecked := checkedNext_eq h.block.zero_lt
    rw [checkedCalls, SegmentReader.calls, hchecked]
    generalize r.next = p at hsteady hmapped hblock hcall
    obtain ⟨ev, r'⟩ := p
    cases ev with
    | none =>
      -- the next call starts where this one stopped
      obtain ⟨hoff', hres', hexp⟩ := hcall
      obtain ⟨hck, hst, hm, hb, hplaced, hcount⟩ := @ih _ lo hsteady (hoff.trans hoff')
        (hres.trans_eq hres'.symm)
      dsimp only at hmapped hexp ⊢
      rw [hmapped] at hm hplaced
      rw [hexp] at hcount
      refine ⟨?_, hst, hm, hb.trans hblock, hplaced, hcount⟩
      rw [Option.bind_eq_bind, Option.bind_some, hck]
      rfl
    | some ev =>
      obtain ⟨o, ho, h8, hfit, hpay, hend⟩ := hcall.place
      obtain ⟨hck, hst, hm, hb, ⟨hi, hplaced, hhi⟩, hcount⟩ :=
        @ih _ r'.offset hsteady le_rfl hcall.resume
      dsimp only at hmapped hend ⊢
      rw [hmapped] at hm hplaced
      rw [hend] at hplaced
      refine ⟨?_, hst, hm, hb.trans hblock, ⟨hi, ⟨o, hoff.trans ho, h8, hfit, hpay, hplaced⟩, hhi⟩,
        fun hne i e he hlt => ?_⟩
      · rw [Option.bind_eq_bind, Option.bind_some, hck]
        rfl
      · have hlsn := hcall.lsn hne
        have hexp := hcall.expected
        cases i with
        | zero =>
          obtain rfl : ev = e := by simpa using he
          exact hlsn
        | succ i =>
          have hnext : r'.expectedLsn = r.expectedLsn + 1 := by
            rw [hexp, hlsn]
            exact Nat.mod_eq_of_lt (by omega)
          have := hcount (by omega) i e (by simpa using he) (by rw [hnext]; omega)
          rw [this, hnext]
          omega

/-- The reader stops. -/
theorem Steady.exists_stop {r : SegmentReader} (h : r.Steady) :
    ∃ n ≤ r.mapped.length - r.offset, (SegmentReader.calls n r).2.next.1 = none := by
  generalize hm : r.mapped.length - r.offset = m
  induction m using Nat.strong_induction_on generalizing r with
  | _ m ih =>
    obtain ⟨hsteady, hmapped, -, -, hcall⟩ := h.next
    cases hev : r.next.1 with
    | none => exact ⟨0, Nat.zero_le _, hev⟩
    | some ev =>
      rw [hev] at hcall
      have hlt := hcall.lt_offset
      obtain ⟨o, ho, -, hfit, -, hend⟩ := hcall.place
      rw [recordBytes, kWalHdrBytes] at hfit hend
      obtain ⟨n, hn, hstop⟩ := ih _ (by rw [hmapped]; omega) hsteady rfl
      rw [hmapped] at hn
      exact ⟨n + 1, by omega, hstop⟩

/-- **The reader is safe.** Whatever bytes are mapped and however often `next` is called: no read
leaves the mapping and no loop runs out of turns; the records stand in the mapping one behind the
other, with payloads at multiples of eight; every record moves the offset; the place to resume is a
multiple of the block and not before the end of the last record; after a successful `open` the LSNs
count from the first one of the header, if that is not zero; and the reader stops. -/
theorem reader_safe (mapped : Bytes) (expectedFirst n : ℕ) :
    let r₀ := («open» mapped expectedFirst).2
    let r := (calls n r₀).2
    checkedOpen mapped expectedFirst = some («open» mapped expectedFirst) ∧
    checkedCalls n r₀ = some (calls n r₀) ∧
    (∃ hi, Placed mapped kSegmentHdrBytes (calls n r₀).1 hi ∧ hi ≤ r.resumeOffset) ∧
    (∀ ev r', r.next = (some ev, r') → r.offset < r'.offset) ∧
    r.blockSize ∣ r.resumeOffset ∧
    ((«open» mapped expectedFirst).1.isOk = true →
      (SegmentHdr.decode mapped).firstLsn.toNat ≠ 0 →
        Counted (SegmentHdr.decode mapped).firstLsn.toNat (calls n r₀).1) ∧
    ∃ m ≤ mapped.length, (calls m r₀).2.next.1 = none := by
  obtain ⟨hsteady, hmapped, hoff, hres, hlsn⟩ := steady_open mapped expectedFirst
  obtain ⟨hck, hst, -, -, ⟨hi, hplaced, -, hhi⟩, hcount⟩ :=
    hsteady.calls n hoff.ge hres.ge
  rw [hmapped] at hplaced
  refine ⟨checkedOpen_eq mapped expectedFirst, hck, ⟨hi, hplaced, hhi⟩,
    fun ev r' hnext => ?_, hst.resume, fun hok hne => ?_, ?_⟩
  · have hcall := hst.next.2.2.2.2
    rw [hnext] at hcall
    exact hcall.lt_offset
  · obtain ⟨hexp, hfirst⟩ := hlsn hok
    have := hcount (by rw [hexp, hfirst]; exact hne)
    rwa [hexp, hfirst] at this
  · obtain ⟨m, hm, hstop⟩ := hsteady.exists_stop
    rw [hmapped] at hm
    exact ⟨m, hm.trans (Nat.sub_le _ _), hstop⟩

end SegmentReader

end MotorRv
