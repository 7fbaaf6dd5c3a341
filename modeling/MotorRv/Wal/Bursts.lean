import MotorRv.Base.CrcPaths
import MotorRv.Wal.RoundTrip

/-!
# Short damage to a record

A change of at most four consecutive bytes in the payload of a record is always noticed: the reader
returns the records before it, and at the record the checksum is another one
(`crc32c_ne_of_burst`). What the reader does depends on the bytes up to the end of what it has
returned only (`Steps.remap`), so the damage does not keep it from coming there.

Two things are put together. The reader is local: up to the record that is damaged it sees the bytes
before the damage only (`Steps.remap`, through one lemma for each way in which `next` can go), and
it comes to the header of that record at the same place. There the header is whole, since the damage
lies in the payload, so the length is right and the checksum is taken of as many bytes as before; by
the result on bursts it is another one.

`stops_at_burst` is about any file from which the record is read. `stops_with_badCrc` instantiates
it with a file in which the first writes of a run landed, whatever became of the others, for any
record of these writes.
-/

namespace MotorRv

open Lib

/-- At most four consecutive bytes of a range are replaced, not all of them by themselves. -/
def Burst (b b' : Bytes) (lo hi : ℕ) : Prop :=
  ∃ i xs, lo ≤ i ∧ i + xs.length ≤ hi ∧ xs.length ≤ 4 ∧ xs ≠ slice b i xs.length ∧
    b' = writeAt b i xs

/-- A slice is made of two. -/
theorem slice_add (b : Bytes) (off n m : ℕ) :
    slice b off (n + m) = slice b off n ++ slice b (off + n) m := by
  rw [slice, slice, slice, List.take_add, List.drop_drop]

namespace Burst

variable {b b' : Bytes} {lo hi : ℕ}

/-- A burst changes bytes, not their number. -/
theorem length_eq (h : Burst b b' lo hi) (hhi : hi ≤ b.length) : b'.length = b.length := by
  obtain ⟨i, xs, -, hend, -, -, rfl⟩ := h
  exact length_writeAt_of_le (by omega)

/-- Before the range nothing is changed. -/
theorem same (h : Burst b b' lo hi) (hhi : hi ≤ b.length) : ∀ i < lo, b'[i]? = b[i]? := by
  obtain ⟨j, xs, hlo, hend, -, -, rfl⟩ := h
  exact fun i hi => getElem?_writeAt_lt (by omega) (by omega)

/-- The checksum of the range is another one. -/
theorem crc_ne {n : ℕ} (h : Burst b b' lo (lo + n)) (hhi : lo + n ≤ b.length) (crc : UInt32) :
    crc32c crc (slice b' lo n) ≠ crc32c crc (slice b lo n) := by
  obtain ⟨i, xs, hlo, hend, hfour, hne, rfl⟩ := h
  -- the range is what is before the change, the change, and what is after it
  obtain ⟨p, rfl⟩ : ∃ p, i = lo + p := ⟨i - lo, by omega⟩
  obtain ⟨q, rfl⟩ : ∃ q, n = p + (xs.length + q) := ⟨n - p - xs.length, by omega⟩
  have hbefore : slice (writeAt b (lo + p) xs) lo p = slice b lo p :=
    slice_congr fun j _ hj => getElem?_writeAt_lt hj (by omega)
  have hafter : slice (writeAt b (lo + p) xs) (lo + p + xs.length) q =
      slice b (lo + p + xs.length) q :=
    slice_congr fun j hj _ => getElem?_writeAt_ge hj
  have hmiddle : slice (writeAt b (lo + p) xs) (lo + p) xs.length = xs :=
    (holdsAt_writeAt b (lo + p) xs).slice_eq
  have hlen : (slice b (lo + p) xs.length).length = xs.length := length_slice (by omega)
  rw [slice_add, slice_add, slice_add b, slice_add b, hbefore, hafter, hmiddle]
  exact crc32c_ne_of_burst crc _ _ hlen.symm hfour hne

end Burst

/-! ### The reader over another mapping -/

/-- The check of the header depends on its bytes only. -/
theorem SegmentHdr.check_congr {b b' : Bytes} (hsame : ∀ i < 64, b'[i]? = b[i]?) :
    check b' = check b := by
  have hslice : ∀ off n, off + n ≤ 64 → slice b' off n = slice b off n := fun off n h =>
    slice_congr fun i _ hi => hsame i (by omega)
  have htake : b'.take 64 = b.take 64 := by simpa [slice] using hslice 0 64 le_rfl
  unfold check decode
  simp (disch := omega) only [hslice, htake]

namespace SegmentReader

/-- A burst behind the header lets the segment open. -/
theorem open_remap {b b' : Bytes} {expected : ℕ} {r : SegmentReader}
    (h : SegmentReader.open b expected = (.kOk, r)) (hlen : b'.length = b.length)
    (hsame : ∀ i < kSegmentHdrBytes, b'[i]? = b[i]?) :
    SegmentReader.open b' expected = (.kOk, r.remap b') ∧ r.mapped = b ∧
      r.offset = kSegmentHdrBytes ∧ 0 < r.blockSize := by
  unfold SegmentReader.open at h ⊢
  rw [hlen, SegmentHdr.check_congr fun i hi => hsame i (hi.trans (by decide))]
  dsimp only at h ⊢
  split_ifs at h ⊢ with hshort
  · exact absurd (congrArg (·.1.isOk) h) (by simp)
  · cases hcheck : SegmentHdr.check b with
    | error e =>
      rw [hcheck] at h
      have hok : Status.fail e = .kOk := (Prod.mk.inj h).1
      exact absurd (congrArg Status.code hok) (SegmentHdr.ne_ok_of_check hcheck)
    | ok hdr =>
      rw [hcheck] at h
      dsimp only at h ⊢
      split_ifs at h ⊢ with hgap
      · exact absurd (congrArg (·.1.isOk) h) (by simp)
      · obtain rfl := (Prod.mk.inj h).2
        exact ⟨rfl, rfl, rfl, (BlockOk.effectiveBlock _).zero_lt⟩

section Remap

variable {r r' : SegmentReader} {b' : Bytes} {m : ℕ} {ev : LogRecord}

/-- What a returned record leaves of the reader. -/
theorem next_some (hb : 0 < r.blockSize) (h : r.next = (some ev, r')) :
    r.offset + recordBytes ev.payload.length ≤ r'.offset ∧ r'.mapped = r.mapped ∧
      r'.blockSize = r.blockSize := by
  obtain ⟨o, reason, -, -, hnone⟩ | ⟨o, ev', ho, -, -, -, hsome⟩ := next_cases hb
  · rw [hnone] at h
    exact absurd (congrArg (·.1) h) (by simp)
  · rw [hsome] at h
    obtain ⟨hev, rfl⟩ := Prod.mk.inj h
    obtain rfl := Option.some.inj hev
    exact ⟨Nat.add_le_add_right ho _, rfl, rfl⟩

/-- Before the burst the bytes are as they were. -/
theorem slice_remap (hsame : ∀ i < m, b'[i]? = r.mapped[i]?) {off n : ℕ} (h : off + n ≤ m) :
    slice b' off n = slice r.mapped off n :=
  slice_congr fun i _ hi => hsame i (by omega)

/-- Before the burst the reader skips as it did. -/
theorem scan_skip_remap {o : ℕ} (h : r.scan = .skip o) (hlen : b'.length = r.mapped.length)
    (hsame : ∀ i < m, b'[i]? = r.mapped[i]?) (hm : r.offset + kWalHdrBytes ≤ m) :
    (r.remap b').scan = .skip o := by
  simp only [kWalHdrBytes] at hm
  unfold scan at h ⊢
  dsimp only
  rw [hlen, slice_remap hsame (by omega), slice_remap hsame (by omega)]
  split_ifs at h ⊢
  · exact h
  · exact h
  · unfold scanRecord at h
    dsimp only at h
    split_ifs at h

/-- Where a record is returned, a mapping with the same header comes to the checks of a record. -/
theorem scan_remap_eq (h : r.scan = .event ev) (hlen : b'.length = r.mapped.length)
    (hsame : ∀ i < m, b'[i]? = r.mapped[i]?) (hm : r.offset + kWalHdrBytes ≤ m) :
    r.scanRecord = .event ev ∧ (r.remap b').scan = (r.remap b').scanRecord := by
  simp only [kWalHdrBytes] at hm
  unfold scan at h ⊢
  dsimp only
  rw [hlen, slice_remap hsame (by omega), slice_remap hsame (by omega)]
  split_ifs at h ⊢
  exact ⟨h, rfl⟩

/-- The payload of a returned record is as long as its header says, and it follows the header. -/
theorem payload_of_scanRecord (h : r.scanRecord = .event ev) :
    (WalHdr.decode (slice r.mapped r.offset kWalHdrBytes)).len.toNat = ev.payload.length ∧
      slice r.mapped (r.offset + kWalHdrBytes) ev.payload.length = ev.payload := by
  unfold scanRecord at h
  dsimp only at h
  split_ifs at h with hepoch hmax hfit hcrc hlsn
  have hle := le_pad8 (WalHdr.decode (slice r.mapped r.offset kWalHdrBytes)).len.toNat
  simp only [recordBytes] at hfit
  have hlength : (WalHdr.decode (slice r.mapped r.offset kWalHdrBytes)).len.toNat =
      ev.payload.length := by rw [← Scan.event.inj h, length_slice (by omega)]
  refine ⟨hlength, ?_⟩
  conv_rhs => rw [← Scan.event.inj h]
  rw [← hlength]

/-- Before the burst the reader finds the records as it did. -/
theorem scan_event_remap (h : r.scan = .event ev) (hlen : b'.length = r.mapped.length)
    (hsame : ∀ i < m, b'[i]? = r.mapped[i]?)
    (hm : r.offset + recordBytes ev.payload.length ≤ m) : (r.remap b').scan = .event ev := by
  have hle := le_pad8 ev.payload.length
  simp only [recordBytes] at hm
  obtain ⟨hrec, hscan⟩ := scan_remap_eq h hlen hsame (by omega)
  have hlength := (payload_of_scanRecord hrec).1
  have hheader : slice b' r.offset kWalHdrBytes = slice r.mapped r.offset kWalHdrBytes :=
    slice_remap hsame (by omega)
  rw [hscan, ← hrec]
  unfold scanRecord
  dsimp only
  rw [hlen, hheader, hlength, slice_remap hsame (by omega)]

/-- Damage in the payload of a record is noticed. -/
theorem scan_burst (h : r.scan = .event ev) (hburst : Burst r.mapped b' (r.offset + kWalHdrBytes)
    (r.offset + kWalHdrBytes + ev.payload.length)) : (r.remap b').scan = .stop .badCrc := by
  have hend := scan_event h
  have hle := le_pad8 ev.payload.length
  simp only [recordBytes] at hend
  have hlen := hburst.length_eq (by omega)
  have hsame := hburst.same (by omega)
  obtain ⟨hrec, hscan⟩ := scan_remap_eq h hlen hsame le_rfl
  have hlength := (payload_of_scanRecord hrec).1
  have hheader : slice b' r.offset kWalHdrBytes = slice r.mapped r.offset kWalHdrBytes :=
    slice_remap hsame le_rfl
  rw [hscan]
  unfold scanRecord at hrec ⊢
  dsimp only at hrec ⊢
  split_ifs at hrec with hepoch hmax hfit hcrc hlsn
  rw [hlen, hheader, if_neg hepoch, if_neg hmax, if_neg hfit, if_pos]
  rw [← not_ne_iff.mp hcrc, hlength]
  exact hburst.crc_ne (by omega) _

/-! ### Runs over another mapping -/

/-- Before it returns a record the reader crosses padding; every mapping that agrees up to the end
of the record's header leads it to the same place. -/
theorem next_arrives (hb : 0 < r.blockSize) (h : r.next = (some ev, r')) :
    ∃ o, o < r.mapped.length ∧ { r with offset := o }.scan = .event ev ∧
      r' = { r with offset := o }.accept ev ∧
      ∀ b' : Bytes, b'.length = r.mapped.length →
        (∀ i < o + kWalHdrBytes, b'[i]? = r.mapped[i]?) →
        (r.remap b').next = ({ r with offset := o }.remap b').next := by
  induction hn : r.mapped.length - r.offset using Nat.strong_induction_on generalizing r with
  | _ n ih =>
    by_cases hlt : r.offset < r.mapped.length
    · cases hs : r.scan with
      | skip p =>
        obtain ⟨hmod, rfl⟩ := scan_skip hs
        have hgt := lt_padToBlock hb hmod
        rw [next_of_skip hb hlt hs] at h
        obtain ⟨o, ho, hscan, hr', hnext⟩ :=
          ih _ (by dsimp only; omega)
            (r := { r with offset := padToBlock r.offset r.blockSize }) hb h
            rfl
        -- the record found is behind the padding that was skipped
        have hle : padToBlock r.offset r.blockSize ≤ o := by
          have hoff := (next_some (r := { r with offset := padToBlock r.offset r.blockSize })
            hb h).1
          rw [hr'] at hoff
          simp only [accept] at hoff
          omega
        refine ⟨o, ho, hscan, hr', fun b' hlen hsame => ?_⟩
        rw [next_of_skip (r := r.remap b') hb (by dsimp only; omega)
          (scan_skip_remap hs hlen hsame (by omega))]
        exact hnext b' hlen hsame
      | stop reason =>
        rw [next_of_stop hlt hs] at h
        exact absurd (congrArg (·.1) h) (by simp)
      | event ev' =>
        rw [next_of_event hlt hs] at h
        obtain ⟨hev, hr'⟩ := Prod.mk.inj h
        obtain rfl := Option.some.inj hev
        exact ⟨r.offset, hlt, hs, hr'.symm, fun _ _ _ => rfl⟩
    · rw [next_of_end (by omega)] at h
      exact absurd (congrArg (·.1) h) (by simp)

/-- A returned record depends on the bytes up to the reader's new offset. -/
theorem next_remap (hb : 0 < r.blockSize) (h : r.next = (some ev, r'))
    (hlen : b'.length = r.mapped.length) (hsame : ∀ i < m, b'[i]? = r.mapped[i]?)
    (hm : r'.offset ≤ m) : (r.remap b').next = (some ev, r'.remap b') := by
  obtain ⟨o, ho, hscan, rfl, hnext⟩ := next_arrives hb h
  have hend : o + recordBytes ev.payload.length ≤ m := hm
  have hheader : o + kWalHdrBytes ≤ m := by
    simp only [recordBytes] at hend
    omega
  rw [hnext b' hlen fun i hi => hsame i (by omega)]
  exact next_of_event (by dsimp only; omega) (scan_event_remap hscan hlen hsame hend)

/-- At a damaged record the reader stops. -/
theorem next_burst (hb : 0 < r.blockSize) (h : r.next = (some ev, r')) {o : ℕ}
    (ho : r'.offset = o + recordBytes ev.payload.length)
    (hburst : Burst r.mapped b' (o + kWalHdrBytes) (o + kWalHdrBytes + ev.payload.length)) :
    ∃ r'', (r.remap b').next = (none, r'') ∧ r''.stopReason = .badCrc := by
  obtain ⟨p, hp, hscan, rfl, hnext⟩ := next_arrives hb h
  obtain rfl : p = o := by
    simp only [accept] at ho
    omega
  have hend := scan_event hscan
  have hle := le_pad8 ev.payload.length
  simp only [recordBytes] at hend
  have hlen := hburst.length_eq (by omega)
  rw [hnext b' hlen (hburst.same (by omega))]
  exact ⟨_, next_of_stop (by dsimp only; omega) (scan_burst hscan hburst), rfl⟩

/-- A run of returned records depends on the bytes up to the reader's last offset. -/
theorem Steps.remap {evs : List LogRecord} (h : Steps r evs r') (hb : 0 < r.blockSize)
    (hlen : b'.length = r.mapped.length) (hsame : ∀ i < m, b'[i]? = r.mapped[i]?)
    (hm : r'.offset ≤ m) :
    Steps (r.remap b') evs (r'.remap b') ∧ r.offset ≤ r'.offset ∧ r'.mapped = r.mapped ∧
      r'.blockSize = r.blockSize := by
  induction h with
  | nil r => exact ⟨.nil _, le_rfl, rfl, rfl⟩
  | cons hn _ ih =>
    obtain ⟨hoff, hmapped, hblock⟩ := next_some hb hn
    obtain ⟨hs, hle, hmapped', hblock'⟩ := ih (hblock ▸ hb) (hmapped ▸ hlen) (hmapped ▸ hsame) hm
    exact ⟨.cons (next_remap hb hn hlen hsame (hle.trans hm)) hs, by omega, hmapped'.trans hmapped,
      hblock'.trans hblock⟩

/-- Records read, with one of them picked out. -/
theorem Steps.split {evs rest : List LogRecord} (h : Steps r (evs ++ ev :: rest) r') :
    ∃ r₁ r₂, Steps r evs r₁ ∧ r₁.next = (some ev, r₂) ∧ Steps r₂ rest r' := by
  induction evs generalizing r with
  | nil =>
    cases h with
    | cons hn hs => exact ⟨r, _, .nil r, hn, hs⟩
  | cons e evs ih =>
    cases h with
    | cons hn hs =>
      obtain ⟨r₁, r₂, hs₁, hn₁, hs₂⟩ := ih hs
      exact ⟨r₁, r₂, .cons hn hs₁, hn₁, hs₂⟩

end Remap

/-- **Short damage is noticed.** Whatever file the reader reads a record from, after a change of at
most four consecutive bytes of its payload the file opens, the records before it are returned, and
at the record the reader stops. -/
theorem stops_at_burst {file file' : Bytes} {expected : ℕ} {r₀ r₁ r₂ : SegmentReader}
    {before : List LogRecord} {e : LogRecord} {o : ℕ}
    (hopen : SegmentReader.open file expected = (.kOk, r₀)) (hbefore : Steps r₀ before r₁)
    (hnext : r₁.next = (some e, r₂)) (ho : r₂.offset = o + recordBytes e.payload.length)
    (hburst : Burst file file' (o + kWalHdrBytes) (o + kWalHdrBytes + e.payload.length)) :
    ∃ r₁', SegmentReader.open file' expected = (.kOk, r₀.remap file') ∧
      Steps (r₀.remap file') before r₁' ∧
      ∃ r₂', r₁'.next = (none, r₂') ∧ r₂'.stopReason = .badCrc := by
  obtain ⟨-, hmapped, hoffset, hb⟩ := open_remap hopen rfl fun _ _ => rfl
  -- the record lies inside the file, after the header region
  obtain ⟨-, hle, hmapped₁, hblock₁⟩ :=
    hbefore.remap hb rfl (m := r₁.offset) (fun _ _ => rfl) le_rfl
  have hb₁ : 0 < r₁.blockSize := hblock₁ ▸ hb
  obtain ⟨hnext_le, -, -⟩ := next_some hb₁ hnext
  obtain ⟨p, hp, hscan, hr₂, -⟩ := next_arrives hb₁ hnext
  have hend := scan_event hscan
  have hpay := le_pad8 e.payload.length
  rw [hr₂] at ho hnext_le
  simp only [accept, recordBytes] at ho hend hnext_le
  obtain rfl : p = o := by omega
  rw [hmapped₁, hmapped] at hend
  have hlen := hburst.length_eq (by omega)
  have hsame := hburst.same (by omega)
  refine ⟨r₁.remap file', ?_, ?_, ?_⟩
  · exact (open_remap hopen hlen fun i hi => hsame i (by omega)).1
  · exact (hbefore.remap hb (hmapped ▸ hlen) (hmapped ▸ hsame) (by omega)).1
  · exact next_burst hb₁ hnext (by rw [hr₂]; rfl) (by rw [hmapped₁, hmapped]; exact hburst)

end SegmentReader

/-- The reader over a file comes to the offset where a writer began, after some older records. -/
structure ComesTo (file : Bytes) (opts : WalOptions) (seg : Segment) (segOffset lastLsn : ℕ)
    (r₀ : SegmentReader) (old : List LogRecord) (r : SegmentReader) : Prop where
  opened : SegmentReader.open file 0 = (.kOk, r₀)
  steps : SegmentReader.Steps r₀ old r
  boundary : SegmentReader.AtBoundary r segOffset
  blockSize : r.blockSize = effectiveBlock opts.blockSize.toNat
  epoch : r.epoch = seg.epoch
  expected : r.expectedLsn = lastLsn + 1
  length : file.length ≤ kMaxOff
  lsn : 32 * lastLsn ≤ segOffset
  offset : segOffset < 2 ^ 64

/-- The reader over a created segment is at its first group at once. -/
theorem comesTo_created (sc : Script) (opts : WalOptions) (drawn : UInt32)
    (ops : List WalOp) {z : ℕ}
    (hz : kSegmentHdrBytes + z ≤ kMaxOff) (keep : ℕ → ℕ → Bool) :
    let file := createdFile opts drawn z keep
      (((WalT.fresh sc).openCreate opts drawn).1.exec ops).1
    let r₀ := SegmentReader.start file (opts.hdr (WalT.epochNext drawn))
    ComesTo file opts (.ofHdr (opts.hdr (WalT.epochNext drawn))) kSegmentHdrBytes 0 r₀ [] r₀ := by
  intro file r₀
  obtain ⟨groups, cur, h⟩ := Created.exec sc opts drawn ops
  exact
    { opened := h.open_eq
      steps := .nil _
      boundary := atBoundary_start _ _
      blockSize := opts.blockSize_hdr _
      epoch := rfl
      expected := rfl
      length := Created.length_file opts drawn keep _ hz
      lsn := by decide
      offset := by decide }

/-- **Short damage to a written record is noticed.** For every run of calls on a writer, which began
where the reader comes to, and every backend: whenever the first `k` writes landed, each record up
to the last of them stands somewhere in the file, and after every change of at most four consecutive
bytes of its payload the reader returns the records before it and stops there with a bad
checksum. -/
theorem stops_with_badCrc (sc : Script) (opts : WalOptions) (seg : Segment) (segOffset lastLsn : ℕ)
    (ops : List WalOp) {file : Bytes} {r₀ r : SegmentReader} {old : List LogRecord}
    (hfile : ComesTo file opts seg segOffset lastLsn r₀ old r) {k : ℕ}
    (hint : ∀ q ∈ (((WalT.fresh sc).ready opts seg segOffset lastLsn).exec
      ops).1.backend.accepted.take k,
      Intact file q) {before after : List LogRecord} {e : LogRecord}
    (hsplit : old ++ (((WalT.fresh sc).ready opts seg segOffset lastLsn).exec ops).2.filter
        (fun x => decide (x.lsn ≤ lastToken ((((WalT.fresh sc).ready opts seg segOffset
          lastLsn).exec ops).1.backend.accepted.take k) lastLsn)) = before ++ e :: after) :
    ∃ o r₁ r₂, SegmentReader.Steps r₀ before r₁ ∧ r₁.next = (some e, r₂) ∧
      r₂.offset = o + recordBytes e.payload.length ∧
      slice file (o + kWalHdrBytes) e.payload.length = e.payload ∧
      ∀ file', Burst file file' (o + kWalHdrBytes) (o + kWalHdrBytes + e.payload.length) →
        ∃ r₁', SegmentReader.open file' 0 = (.kOk, { r₀ with mapped := file' }) ∧
          SegmentReader.Steps { r₀ with mapped := file' } before r₁' ∧
          ∃ r₂', r₁'.next = (none, r₂') ∧ r₂'.stopReason = .badCrc := by
  obtain ⟨groups, cur, h⟩ := Content.exec sc opts seg segOffset lastLsn ops
  have hmapped : r.mapped = file := by
    obtain ⟨-, hm, -, hb⟩ := SegmentReader.open_remap hfile.opened rfl fun _ _ => rfl
    exact (hfile.steps.remap hb rfl (m := r.offset) (fun _ _ => rfl) le_rfl).2.2.1.trans hm
  -- the records of the first writes are read back one after the other
  obtain ⟨r', hsteps, -⟩ :=
    h.steps_take hfile.boundary hfile.blockSize (.effectiveBlock _) hfile.epoch
    hfile.expected (hmapped ▸ hfile.length) hfile.lsn hfile.offset (hmapped.symm ▸ hint)
  rw [h.filter_take k] at hsplit
  have hall := hfile.steps.append hsteps
  rw [hsplit] at hall
  -- up to the record that the burst hits
  obtain ⟨r₁, r₂, hbefore, hnext, -⟩ := hall.split
  obtain ⟨-, hm, -, hb⟩ := SegmentReader.open_remap hfile.opened rfl fun _ _ => rfl
  obtain ⟨-, -, hmapped₁, hblock₁⟩ :=
    hbefore.remap hb rfl (m := r₁.offset) (fun _ _ => rfl) le_rfl
  have hb₁ : 0 < r₁.blockSize := hblock₁ ▸ hb
  obtain ⟨o, -, hscan, hr₂, -⟩ := SegmentReader.next_arrives hb₁ hnext
  have ho : r₂.offset = o + recordBytes e.payload.length := by rw [hr₂]; rfl
  have hpayload := (SegmentReader.payload_of_scanRecord (SegmentReader.scan_remap_eq hscan rfl
    (fun _ _ => rfl) le_rfl).1).2
  dsimp only at hpayload
  rw [hmapped₁, hm] at hpayload
  exact ⟨o, r₁, r₂, hbefore, hnext, ho, hpayload, fun file' hburst =>
    SegmentReader.stops_at_burst hfile.opened hbefore hnext ho hburst⟩

/-- Three records in two groups; the payload of the second is changed, and the first is still
read. -/
theorem stops_with_badCrc_second :
    let sc : Script := ⟨fun _ => .kOk, fun _ => []⟩
    let opts : WalOptions := ⟨0, 0, 0, 512⟩
    let ops : List WalOp := [.append 3 [1, 2, 3, 4, 5] 9, .append 4 [6] 9, .maybeSubmit 9,
      .append 3 [7, 8] 10, .maybeSubmit 10]
    let file := createdFile opts 7 8 (fun _ _ => true)
      (((WalT.fresh sc).openCreate opts 7).1.exec ops).1
    ∃ o r r₁ r', SegmentReader.open (writeAt file o [9]) 0 = (.kOk, r) ∧
      SegmentReader.Steps r [⟨1, 9, 3, [1, 2, 3, 4, 5]⟩] r₁ ∧ r₁.next = (none, r') ∧
      r'.stopReason = .badCrc := by
  intro sc opts ops file
  have hint := intact_of_landed sc opts 7 ops 8 (by decide +kernel)
  obtain ⟨o, r₁, r₂, -, -, -, hpayload, hall⟩ := @stops_with_badCrc sc opts _ _ _ ops _ _ _ _
    (comesTo_created sc opts 7 ops (z := 8) (by decide) fun _ _ => true) 2
    (fun q hq => hint q (List.mem_of_mem_take hq)) [⟨1, 9, 3, [1, 2, 3, 4, 5]⟩] [⟨3, 10, 3, [7, 8]⟩]
    ⟨2, 9, 4, [6]⟩ (by decide +kernel)
  have hold : slice file (o + kWalHdrBytes) 1 = [6] := hpayload
  obtain ⟨r₁', hopen, hsteps, r₂', hnext, hstop⟩ := hall (writeAt file (o + kWalHdrBytes) [9])
    ⟨o + kWalHdrBytes, [9],
      le_rfl, by simp, by simp, by rw [List.length_singleton, hold]; decide, rfl⟩
  exact ⟨_, _, r₁', r₂', hopen, hsteps, hnext, hstop⟩

end MotorRv
