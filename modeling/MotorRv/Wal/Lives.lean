import MotorRv.Wal.CrashRecovery

/-!
# The lives of a segment

A segment that was recovered is opened again at the tail that recovery found, and written on.
`Lives` says what the file may be after any number of such lives, each ended by a crash, and which
records were durable in one of them. Where every recovery came to the boundary its tail names
(`Settled`), no later one loses such a record: the bytes before the boundary are never written
again, and the reader crosses what pads them.

The first half compares two readers, over a file and over what a later life made of it
(`WrittenOn`): the bytes up to the boundary are the same, so the records before it are returned
again, and a reader that came to the boundary crosses to it again (`Settled.next_writtenOn`). One
more life is then the result on a single segment, started at the boundary instead of the header
(`Content.resumed`), and `Lives.lived` is the induction over the lives, whose invariant is
`LivedSegment`.

`Settled` is not automatic. Where the reader stopped inside a block at a record that it refuses, the
log is opened at the next block, and a later reader stops at the same torn record and never comes to
what was written behind it; `lost_behind_torn` states this loss. It is the other case of the same
analysis (`Torn.readAll_writtenOn`).
-/

namespace MotorRv

open Lib
open SegmentReader (Numbered Steps Reads AtBoundary)

/-! ### A file that is written on -/

/-- The file is written on from `cut`: what stands before stays. -/
structure WrittenOn (cut : ℕ) (b b' : Bytes) : Prop where
  length_le : b.length ≤ b'.length
  same : ∀ i < cut, b'.getD i 0 = b.getD i 0

/-- What was written before the cut is there still. -/
theorem WrittenOn.slice_eq {cut : ℕ} {b b' : Bytes} (h : WrittenOn cut b b') {o n : ℕ}
    (hcut : o + n ≤ cut) (hlen : o + n ≤ b.length) : slice b' o n = slice b o n := by
  refine slice_congr fun i _ hi => ?_
  have hsame := h.same i (by omega)
  have hle := h.length_le
  rw [List.getD_eq_getElem?_getD, List.getD_eq_getElem?_getD,
    List.getElem?_eq_getElem (show i < b'.length by omega),
    List.getElem?_eq_getElem (show i < b.length by omega)] at hsame
  rw [List.getElem?_eq_getElem (show i < b'.length by omega),
    List.getElem?_eq_getElem (show i < b.length by omega)]
  exact congrArg some hsame

namespace SegmentReader

section WrittenOn

variable {r r' rm : SegmentReader} {ev : LogRecord} {evs : List LogRecord} {b' : Bytes} {cut : ℕ}

/-- A record before the place is found again. -/
theorem scan_event_writtenOn (h : WrittenOn cut r.mapped b') (hs : r.scan = .event ev)
    (hcut : r.offset + recordBytes ev.payload.length ≤ cut) : (r.remap b').scan = .event ev := by
  have hfit := scan_event hs
  have hlen := h.length_le
  have hle : kWalHdrBytes ≤ recordBytes ev.payload.length := Nat.le_add_right _ _
  have hhdr : slice b' r.offset kWalHdrBytes = slice r.mapped r.offset kWalHdrBytes :=
    h.slice_eq (by omega) (by omega)
  simp only [kWalHdrBytes] at hle
  have hword : slice b' r.offset 8 = slice r.mapped r.offset 8 := h.slice_eq (by omega) (by omega)
  have hmagic : slice b' r.offset 4 = slice r.mapped r.offset 4 := h.slice_eq (by omega) (by omega)
  rw [scan] at hs ⊢
  split_ifs at hs with h1 h2 h3 h4 h5
  rw [scanRecord] at hs ⊢
  dsimp only [remap] at hs ⊢
  split_ifs at hs with h6 h7 h8 h9 h10
  have hev := Scan.event.inj hs
  have hbytes : (slice r.mapped (r.offset + kWalHdrBytes)
      (WalHdr.decode (slice r.mapped r.offset kWalHdrBytes)).len.toNat).length =
        (WalHdr.decode (slice r.mapped r.offset kWalHdrBytes)).len.toNat := by
    have hpad := le_pad8 (WalHdr.decode (slice r.mapped r.offset kWalHdrBytes)).len.toNat
    simp only [recordBytes] at h8
    exact length_slice (by omega)
  -- the record ends before the cut, so all that is read of it is the same
  have hcut : r.offset + kWalHdrBytes +
      (WalHdr.decode (slice r.mapped r.offset kWalHdrBytes)).len.toNat ≤ cut := by
    have hpad := le_pad8 ev.payload.length
    have hlen' : ev.payload.length =
        (WalHdr.decode (slice r.mapped r.offset kWalHdrBytes)).len.toNat := by
      rw [← hev]
      exact hbytes
    simp only [recordBytes] at hcut
    omega
  have hpay := h.slice_eq hcut (by
    have hpad := le_pad8 (WalHdr.decode (slice r.mapped r.offset kWalHdrBytes)).len.toNat
    simp only [recordBytes] at h8
    omega)
  simp only [hhdr, hword, hmagic, hpay]
  rw [if_neg (by omega), if_neg h2, if_neg h4, if_neg h6, if_neg h7, if_neg (by omega), if_neg h9,
    if_neg h10, hev]

/-- A place that is skipped before the boundary is skipped again. -/
theorem scan_skip_writtenOn (h : WrittenOn cut r.mapped b') {o : ℕ} (hs : r.scan = .skip o)
    (hcut : r.offset + 8 ≤ cut) : (r.remap b').scan = .skip o := by
  have hlen := h.length_le
  obtain ⟨hmod, rfl⟩ := scan_skip hs
  rw [scan] at hs ⊢
  dsimp only [remap]
  by_cases h1 : r.mapped.length - r.offset < kWalHdrBytes
  · rw [if_pos h1] at hs
    cases hs
  rw [if_neg h1] at hs
  simp only [kWalHdrBytes] at h1
  have hword : slice b' r.offset 8 = slice r.mapped r.offset 8 := h.slice_eq hcut (by omega)
  have hmagic : slice b' r.offset 4 = slice r.mapped r.offset 4 := h.slice_eq (by omega) (by omega)
  simp only [hword, hmagic, kWalHdrBytes]
  rw [if_neg (by omega)]
  by_cases h2 : ofLe (slice r.mapped r.offset 8) = 0
  · rw [if_pos h2]
    exact if_neg hmod
  rw [if_neg h2] at hs ⊢
  by_cases h3 : decU32 (slice r.mapped r.offset 4) ≠ kWalMagic
  · rw [if_pos h3]
    exact if_pos hmod
  · rw [if_neg h3, scanRecord] at hs
    split_ifs at hs

/-- `next` looks where the reader is, or at the boundary after it. -/
theorem exists_next (hb : 0 < r.blockSize) : ∃ o,
    (o = r.offset ∨ r.offset < r.mapped.length ∧ r.scan = .skip o) ∧
      r.next = { r with offset := o }.next ∧
      ∀ p, o < r.mapped.length → { r with offset := o }.scan ≠ .skip p := by
  rcases Nat.lt_or_ge r.offset r.mapped.length with hlt | hge
  · cases hs : r.scan with
    | skip o =>
      refine ⟨o, .inr ⟨hlt, rfl⟩, next_of_skip hb hlt hs, fun p _ hp => ?_⟩
      have hmod : o % r.blockSize ≠ 0 := (scan_skip hp).1
      obtain ⟨-, rfl⟩ := scan_skip hs
      exact hmod (Nat.mod_eq_zero_of_dvd (padToBlock_dvd _ _))
    | stop reason =>
      exact ⟨r.offset, .inl rfl, rfl, fun p _ hp => Scan.noConfusion (hs.symm.trans hp)⟩
    | event ev =>
      exact ⟨r.offset, .inl rfl, rfl, fun p _ hp => Scan.noConfusion (hs.symm.trans hp)⟩
  · exact ⟨r.offset, .inl rfl, rfl, fun p hlt => absurd hlt (not_lt.mpr hge)⟩

/-- A record that ends before the place is returned again. -/
theorem next_writtenOn (h : WrittenOn cut r.mapped b') (hb : BlockOk r.blockSize)
    (h8 : 8 ∣ r.offset)
    (hn : r.next = (some ev, r')) (hcut : r'.offset ≤ cut) :
    (r.remap b').next = (some ev, r'.remap b') := by
  have hlen := h.length_le
  obtain ⟨o, hat, hnext, hskip⟩ := exists_next (r := r) hb.zero_lt
  rw [hnext] at hn
  -- at the place where it looks there is a record
  obtain ⟨hlt, hs, rfl⟩ : o < r.mapped.length ∧ { r with offset := o }.scan = .event ev ∧
      r' = { r with offset := o }.accept ev := by
    rcases Nat.lt_or_ge o r.mapped.length with hlt | hge
    · cases hs : ({ r with offset := o } : SegmentReader).scan with
      | skip p => exact absurd hs (hskip p hlt)
      | stop reason =>
        rw [next_of_stop (r := { r with offset := o }) hlt hs] at hn
        cases hn
      | event ev' =>
        rw [next_of_event (r := { r with offset := o }) hlt hs] at hn
        obtain ⟨hev, rfl⟩ := Prod.mk.inj hn
        obtain rfl := Option.some.inj hev
        exact ⟨hlt, rfl, rfl⟩
    · rw [next_of_end (r := { r with offset := o }) hge] at hn
      cases hn
  change o + recordBytes ev.payload.length ≤ cut at hcut
  have hs' := scan_event_writtenOn (r := { r with offset := o }) h hs hcut
  have hnext' : (r.remap b').next = (({ r with offset := o } : SegmentReader).remap b').next := by
    obtain rfl | ⟨-, hsk⟩ := hat
    · rfl
    · obtain ⟨hmod, rfl⟩ := scan_skip hsk
      have hgt := lt_padToBlock hb.zero_lt hmod
      have h8' : 8 ∣ padToBlock r.offset r.blockSize := hb.dvd8.trans (padToBlock_dvd _ _)
      exact next_of_skip (r := r.remap b') hb.zero_lt (by dsimp only [remap]; omega)
        (scan_skip_writtenOn h hsk (by omega))
  rw [hnext', next_of_event (r := ({ r with offset := o } : SegmentReader).remap b')
    (by dsimp only [remap]; omega) hs']
  rfl

/-- The reader resumes at the boundary after the last record. -/
structure Anchored (r : SegmentReader) : Prop where
  block : BlockOk r.blockSize
  aligned : 8 ∣ r.offset
  resume : r.resumeOffset = padToBlock r.offset r.blockSize

/-- A reader begins anchored at its header. -/
theorem anchored_start (b : Bytes) (h : SegmentHdr) : (start b h).Anchored where
  block := .effectiveBlock _
  aligned := show 8 ∣ kSegmentHdrBytes by decide
  resume :=
    (padToBlock_of_dvd (BlockOk.effectiveBlock _).zero_lt (BlockOk.effectiveBlock _).dvdHdr).symm

/-- A record moves the reader on, and leaves it anchored. -/
theorem Anchored.next (h : r.Anchored) (hn : r.next = (some ev, r')) :
    r'.Anchored ∧ r'.mapped = r.mapped ∧ r'.blockSize = r.blockSize ∧ r'.epoch = r.epoch ∧
      r'.firstLsn = r.firstLsn ∧ r.offset + 32 ≤ r'.offset ∧ r'.offset ≤ r.mapped.length ∧
      (r.expectedLsn ≠ 0 → ev.lsn = r.expectedLsn) ∧ r'.expectedLsn = (ev.lsn + 1) % 2 ^ 64 := by
  obtain ⟨o, reason, -, -, hnext⟩ | ⟨o, ev', ho, hbd, -, hscan, hnext⟩ := next_cases h.block.zero_lt
  · cases hn.symm.trans hnext
  · obtain ⟨hev, rfl⟩ := Prod.mk.inj (hn.symm.trans hnext)
    obtain rfl := Option.some.inj hev
    have h8 : 8 ∣ o := by
      obtain rfl | hbd := hbd
      · exact h.aligned
      · exact h.block.dvd8.trans hbd
    refine ⟨⟨h.block, h8.add (dvd_recordBytes _), rfl⟩, rfl, rfl, rfl, rfl, ?_, scan_event hscan,
      (recordAt_of_event hscan).2, rfl⟩
    change r.offset + 32 ≤ o + (kWalHdrBytes + _)
    simp only [kWalHdrBytes]
    omega

/-- What successful calls keep, and where they end. -/
theorem Steps.anchored (hs : Steps r evs rm) : r.Anchored →
    rm.Anchored ∧ rm.mapped = r.mapped ∧ rm.blockSize = r.blockSize ∧ rm.epoch = r.epoch ∧
      rm.firstLsn = r.firstLsn ∧ r.offset + 32 * evs.length ≤ rm.offset ∧
      rm.offset ≤ max r.offset r.mapped.length := by
  induction hs with
  | nil r => exact fun h => ⟨h, rfl, rfl, rfl, rfl, le_rfl, le_max_left _ _⟩
  | @cons r r₁ rm ev evs hn _ ih =>
    intro h
    obtain ⟨h₁, hm, hbl, hep, hf, hoff, hin, -, -⟩ := h.next hn
    obtain ⟨h', hm', hbl', hep', hf', hoff', hin'⟩ := ih h₁
    refine ⟨h', hm'.trans hm, hbl'.trans hbl, hep'.trans hep, hf'.trans hf, ?_, ?_⟩
    · rw [List.length_cons]
      omega
    · rw [hm] at hin'
      omega

/-- The records returned are numbered from the LSN expected on. -/
theorem Steps.counts (hs : Steps r evs rm) : r.Anchored → r.expectedLsn ≠ 0 →
    r.expectedLsn + evs.length < 2 ^ 64 →
      Numbered r.expectedLsn evs ∧ rm.expectedLsn = r.expectedLsn + evs.length := by
  induction hs with
  | nil r => exact fun _ _ _ => ⟨trivial, rfl⟩
  | @cons r r₁ rm ev evs hn _ ih =>
    intro h hne hlt
    obtain ⟨h₁, -, -, -, -, -, -, hlsn, hexp⟩ := h.next hn
    rw [List.length_cons] at hlt ⊢
    have hlsn := hlsn hne
    have hexp : r₁.expectedLsn = r.expectedLsn + 1 := by
      rw [hexp, hlsn]
      exact Nat.mod_eq_of_lt (by omega)
    obtain ⟨hnum, hlast⟩ := ih h₁ (by omega) (by omega)
    exact ⟨⟨hlsn, hexp ▸ hnum⟩, by omega⟩

/-- Records that end before the place are returned again. -/
theorem Steps.writtenOn (hs : Steps r evs rm) : r.Anchored → WrittenOn cut r.mapped b' →
    rm.offset ≤ cut → Steps (r.remap b') evs (rm.remap b') := by
  induction hs with
  | nil r => exact fun _ _ _ => .nil _
  | @cons r r₁ rm ev evs hn hrest ih =>
    intro h hw hcut
    obtain ⟨h₁, hm, -⟩ := h.next hn
    obtain ⟨-, -, -, -, -, hoff, -⟩ := hrest.anchored h₁
    exact .cons (next_writtenOn hw h.block h.aligned hn (by omega)) (ih h₁ (hm ▸ hw) hcut)

/-- The reader came to the boundary it resumes at, or found nothing more to the end. -/
def Settled (r : SegmentReader) : Prop := r.stopReason = .clean ∨ r.offset = r.resumeOffset

/-- Inside a block a reader stops cleanly only before zeros. -/
theorem zeros_of_scan_clean (hmod : r.offset % r.blockSize ≠ 0) (hs : r.scan = .stop .clean) :
    ∀ x ∈ r.mapped.drop r.offset, x = 0 := by
  rw [scan] at hs
  by_cases h1 : r.mapped.length - r.offset < kWalHdrBytes
  · rw [if_pos h1] at hs
    by_cases hall : (r.mapped.drop r.offset).all (· = 0) = true
    · exact fun x hx => of_decide_eq_true (List.all_eq_true.mp hall x hx)
    · rw [if_neg hall] at hs
      cases hs
  · rw [if_neg h1, if_neg hmod, if_pos hmod, scanRecord] at hs
    split_ifs at hs
    all_goals cases hs

/-- A call that returns no record leaves the place to resume at. -/
theorem Anchored.resume_of_none (h : r.Anchored) (hn : r.next = (none, r')) :
    r'.resumeOffset = padToBlock r.offset r.blockSize := by
  obtain ⟨o, reason, -, -, hnone⟩ | ⟨o, ev, -, -, -, -, hsome⟩ := next_cases h.block.zero_lt
  · obtain ⟨-, rfl⟩ := Prod.mk.inj (hn.symm.trans hnone)
    exact h.resume
  · cases hn.symm.trans hsome

/-- A reader that settled crosses to the boundary when the file is written on from there. -/
theorem Settled.next_writtenOn (hset : r'.Settled) (h : r.Anchored) (hn : r.next = (none, r'))
    (hw : WrittenOn r'.resumeOffset r.mapped b')
    (hroom : r'.resumeOffset + kWalHdrBytes ≤ b'.length) :
    (r.remap b').next = { r.remap b' with offset := r'.resumeOffset }.next := by
  have hb := h.block.zero_lt
  have hlen := hw.length_le
  rw [h.resume_of_none hn] at hw hroom ⊢
  obtain ⟨o, hat, hnext, hskip⟩ := exists_next (r := r) hb
  rw [hnext] at hn
  by_cases hmod : r.offset % r.blockSize = 0
  · rw [padToBlock_of_dvd hb (Nat.dvd_of_mod_eq_zero hmod)]
  have hgt := lt_padToBlock hb hmod
  have h8 : 8 ∣ padToBlock r.offset r.blockSize := h.block.dvd8.trans (padToBlock_dvd _ _)
  have haligned := h.aligned
  obtain rfl | ⟨hlt, hs⟩ := hat
  · -- it stopped inside the block, so there are only zeros
    have hzeros : ∀ x ∈ r.mapped.drop r.offset, x = 0 := by
      rcases Nat.lt_or_ge r.offset r.mapped.length with hlt | hge
      · cases hs : r.scan with
        | skip p => exact absurd hs (hskip p hlt)
        | event ev => cases hn.symm.trans (next_of_event hlt hs)
        | stop reason =>
          obtain ⟨-, rfl⟩ := Prod.mk.inj (hn.symm.trans (next_of_stop hlt hs))
          obtain hclean | hoff := hset
          · obtain rfl : reason = .clean := hclean
            exact zeros_of_scan_clean hmod hs
          · change r.offset = r.resumeOffset at hoff
            rw [h.resume] at hoff
            omega
      · rw [List.drop_eq_nil_of_le hge]
        exact fun x hx => absurd hx List.not_mem_nil
    have hpad : HoldsAt b' r.offset (List.replicate 8 0) := by
      simp only [kWalHdrBytes] at hroom
      rw [holdsAt_iff_getD (by rw [List.length_replicate]; omega)]
      intro i hi
      rw [List.length_replicate] at hi
      rw [hw.same (r.offset + i) (by omega), List.getD_replicate _ hi]
      rcases Nat.lt_or_ge (r.offset + i) r.mapped.length with hin | hout
      · refine hzeros _ ?_
        rw [List.getD_eq_getElem?_getD, List.getElem?_eq_getElem hin, Option.getD_some]
        exact List.mem_drop_iff_getElem.mpr ⟨i, by omega, rfl⟩
      · rw [List.getD_eq_getElem?_getD, List.getElem?_eq_none hout, Option.getD_none]
    exact next_pad (r := r.remap b') hb hmod hpad (by dsimp only [remap]; omega)
  · obtain ⟨-, rfl⟩ := scan_skip hs
    exact next_of_skip (r := r.remap b') hb (by dsimp only [remap]; omega)
      (scan_skip_writtenOn hw hs (by omega))

/-- The reader stopped inside a block, at a record that it refused. -/
def Torn (r : SegmentReader) : Prop :=
  r.offset % r.blockSize ≠ 0 ∧ decU32 (slice r.mapped r.offset 4) = kWalMagic

instance (r : SegmentReader) : Decidable r.Torn :=
  inferInstanceAs (Decidable (r.offset % r.blockSize ≠ 0 ∧
    decU32 (slice r.mapped r.offset 4) = kWalMagic))

/-- A reader that stopped at a torn record stops there again when the file is written on behind the
block, unless a record matches there now. -/
theorem Torn.next_writtenOn (htorn : r'.Torn) (h : r.Anchored) (hn : r.next = (none, r'))
    (hw : WrittenOn r'.resumeOffset r.mapped b') (hcrc : recordAt r.epoch b' r'.offset = none) :
    ∃ reason, (r.remap b').next = (none, { r.remap b' with stopReason := reason }) := by
  obtain ⟨hmod, hmagic⟩ := htorn
  obtain ⟨o, reason, -, hat, hnone⟩ | ⟨o, ev, -, -, -, -, hsome⟩ := next_cases h.block.zero_lt
  swap
  · cases hn.symm.trans hsome
  obtain ⟨-, rfl⟩ := Prod.mk.inj (hn.symm.trans hnone)
  obtain rfl : o = r.offset := hat.resolve_right fun hdvd => hmod (Nat.mod_eq_zero_of_dvd hdvd)
  change r.offset % r.blockSize ≠ 0 at hmod
  change decU32 (slice r.mapped r.offset 4) = kWalMagic at hmagic
  have hgt := lt_padToBlock h.block.zero_lt hmod
  have h8 : 8 ∣ padToBlock r.offset r.blockSize := h.block.dvd8.trans (padToBlock_dvd _ _)
  have haligned := h.aligned
  change WrittenOn r.resumeOffset _ _ at hw
  rw [h.resume] at hw
  -- four bytes of a magic are there
  have hin : r.offset + 4 ≤ r.mapped.length := by
    by_contra hshort
    have hlt := ofLe_lt (slice r.mapped r.offset 4)
    have hlen : (slice r.mapped r.offset 4).length ≤ 3 := by
      rw [slice, List.length_take, List.length_drop]
      omega
    have hpow : 256 ^ (slice r.mapped r.offset 4).length ≤ 16777216 :=
      Nat.pow_le_pow_right (by decide) hlen
    have hnat := congrArg UInt32.toNat hmagic
    rw [decU32, UInt32.toNat_ofNat_of_lt' (by simp only [UInt32.size]; omega)] at hnat
    have : kWalMagic.toNat = 0x31575652 := rfl
    omega
  have hle := hw.length_le
  have hmagic' : decU32 (slice b' r.offset 4) = kWalMagic := by
    rw [hw.slice_eq (by omega) hin]
    exact hmagic
  cases hs : (r.remap b').scan with
  | stop reason' =>
    exact ⟨reason', next_of_stop (r := r.remap b') (by dsimp only [remap]; omega) hs⟩
  | event ev =>
    cases hcrc.symm.trans (recordAt_of_event hs).1
  | skip p =>
    -- the eight bytes are not zero, because four of them are not
    have hword : ofLe (slice b' r.offset 8) ≠ 0 := by
      intro hzero
      have hcut : slice b' r.offset 8 = slice b' r.offset 4 ++ slice b' (r.offset + 4) 4 := by
        rw [slice, slice, slice, ← List.drop_drop, ← List.take_add]
      rw [hcut, ofLe_append] at hzero
      have hfour : ofLe (slice b' r.offset 4) = 0 := by omega
      rw [decU32, hfour] at hmagic'
      exact absurd hmagic' (by decide)
    rw [scan] at hs
    by_cases hend : (r.remap b').mapped.length - (r.remap b').offset < kWalHdrBytes
    · rw [if_pos hend] at hs
      cases hs
    · change decU32 (slice (r.remap b').mapped (r.remap b').offset 4) = kWalMagic at hmagic'
      change ofLe (slice (r.remap b').mapped (r.remap b').offset 8) ≠ 0 at hword
      rw [if_neg hend, if_neg hword, if_neg (not_not.mpr hmagic'), scanRecord] at hs
      split_ifs at hs

/-- Behind a torn record nothing is read, whatever is written behind its block. -/
theorem Torn.readAll_writtenOn (hr : r.Anchored) (htorn : r.readAll.2.Torn)
    (hw : WrittenOn r.readAll.2.resumeOffset r.mapped b')
    (hcrc : recordAt r.epoch b' r.readAll.2.offset = none) :
    (r.remap b').readAll.1 = r.readAll.1 ∧
      (r.remap b').readAll.2.resumeOffset = r.readAll.2.resumeOffset := by
  obtain ⟨rm, hs, hn⟩ := reads_readAll hr.block.zero_lt
  obtain ⟨hrm, hm, -, hep, -⟩ := hs.anchored hr
  have hresume := hrm.resume_of_none hn
  obtain ⟨reason, hnext⟩ := htorn.next_writtenOn hrm hn (hm ▸ hw) (hep ▸ hcrc)
  have hs' := hs.writtenOn hr hw (hresume ▸ le_padToBlock hrm.block.zero_lt _)
  have hread : Reads (r.remap b') r.readAll.1 { rm.remap b' with stopReason := reason } :=
    ⟨rm.remap b', hs', hnext⟩
  have hb : 0 < (r.remap b').blockSize := hr.block.zero_lt
  rw [hread.readAll_eq hb]
  exact ⟨rfl, hrm.resume.trans hresume.symm⟩

/-- Successful calls return a beginning of what is read. -/
theorem Steps.isPrefix (hs : Steps r evs rm) (hb : 0 < r.blockSize) (hb' : 0 < rm.blockSize) :
    evs <+: r.readAll.1 := by
  rw [((reads_readAll hb).unique (hs.reads (reads_readAll hb'))).1]
  exact List.prefix_append _ _

end WrittenOn

/-! ### A reader behind other bytes -/

section Behind

variable {r : SegmentReader}

/-- The reader with `hd` before its mapping. -/
def behind (hd : Bytes) (r : SegmentReader) : SegmentReader :=
  { r with
    mapped := hd ++ r.mapped
    offset := hd.length + r.offset
    resumeOffset := hd.length + r.resumeOffset }

/-- A record is recognised wherever the file begins. -/
theorem scanRecord_behind (hd : Bytes) (r : SegmentReader) :
    (r.behind hd).scanRecord = r.scanRecord := by
  rw [scanRecord, scanRecord]
  simp only [behind, Nat.add_assoc, slice_behind, List.length_append, Nat.add_lt_add_iff_left]

/-- A turn behind whole blocks decides what the turn without them decides. -/
theorem scan_behind (hb : 0 < r.blockSize) {hd : Bytes} (hdvd : r.blockSize ∣ hd.length) :
    (r.behind hd).scan =
      match r.scan with
      | .skip o => .skip (hd.length + o)
      | s => s := by
  have hmod : (hd.length + r.offset) % r.blockSize = r.offset % r.blockSize := by
    rw [Nat.add_mod, Nat.mod_eq_zero_of_dvd hdvd, Nat.zero_add, Nat.mod_mod]
  have hrecord := scanRecord_behind hd r
  rw [scan, scan, hrecord]
  simp only [behind, slice_behind, drop_behind, List.length_append, Nat.add_sub_add_left, hmod,
    padToBlock_add hb hdvd]
  have hnever : ∀ o, r.scanRecord ≠ .skip o := by
    intro o
    rw [scanRecord]
    split_ifs <;> simp
  split_ifs <;> try rfl
  cases hs : r.scanRecord with
  | skip o => exact absurd hs (hnever o)
  | stop reason => rfl
  | event ev => rfl

/-- The reader accepts a record at the shifted offset. -/
theorem accept_behind (hb : 0 < r.blockSize) {hd : Bytes} (hdvd : r.blockSize ∣ hd.length)
    (ev : LogRecord) : (r.behind hd).accept ev = (r.accept ev).behind hd := by
  rw [accept, accept]
  simp only [behind, Nat.add_assoc, padToBlock_add hb hdvd]

/-- Skipping works alike behind whole blocks. -/
theorem loop_behind {hd : Bytes} (n : ℕ) : ∀ {r : SegmentReader}, 0 < r.blockSize →
    r.blockSize ∣ hd.length → loop n (r.behind hd) = ((loop n r).1, (loop n r).2.behind hd) := by
  induction n with
  | zero => exact fun _ _ => rfl
  | succ n ih =>
    intro r hb hdvd
    have hlt : (r.behind hd).offset < (r.behind hd).mapped.length ↔ r.offset < r.mapped.length := by
      simp only [behind, List.length_append, Nat.add_lt_add_iff_left]
    rw [loop, loop, scan_behind hb hdvd]
    simp only [hlt]
    split_ifs
    · cases r.scan with
      | skip o => exact ih (r := { r with offset := o }) hb hdvd
      | stop reason => rfl
      | event ev => exact Prod.ext rfl (accept_behind hb hdvd ev)
    · rfl

/-- The reader behind whole blocks returns the same record. -/
theorem next_behind (hb : 0 < r.blockSize) {hd : Bytes} (hdvd : r.blockSize ∣ hd.length) :
    (r.behind hd).next = (r.next.1, r.next.2.behind hd) := by
  rw [next, next, ← loop_behind _ hb hdvd]
  simp only [behind, List.length_append, Nat.add_sub_add_left]

/-- By induction on the records. -/
theorem readUpTo_behind {hd : Bytes} (n : ℕ) : ∀ {r : SegmentReader}, 0 < r.blockSize →
    r.blockSize ∣ hd.length →
      readUpTo n (r.behind hd) = ((readUpTo n r).1, (readUpTo n r).2.behind hd) := by
  induction n with
  | zero => exact fun _ _ => rfl
  | succ n ih =>
    intro r hb hdvd
    have hblock : r.next.2.blockSize = r.blockSize := by
      obtain ⟨o, reason, -, -, h⟩ | ⟨o, ev, -, -, -, -, h⟩ := next_cases hb <;> rw [h]
      rfl
    rw [readUpTo, readUpTo, next_behind hb hdvd]
    generalize r.next = p at hblock
    obtain ⟨o, r'⟩ := p
    cases o with
    | none => rfl
    | some ev =>
      change r'.blockSize = r.blockSize at hblock
      dsimp only
      rw [ih (hblock ▸ hb) (hblock ▸ hdvd)]

/-- Whole blocks before the reader change nothing but its offsets. -/
theorem readAll_behind (hb : 0 < r.blockSize) {hd : Bytes} (hdvd : r.blockSize ∣ hd.length) :
    (r.behind hd).readAll = (r.readAll.1, r.readAll.2.behind hd) := by
  rw [readAll, readAll, ← readUpTo_behind _ hb hdvd]
  simp only [behind, List.length_append, Nat.add_sub_add_left]

/-- A torn end is one behind whole blocks. -/
theorem Torn.behind {hd : Bytes} (hdvd : r.blockSize ∣ hd.length) (h : r.Torn) :
    (r.behind hd).Torn := by
  obtain ⟨hmod, hmagic⟩ := h
  refine ⟨?_, (congrArg decU32 (slice_behind hd r.mapped r.offset 4)).trans hmagic⟩
  change (hd.length + r.offset) % r.blockSize ≠ 0
  rwa [Nat.add_mod, Nat.mod_eq_zero_of_dvd hdvd, Nat.zero_add, Nat.mod_mod]

end Behind

end SegmentReader

/-! ### One more life -/

section Resumed

variable {r r' : SegmentReader} {recs : List LogRecord} {w : WalT} {log : List LogRecord}
  {groups : List (List LogRecord)} {cur : List LogRecord} {b' : Bytes} {k : ℕ}

/-- A run of groups that stands in a file takes at least a header. -/
theorem Content.room_take {epoch : UInt32} {block base lsn₀ : ℕ}
    (h : Content epoch block base lsn₀ w log groups cur) (hb : BlockOk block)
    (hne : groups.take k ≠ []) (hint : ∀ q ∈ w.backend.accepted.take k, Intact b' q) :
    base + kWalHdrBytes ≤ b'.length := by
  obtain ⟨g, gs, hgs⟩ := List.exists_cons_of_ne_nil hne
  have hholds := h.holdsAt_take hint
  rw [hgs, List.flatMap_cons] at hholds
  have hg : g ≠ [] := h.nonempty g (List.mem_of_mem_take (hgs ▸ List.mem_cons_self))
  have hrecs := length_le_encodeRecords epoch g
  have hpad := le_padToBlock hb.zero_lt (encodeRecords epoch g).length
  rw [← length_groupBytes hb.zero_lt] at hpad
  have hpos : 0 < g.length := List.length_pos_iff.mpr hg
  have hfit := hholds.left.length_le (List.length_pos_iff.mp (by omega))
  simp only [kWalHdrBytes]
  omega

/-- **One more life.** A writer resumed where a reader settled leaves a file in which the records
read before are read again, and behind them those of the first whole groups. -/
theorem Content.resumed
    (h : Content r.epoch r.blockSize r'.resumeOffset recs.length w log groups cur)
    (hr : r.Anchored) (hfirst : r.expectedLsn = 1) (hread : Reads r recs r') (hset : r'.Settled)
    (hlen : b'.length ≤ kMaxOff) (hw : WrittenOn r'.resumeOffset r.mapped b')
    (hint : ∀ q ∈ w.backend.accepted.take k, Intact b' q) :
    recs ++ (groups.take k).flatten <+: (r.remap b').readAll.1 := by
  obtain ⟨rm, hs, hn⟩ := hread
  obtain ⟨hrm, hm, hbl, hep, -, hoff, -⟩ := hs.anchored hr
  have hresume := hrm.resume_of_none hn
  have hle : rm.offset ≤ r'.resumeOffset := hresume ▸ le_padToBlock hrm.block.zero_lt _
  have hs' := hs.writtenOn hr hw hle
  by_cases hne : groups.take k = []
  · rw [hne, List.flatten_nil, List.append_nil]
    exact hs'.isPrefix hr.block.zero_lt hrm.block.zero_lt
  · have hroom := h.room_take hr.block hne hint
    simp only [kMaxOff] at hlen
    have hcounts := (hs.counts hr (by omega) (by omega)).2
    have hcross := hset.next_writtenOn hrm hn (hm ▸ hw) hroom
    have hdvd : rm.blockSize ∣ r'.resumeOffset := hresume ▸ padToBlock_dvd _ _
    have hat : AtBoundary { rm.remap b' with offset := r'.resumeOffset } r'.resumeOffset := by
      refine ⟨hrm.resume.trans hresume.symm, ?_, hrm.block.dvd8.trans hdvd, ?_⟩
      · exact (padToBlock_of_dvd hrm.block.zero_lt hdvd).symm
      · dsimp only
        rw [Nat.sub_self]
        exact HoldsAt.nil _ _
    obtain ⟨r₂, hs₂, -, -, hbl₂, -⟩ := h.steps_take hat hbl hr.block hep
      (by change rm.expectedLsn = _; omega)
        (by change b'.length ≤ kMaxOff; simp only [kMaxOff]; omega)
      (by omega) (by omega) hint
    -- the first of them is reached from the padding
    have hcrossed : Steps (rm.remap b') (groups.take k).flatten r₂ := by
      obtain ⟨g, gs, hgs⟩ := List.exists_cons_of_ne_nil hne
      obtain ⟨ev, evs, hevs⟩ := List.exists_cons_of_ne_nil
        (h.nonempty g (List.mem_of_mem_take (hgs ▸ List.mem_cons_self)))
      rw [hgs, List.flatten_cons, hevs, List.cons_append] at hs₂ ⊢
      cases hs₂ with
      | cons hn₂ hrest => exact .cons (hcross.trans hn₂) hrest
    exact (hs'.append hcrossed).isPrefix hr.block.zero_lt (hbl₂ ▸ hr.block.zero_lt)

/-- The records of a log up to the durable LSN. -/
def WalT.durables (w : WalT) (log : List LogRecord) : List LogRecord :=
  log.filter fun ev => decide (ev.lsn ≤ w.durableLsn)

/-- The durable records are those of the groups whose requests were retired. -/
theorem Content.durables_eq {epoch : UInt32} {block base lsn₀ : ℕ} {done queue : List WriteRequest}
    (h : Content epoch block base lsn₀ w log groups cur) (hf : Fifo w done queue) :
    w.durables log = (groups.take done.length).flatten ∧
      w.backend.accepted.take done.length = done := by
  have htake : w.backend.accepted.take done.length = done := by rw [hf.accepted, List.take_left]
  refine ⟨?_, htake⟩
  rw [WalT.durables, WalT.durableLsn, hf.durable]
  rcases List.eq_nil_or_concat' done with rfl | ⟨init, q, rfl⟩
  · rw [List.length_nil, List.take_zero, List.flatten_nil, List.filter_eq_nil_iff]
    intro ev hev
    have := h.numbered.lsn_bounds hev
    rw [lastToken_nil, decide_eq_true_eq]
    omega
  · -- the last token does not depend on what stands before
    have hlast : ∀ d, lastToken (init ++ [q]) d = q.token := fun d => by
      rw [lastToken_append, lastToken_cons, lastToken_nil]
    have := h.filter_take (init ++ [q]).length
    rw [htake, hlast] at this
    rw [hlast]
    exact this

end Resumed

/-! ### Recovery of one segment -/

namespace Replay

/-- An answer leaves the last valid LSN alone, and one that is fatal is noted. -/
theorem answered_keeps {v v' : Replay} {r : SegmentReader} {ev : LogRecord} {st : Status}
    {s : PartitionState} {parar : Bool} (h : v.answered r ev st s = (parar, v')) :
    v'.report.imageLsn = v.report.imageLsn ∧ v'.maxValidLsn = v.maxValidLsn ∧
      (parar = true → v'.report.fatalErr ≠ .ok) := by
  unfold answered at h
  by_cases hfatal : classify st = .fatal
  · rw [if_pos hfatal] at h
    cases h
    refine ⟨rfl, rfl, fun _ hok => ?_⟩
    rw [classify, if_pos (show st.isOk = true from decide_eq_true hok)] at hfatal
    cases hfatal
  · rw [if_neg hfatal] at h
    cases h
    refine ⟨?_, rfl, fun hp => Bool.noConfusion hp⟩
    split_ifs
    all_goals rfl

/-- The loop over a segment ends with a fatal answer, or where the reader stops. -/
theorem readUpTo_cases (n : ℕ) : ∀ {r r' : SegmentReader} {v v' : Replay} {evs : List LogRecord}
    {parar : Bool}, readUpTo n r v = (evs, .ok (parar, r', v')) →
      (parar = true ∧ v'.report.fatalErr ≠ .ok) ∨
      (parar = false ∧ evs = past v.report.imageLsn (r.readUpTo n).1 ∧ r' = (r.readUpTo n).2 ∧
        v'.report.imageLsn = v.report.imageLsn ∧ v'.maxValidLsn = v.maxValidLsn) := by
  induction n with
  | zero =>
    intro r r' v v' evs parar h
    cases h
    exact .inr ⟨rfl, rfl, rfl, rfl, rfl⟩
  | succ n ih =>
    intro r r' v v' evs parar h
    rw [readUpTo] at h
    rw [SegmentReader.readUpTo]
    rcases hnext : r.next with ⟨_ | ev, r₁⟩
    · rw [hnext] at h
      cases h
      exact .inr ⟨rfl, rfl, rfl, rfl, rfl⟩
    rw [hnext] at h
    dsimp only at h ⊢
    by_cases hle : ev.lsn ≤ v.report.imageLsn
    · rw [if_pos hle] at h
      -- a record of the image is skipped, and is not among those past it
      rw [past_cons_of_le hle]
      exact ih h
    rw [if_neg hle] at h
    rw [past_cons_of_lt (by omega)]
    rcases happly : apply ⟨v.state, none⟩ ev with a | ⟨st, e⟩
    · rw [happly] at h
      cases (Prod.mk.inj h).2
    rw [happly] at h
    dsimp only at h
    rcases hans : v.answered r₁ ev st e.s with ⟨_ | _, v₁⟩
    · rw [hans] at h
      dsimp only at h
      -- accepted or rejected, the replay goes on
      obtain ⟨himage, hmax, -⟩ := answered_keeps hans
      rcases hrest : readUpTo n r₁ v₁ with ⟨more, out⟩
      rw [hrest] at h
      cases h
      obtain ⟨hp, hfatal⟩ | ⟨hp, hevs, hr, hi, hm⟩ := ih hrest
      · exact .inl ⟨hp, hfatal⟩
      · exact .inr ⟨hp, by rw [hevs, himage], hr, hi.trans himage, hm.trans hmax⟩
    · rw [hans] at h
      cases h
      -- a fatal answer ends it
      exact .inl ⟨rfl, (answered_keeps hans).2.2 rfl⟩

end Replay

/-- **Recovery of one segment.** Where no answer was fatal, all the records past the image were
handed on, and the tail is where the reader stopped. -/
theorem recover_single {target t : PartitionState} {arena : Arena} {dir : List DirEntry} {part : ℕ}
    {seg : FileItem} {file : Bytes} {r : SegmentReader} {opened : List OpenedSegment}
    {report : RecoveryReport} {tail : WalTail} (hsegs : segs dir part = [seg])
    (hfile : seg.entry.content = some file) (hlen : kSegmentHdrBytes ≤ file.length)
    (hopen : ∀ expected, SegmentReader.open file expected = (.kOk, r))
    (hrun : recover target arena dir part = (opened, .ok (report, tail, t)))
    (hfatal : report.fatalErr = .ok) :
    handed opened = past report.imageLsn r.readAll.1 ∧
      tail = ⟨r.readAll.2.firstLsn, r.readAll.2.resumeOffset, r.readAll.2.epoch,
        lsnNext (max report.imageLsn r.readAll.2.lastValidLsn)⟩ := by
  rw [recover, recoverFrom] at hrun
  rcases hload : loadImages 0 (snaps dir part) target arena with a | ⟨loaded, s₀, arena'⟩
  · rw [hload] at hrun
    cases (Prod.mk.inj hrun).2
  rw [hload] at hrun
  dsimp only at hrun
  rw [hsegs, Replay.readSegs, hfile] at hrun
  dsimp only at hrun
  rw [if_neg (not_lt.mpr hlen), hopen] at hrun
  dsimp only at hrun
  rw [if_neg (not_not.mpr Status.isOk_kOk)] at hrun
  rcases hread : Replay.read r (.start loaded s₀) with ⟨evs, a | ⟨parar, r', v'⟩⟩
  · rw [hread] at hrun
    cases (Prod.mk.inj hrun).2
  rw [hread] at hrun
  dsimp only at hrun
  -- not cut short, the replay reads the segment to its end
  obtain ⟨rfl, hne⟩ | ⟨rfl, rfl, rfl, himage, hmax⟩ := Replay.readUpTo_cases _ hread
  · rw [if_pos rfl] at hrun
    cases hrun
    exact absurd hfatal hne
  rw [if_neg Bool.false_ne_true] at hrun
  -- clean or not, the tail is noted from where the reader stopped
  have hended : report.imageLsn = (v'.ended r.readAll.2).report.imageLsn ∧
      tail = (v'.ended r.readAll.2).tail ∧
      opened = [⟨lsnNext s₀.appliedLsn.toNat, r, past s₀.appliedLsn.toNat r.readAll.1⟩] := by
    rw [Replay.ended]
    by_cases hclean : (r.readUpTo (r.mapped.length - r.offset + 1)).2.stopReason ≠ .clean
    · rw [if_pos hclean] at hrun
      cases hrun
      exact ⟨if_pos hclean ▸ rfl, if_pos hclean ▸ rfl, rfl⟩
    · rw [if_neg hclean] at hrun
      cases hrun
      exact ⟨if_neg hclean ▸ rfl, if_neg hclean ▸ rfl, rfl⟩
  obtain ⟨hbase, rfl, rfl⟩ := hended
  obtain ⟨-, -, htail, hreport⟩ := Replay.ended_spec v' r.readAll.2
  have hbase : report.imageLsn = s₀.appliedLsn.toNat := by
    rw [hbase, hreport]
    exact himage
  rw [hbase, htail, hmax]
  exact ⟨List.append_nil _, rfl⟩

/-! ### Many lives -/

/-- What the segment file of a created log may be after some lives, each ended by a crash, and the
records that were durable in one of them. The later lives begin with a recovery of the file, with
any images, that no answer of `apply` cut short and that settled; the image is not ahead of the
log, and the options are any with the block size of the segment. -/
inductive Lives (opts : WalOptions) (drawn : UInt32) : Bytes → List LogRecord → Prop
  | created {sc : Script} {z : ℕ} {w : WalT} {log : List LogRecord} {file : Bytes}
      (hz : kSegmentHdrBytes + z ≤ kMaxOff)
      (hm : WalT.Moves ((WalT.fresh sc).openCreate opts drawn).1 log w)
      (hcrash : Crash (effectiveBlock opts.blockSize.toNat) (opts.created drawn z) w.backend file) :
      Lives opts drawn file (w.durables log)
  | resumed {file file' : Bytes} {durable : List LogRecord} (hlives : Lives opts drawn file durable)
      {target t : PartitionState} {arena : Arena} {dir : List DirEntry} {part : ℕ} {seg : FileItem}
      (hsegs : segs dir part = [seg]) (hfile : seg.entry.content = some file)
      {opened : List OpenedSegment} {report : RecoveryReport} {tail : WalTail}
      (hrecover : recover target arena dir part = (opened, .ok (report, tail, t)))
      (hfatal : report.fatalErr = .ok) {r : SegmentReader}
      (hread : SegmentReader.open file 0 = (.kOk, r)) (hsettled : r.readAll.2.Settled)
      (himage : report.imageLsn ≤ r.readAll.2.lastValidLsn) {sc : Script} {opts' : WalOptions}
      {drawn' : UInt32} {w₀ w : WalT} {log : List LogRecord} {file₀ : Bytes}
      (hblock : effectiveBlock opts'.blockSize.toNat = effectiveBlock opts.blockSize.toNat)
      (hopen : (WalT.fresh sc).open opts' drawn' (some tail) (some file) = .ok (w₀, file₀))
      (hm : WalT.Moves w₀ log w)
      (hcrash : Crash (effectiveBlock opts.blockSize.toNat) file₀ w.backend file') :
      Lives opts drawn file' (durable ++ w.durables log)

section Lives

variable {opts : WalOptions} {drawn : UInt32}

/-- The reader at the start of the segment. -/
abbrev reader (opts : WalOptions) (drawn : UInt32) (file : Bytes) : SegmentReader :=
  SegmentReader.start file (opts.hdr (WalT.epochNext drawn))

/-- What holds of the file after every life: the header stands, and the durable records are among
those read, in their order. -/
structure LivedSegment (opts : WalOptions) (drawn : UInt32) (file : Bytes)
    (durable : List LogRecord) :
    Prop where
  header : HoldsAt file 0 (opts.hdr (WalT.epochNext drawn)).region
  length_le : file.length ≤ kMaxOff
  durable : durable.Sublist (reader opts drawn file).readAll.1

/-- The segment opens in every life. -/
theorem LivedSegment.open_eq {file : Bytes} {durable : List LogRecord}
    (h : LivedSegment opts drawn file durable) (expected : ℕ) :
    SegmentReader.open file expected = (.kOk, reader opts drawn file) := by
  refine open_eq_start h.header ?_
  have : (opts.hdr (WalT.epochNext drawn)).firstLsn.toNat = 1 := rfl
  omega

/-- The first life. -/
theorem lived_created {sc : Script} {z : ℕ} {w : WalT} {log : List LogRecord} {file : Bytes}
    (hz : kSegmentHdrBytes + z ≤ kMaxOff)
    (hm : WalT.Moves ((WalT.fresh sc).openCreate opts drawn).1 log w)
    (hcrash : Crash (effectiveBlock opts.blockSize.toNat) (opts.created drawn z) w.backend file) :
    LivedSegment opts drawn file (w.durables log) := by
  obtain ⟨groups, cur, h⟩ := Created.moves hm
  obtain ⟨done, queue, hfifo⟩ := (Fifo.ready sc opts (.ofHdr (opts.hdr (WalT.epochNext drawn)))
    kSegmentHdrBytes 0).moves hm
  rw [List.nil_append] at hfifo
  obtain ⟨keep, rfl, hint⟩ := hcrash
  obtain ⟨hdurables, htake⟩ := h.durables_eq hfifo
  refine ⟨holdsAt_land ⟨List.replicate z 0, rfl⟩ fun i _ hi =>
    h.not_covers (.inl (by simpa using hi)),
    Created.length_file opts drawn keep w hz, ?_⟩
  have hdone : ∀ q ∈ w.backend.accepted.take done.length,
    Intact (createdFile opts drawn z keep w) q :=
    fun q hq => by
      rw [htake] at hq
      exact hint q (hfifo.accepted ▸ List.mem_append_left _ hq) (hfifo.retired q hq)
  obtain ⟨r', hs, -, -, hbl⟩ := h.steps_take hz hdone
  rw [hdurables]
  exact (hs.isPrefix (BlockOk.effectiveBlock _).zero_lt
    (hbl ▸ (BlockOk.effectiveBlock _).zero_lt)).sublist

/-- No epoch is zero. -/
theorem epochNext_ne_zero (drawn : UInt32) : WalT.epochNext drawn ≠ 0 := by
  unfold WalT.epochNext
  split_ifs with h
  · exact h
  · decide

/-- A file that starts with a header region has one. -/
theorem length_le_of_header {b : Bytes} {hdr : SegmentHdr} (hb : HoldsAt b 0 hdr.region) :
    kSegmentHdrBytes ≤ b.length := by
  have hne : hdr.region ≠ [] := by
    rw [← List.length_pos_iff, SegmentHdr.length_region]
    decide
  have hle := hb.length_le hne
  rwa [SegmentHdr.length_region, Nat.zero_add] at hle

/-- The log is opened again at a tail. -/
theorem open_eq_resume {file : Bytes} {hdr : SegmentHdr} (hb : HoldsAt file 0 hdr.region)
    (sc : Script) (opts : WalOptions) (drawn : UInt32) {tail : WalTail} (htail : tail.epoch ≠ 0) :
    (WalT.fresh sc).open opts drawn (some tail) (some file) =
      .ok ((WalT.fresh sc).ready opts (.ofHdr hdr) tail.resumeOffset (tail.nextLsn - 1), file) := by
  rw [WalT.open, if_pos htail, WalT.openResume, Segment.openExisting,
    if_neg (not_lt.mpr (length_le_of_header hb)), SegmentHdr.check_eq_ok hb]
  rfl

/-- What a crash leaves of a log that was opened again: nothing before the tail is written. -/
theorem written_on_of_crash {file file' file₀ : Bytes} {hdr : SegmentHdr}
    (hb : HoldsAt file 0 hdr.region) (hlen : file.length ≤ kMaxOff) {tail : WalTail}
    (hoff : kSegmentHdrBytes ≤ tail.resumeOffset) (htail : tail.epoch ≠ 0) {sc : Script}
    {opts : WalOptions} {drawn : UInt32} {w₀ w : WalT} {log : List LogRecord}
    (hopen : (WalT.fresh sc).open opts drawn (some tail) (some file) = .ok (w₀, file₀))
    (hm : WalT.Moves w₀ log w) {block : ℕ} (hcrash : Crash block file₀ w.backend file') :
    HoldsAt file' 0 hdr.region ∧ file'.length ≤ kMaxOff ∧
      WrittenOn tail.resumeOffset file file' := by
  rw [open_eq_resume hb sc opts drawn htail] at hopen
  obtain ⟨rfl, rfl⟩ := Prod.mk.inj (Except.ok.inj hopen)
  obtain ⟨fin, cur, hc⟩ := (Content.ready sc opts (.ofHdr hdr) tail.resumeOffset
    (tail.nextLsn - 1)).moves (.effectiveBlock _) hm
  obtain ⟨keep, rfl, -⟩ := hcrash
  refine ⟨holdsAt_land hb fun i _ hi => hc.not_covers (.inl ?_), length_land_le hlen,
    length_le_land _ _ _, fun i hi => getD_land_of_not_mem (hc.not_covers (.inl hi))⟩
  rw [Nat.zero_add, SegmentHdr.length_region] at hi
  exact hi.trans_le hoff

/-- The records read from a lived segment are numbered from one on. -/
theorem LivedSegment.reads {file : Bytes} {durable : List LogRecord}
    (h : LivedSegment opts drawn file durable) :
    Numbered 1 (reader opts drawn file).readAll.1 ∧
      (reader opts drawn file).readAll.2.lastValidLsn = (reader opts drawn file).readAll.1.length ∧
      (reader opts drawn file).readAll.2.epoch = WalT.epochNext drawn ∧
      kSegmentHdrBytes + 32 * (reader opts drawn file).readAll.1.length ≤
        (reader opts drawn file).readAll.2.resumeOffset ∧
      (reader opts drawn file).readAll.1.length + 1 < 2 ^ 64 := by
  have hr : (reader opts drawn file).Anchored := SegmentReader.anchored_start _ _
  have hb := hr.block.zero_lt
  obtain ⟨rm, hs, hn⟩ := SegmentReader.reads_readAll hb
  obtain ⟨hrm, -, -, -, -, hoff, hin⟩ := hs.anchored hr
  have hresume := hrm.resume_of_none hn
  have hle := le_padToBlock hrm.block.zero_lt rm.offset
  have hlen := h.length_le
  change kSegmentHdrBytes + _ ≤ _ at hoff
  change _ ≤ max kSegmentHdrBytes file.length at hin
  simp only [kSegmentHdrBytes, kMaxOff] at hoff hin hlen
  obtain ⟨hnum, -⟩ := hs.counts hr (show 1 ≠ 0 by decide) (by change 1 + _ < _; omega)
  obtain ⟨-, hepoch, hlast⟩ := SegmentReader.readUpTo_keeps
    ((reader opts drawn file).mapped.length - (reader opts drawn file).offset + 1) hb
  have hnum : Numbered (0 + 1) (reader opts drawn file).readAll.1 := hnum
  refine ⟨hnum, ?_, hepoch, ?_, by omega⟩
  · have hcount := getLastD_of_numbered hnum
    exact hlast.trans (hcount.trans (Nat.zero_add _))
  · simp only [kSegmentHdrBytes]
    omega

/-- A later life. -/
theorem LivedSegment.resumed {file file' file₀ : Bytes} {durable : List LogRecord}
    (h : LivedSegment opts drawn file durable) {imageLsn : ℕ}
    (hsettled : (reader opts drawn file).readAll.2.Settled)
    (himage : imageLsn ≤ (reader opts drawn file).readAll.2.lastValidLsn) {tail : WalTail}
    (htail : tail = ⟨(reader opts drawn file).readAll.2.firstLsn,
      (reader opts drawn file).readAll.2.resumeOffset, (reader opts drawn file).readAll.2.epoch,
      lsnNext (max imageLsn (reader opts drawn file).readAll.2.lastValidLsn)⟩)
    {sc : Script} {opts' : WalOptions} {drawn' : UInt32} {w₀ w : WalT} {log : List LogRecord}
    (hblock : effectiveBlock opts'.blockSize.toNat = effectiveBlock opts.blockSize.toNat)
    (hopen : (WalT.fresh sc).open opts' drawn' (some tail) (some file) = .ok (w₀, file₀))
    (hm : WalT.Moves w₀ log w)
    (hcrash : Crash (effectiveBlock opts.blockSize.toNat) file₀ w.backend file') :
    LivedSegment opts drawn file' (durable ++ w.durables log) := by
  obtain ⟨hnum, hlast, hepoch, hoff, hlt⟩ := h.reads
  set r := reader opts drawn file with hrdef
  have hr : r.Anchored := SegmentReader.anchored_start _ _
  set recs := r.readAll.1 with hrecs
  set r' := r.readAll.2 with hr'
  -- the writer goes on behind the records read
  obtain ⟨first, resume, epoch, next⟩ := tail
  obtain ⟨-, hresume, hep, hnext⟩ := WalTail.mk.inj htail
  have hnext : next - 1 = recs.length := by
    rw [hnext, max_eq_right himage, hlast, lsnNext, Nat.mod_eq_of_lt hlt, Nat.add_sub_cancel]
  have hne : epoch ≠ 0 := by
    rw [hep, hepoch]
    exact epochNext_ne_zero drawn
  obtain ⟨hheader', hlen', hw⟩ := written_on_of_crash h.header h.length_le
    (show kSegmentHdrBytes ≤ resume from hresume ▸ (Nat.le_add_right _ _).trans hoff) hne hopen hm
    hcrash
  change WrittenOn resume file file' at hw
  rw [open_eq_resume h.header sc opts' drawn' hne] at hopen
  dsimp only at hopen
  rw [hresume, hnext] at hopen
  rw [hresume] at hw
  obtain ⟨rfl, rfl⟩ := Prod.mk.inj (Except.ok.inj hopen)
  obtain ⟨groups, cur, hc⟩ : ∃ groups cur,
      Content r.epoch r.blockSize r'.resumeOffset recs.length w log groups cur := by
    obtain ⟨fin, cur, hc⟩ := (Content.ready sc opts' (.ofHdr (opts.hdr (WalT.epochNext drawn)))
      r'.resumeOffset recs.length).moves (.effectiveBlock _) hm
    rw [hblock, ← opts.blockSize_hdr (WalT.epochNext drawn)] at hc
    exact ⟨_, cur, hc⟩
  obtain ⟨done, queue, hfifo⟩ := (Fifo.ready sc opts' (.ofHdr (opts.hdr (WalT.epochNext drawn)))
    r'.resumeOffset recs.length).moves hm
  rw [List.nil_append] at hfifo
  obtain ⟨keep, rfl, hint⟩ := hcrash
  obtain ⟨hdurables, htake⟩ := hc.durables_eq hfifo
  refine ⟨hheader', hlen', ?_⟩
  have hpre := hc.resumed (k := done.length) hr rfl (SegmentReader.reads_readAll hr.block.zero_lt)
    hsettled hlen' hw fun q hq => by
      rw [htake] at hq
      exact hint q (hfifo.accepted ▸ List.mem_append_left _ hq) (hfifo.retired q hq)
  rw [hdurables]
  exact (h.durable.append (List.Sublist.refl _)).trans hpre.sublist

/-- Every life keeps the durable records. -/
theorem Lives.lived {file : Bytes} {durable : List LogRecord} (h : Lives opts drawn file durable) :
    LivedSegment opts drawn file durable := by
  induction h with
  | created hz hm hcrash => exact lived_created hz hm hcrash
  | resumed hlives hsegs hfile hrecover hfatal hread hsettled himage hblock hopen hm hcrash ih =>
    obtain rfl := (Prod.mk.inj (hread.symm.trans (ih.open_eq 0))).2
    obtain ⟨-, htail⟩ := recover_single hsegs hfile (length_le_of_header ih.header) ih.open_eq
      hrecover hfatal
    exact ih.resumed hsettled himage htail hblock hopen hm hcrash

/-- **Nothing durable is lost.** After any number of lives of a log, each ended by a crash, a
recovery that no answer cuts short hands on every record that was durable in any of them and lies
past the image, in their order; what it hands on is numbered from the image on. -/
theorem durable_survives {file : Bytes} {durable : List LogRecord}
    (h : Lives opts drawn file durable) {target t : PartitionState} {arena : Arena}
    {dir : List DirEntry} {part : ℕ} {seg : FileItem} (hsegs : segs dir part = [seg])
    (hfile : seg.entry.content = some file) {opened : List OpenedSegment} {report : RecoveryReport}
    {tail : WalTail} (hrun : recover target arena dir part = (opened, .ok (report, tail, t)))
    (hfatal : report.fatalErr = .ok) :
    (past report.imageLsn durable).Sublist (handed opened) ∧
      Numbered (report.imageLsn + 1) (handed opened) ∧
      tail.nextLsn = lsnNext (report.imageLsn + (handed opened).length) := by
  have hl := h.lived
  obtain ⟨hnum, hlast, -, -, hlt⟩ := hl.reads
  obtain ⟨hhanded, htail⟩ := recover_single hsegs hfile (length_le_of_header hl.header) hl.open_eq
    hrun hfatal
  have hdrop : past report.imageLsn (reader opts drawn file).readAll.1 =
      (reader opts drawn file).readAll.1.drop report.imageLsn := by
    have := past_of_numbered (m := 0) report.imageLsn hnum
    rwa [Nat.zero_add] at this
  refine ⟨hhanded ▸ hl.durable.filter _, ?_, ?_⟩
  · rw [hhanded, hdrop]
    rcases Nat.lt_or_ge report.imageLsn (reader opts drawn file).readAll.1.length with hin | hout
    · have hcut : Numbered 1 ((reader opts drawn file).readAll.1.take report.imageLsn ++
          (reader opts drawn file).readAll.1.drop report.imageLsn) := by
        rwa [List.take_append_drop]
      have := (SegmentReader.numbered_append.mp hcut).2
      rwa [List.length_take, min_eq_left hin.le, Nat.add_comm] at this
    · rw [List.drop_eq_nil_of_le hout]
      trivial
  · rw [htail, hhanded, hdrop, List.length_drop]
    dsimp only
    rw [hlast]
    congr 1
    omega

/-- **Behind a torn record nothing survives.** Where recovery stopped at a torn record inside a
block, the log is opened again at the next block; then no later recovery hands on any record of the
new life, durable or not, and it names the same place to resume at, as long as the checksum refuses
what stands at the torn record. -/
theorem lost_behind_torn {file file' file₀ : Bytes} {durable : List LogRecord}
    (h : Lives opts drawn file durable) {target t : PartitionState} {arena : Arena}
    {dir : List DirEntry} {part : ℕ} {seg : FileItem} (hsegs : segs dir part = [seg])
    (hfile : seg.entry.content = some file) {opened : List OpenedSegment} {report : RecoveryReport}
    {tail : WalTail} (hrun : recover target arena dir part = (opened, .ok (report, tail, t)))
    (hfatal : report.fatalErr = .ok) {r : SegmentReader}
    (hread : SegmentReader.open file 0 = (.kOk, r)) (htorn : r.readAll.2.Torn) {sc : Script}
    {opts' : WalOptions} {drawn' : UInt32} {w₀ w : WalT} {log : List LogRecord}
    (hopen : (WalT.fresh sc).open opts' drawn' (some tail) (some file) = .ok (w₀, file₀))
    (hm : WalT.Moves w₀ log w) {block : ℕ} (hcrash : Crash block file₀ w.backend file')
    (hcrc : SegmentReader.recordAt (WalT.epochNext drawn) file' r.readAll.2.offset = none)
    {target' t' : PartitionState} {arena' : Arena} {dir' : List DirEntry} {part' : ℕ}
    {seg' : FileItem} (hsegs' : segs dir' part' = [seg']) (hfile' : seg'.entry.content = some file')
    {opened' : List OpenedSegment} {report' : RecoveryReport} {tail' : WalTail}
    (hrun' : recover target' arena' dir' part' = (opened', .ok (report', tail', t')))
    (hfatal' : report'.fatalErr = .ok) :
    handed opened' = past report'.imageLsn r.readAll.1 ∧
      tail'.resumeOffset = tail.resumeOffset := by
  have hl := h.lived
  obtain rfl := (Prod.mk.inj (hread.symm.trans (hl.open_eq 0))).2
  obtain ⟨-, -, hepoch, hoff, -⟩ := hl.reads
  obtain ⟨-, htail⟩ := recover_single hsegs hfile (length_le_of_header hl.header) hl.open_eq hrun
    hfatal
  obtain ⟨first, resume, epoch, next⟩ := tail
  obtain ⟨-, hres, hep, -⟩ := WalTail.mk.inj htail
  have hne : epoch ≠ 0 := by
    rw [hep, hepoch]
    exact epochNext_ne_zero drawn
  -- the new life writes from the place to resume at, so the torn record stays
  obtain ⟨hheader', hlen', hw⟩ := written_on_of_crash hl.header hl.length_le
    (show kSegmentHdrBytes ≤ resume from hres ▸ (Nat.le_add_right _ _).trans hoff) hne hopen hm
    hcrash
  change WrittenOn resume file file' at hw
  rw [hres] at hw
  -- its own records count for nothing here: the old ones end the read
  have hl' : LivedSegment opts drawn file' [] := ⟨hheader', hlen', List.nil_sublist _⟩
  obtain ⟨hhanded', htail'⟩ := recover_single hsegs' hfile' (length_le_of_header hheader')
    hl'.open_eq hrun' hfatal'
  obtain ⟨first', resume', epoch', next'⟩ := tail'
  obtain ⟨-, hres', -, -⟩ := WalTail.mk.inj htail'
  obtain ⟨hsame, hresume⟩ := SegmentReader.Torn.readAll_writtenOn (r := reader opts drawn file)
    (SegmentReader.anchored_start _ _) htorn hw hcrc
  have hremap : (reader opts drawn file).remap file' = reader opts drawn file' := rfl
  rw [hremap] at hsame hresume
  refine ⟨by rw [hhanded', hsame], ?_⟩
  change resume' = resume
  rw [hres', hresume, hres]

/-- A directory with a segment and nothing else. -/
def segmentDir (file : Bytes) : List DirEntry :=
  [⟨.segment, 0, 1, some file⟩].map NamedFile.entry

/-- The directory has the one segment. -/
theorem segs_segmentDir (file : Bytes) :
    segs (segmentDir file) 0 = [⟨1, NamedFile.entry ⟨.segment, 0, 1, some file⟩⟩] := by
  rw [segs, segmentDir, listaArquivos_segments (by simp)]
  rfl

/-- Recovery of a segment without images. -/
theorem recover_segmentDir (target : PartitionState) {s : PartitionState} {file : Bytes}
    {r : SegmentReader}
    {sts : List Status} (hlen : kSegmentHdrBytes ≤ file.length)
    (hopen : ∀ expected, SegmentReader.open file expected = (.kOk, r))
    (hrun : applyAll target ((past target.appliedLsn.toNat r.readAll.1).map fun ev => (ev, none)) =
      .ok (sts, s)) (hst : ∀ st ∈ sts, st.isFatal = false) (arena : Arena) :
    ∃ opened report tail, recover target arena (segmentDir file) 0 =
      (opened, .ok (report, tail, s)) ∧ report.fatalErr = .ok ∧
        report.imageLsn = target.appliedLsn.toNat := by
  have hsnaps : snaps (segmentDir file) 0 = [] := by
    rw [snaps, segmentDir, listaArquivos_images (by simp)]
    rfl
  have hcontent : (FileItem.mk 1 (NamedFile.entry ⟨.segment, 0, 1, some file⟩)).entry.content =
    some file := rfl
  have hread := Replay.readSegs_single (v := .start none target) hcontent hlen (hopen _)
    Status.isOk_kOk hrun hst
  rw [recover, recoverFrom, hsnaps, segs_segmentDir]
  dsimp only [loadImages]
  rw [hread]
  obtain ⟨hstate, -, -, hreport⟩ := Replay.ended_spec ((Replay.start none target).afterAll
    (past target.appliedLsn.toNat r.readAll.1) sts s) r.readAll.2
  refine ⟨_, _, _, congrArg (Prod.mk _)
    (congrArg Except.ok (Prod.ext rfl (Prod.ext rfl hstate))), ?_,
    ?_⟩
  · exact congrArg RecoveryReport.fatalErr hreport
  · exact congrArg RecoveryReport.imageLsn hreport

/-- The first records of a group over two blocks, which fill the first block up to the header of
the last one. -/
def tornHead : List LogRecord := (List.range 12).map fun i => ⟨i + 1, 9, 999, [1]⟩

/-- The group is handed over. -/
def tornOps : List WalOp :=
  List.replicate 12 (.append 999 [1] 9) ++ [.append 999 [5] 9, .maybeSubmit 9]

/-- The second block of a group never reached the disk; what is written behind the first is lost. -/
theorem lost_behind_torn_second : ∃ file w log file' opened report tail t,
    WalT.Moves ((WalT.fresh ⟨fun _ => .kOk, fun _ => [(0, 512)]⟩).ready ⟨0, 0, 0, 512⟩
      (.ofHdr (WalOptions.hdr ⟨0, 0, 0, 512⟩ 7)) 4608 12) log w ∧
    Crash 512 file w.backend file' ∧ w.durables log = [⟨13, 9, 999, [2]⟩] ∧
    recover .blank ⟨0, 0, false, false⟩ (segmentDir file') 0 = (opened, .ok (report, tail, t)) ∧
    handed opened = tornHead := by
  set opts : WalOptions := ⟨0, 0, 0, 512⟩ with hopts
  -- the first life
  set w₁ := (((WalT.fresh ⟨fun _ => .kOk, fun _ => []⟩).openCreate opts 7).1.exec tornOps) with hw₁
  set file := createdFile opts 7 0 (fun _ k => decide (k = 0)) w₁.1 with hfile
  set hd := (opts.hdr 7).region with hhd
  have hlen : hd.length = 4096 := SegmentHdr.length_region _
  set records := tornHead ++ [⟨13, 9, 999, [5]⟩] with hrecords
  set g₁ := groupBytes 7 512 records with hg₁
  obtain ⟨hdelivered, htokens, hlog⟩ : w₁.1.backend.delivered = [] ∧
      w₁.1.backend.accepted.map WriteRequest.token = [13] ∧ w₁.2 = records := by decide +kernel
  obtain ⟨groups, cur, hcontent⟩ := Created.exec ⟨fun _ => .kOk, fun _ => []⟩ opts 7 tornOps
  rw [← hw₁, hlog] at hcontent
  obtain rfl := hcontent.groups_eq [records] [] rfl htokens
  obtain ⟨q, haccepted₁, hq⟩ := List.map_eq_singleton_iff.mp hcontent.requests
  obtain ⟨hoff₁, hrest⟩ := Prod.mk.inj hq
  have hbytes₁ : q.bytes = g₁ := by
    rw [(Prod.mk.inj hrest).1, show effectiveBlock opts.blockSize.toNat = 512 by decide]
    rfl
  have hpiece : g₁.length = 1024 := by decide +kernel
  have hbody : file = hd ++ slice g₁ 0 512 := by
    have htwo : List.range (g₁.length / 512) = [0, 1] := by rw [hpiece]; rfl
    rw [hfile, createdFile, haccepted₁, land, land, hoff₁, hbytes₁,
      show effectiveBlock opts.blockSize.toNat = 512 by decide, landWrite, htwo]
    simp only [List.foldl_cons, List.foldl_nil, WalOptions.created, List.replicate_zero,
      List.append_nil, decide_true, if_true, Nat.zero_mul, Nat.add_zero, Nat.one_ne_zero,
        decide_false,
      Bool.false_eq_true, if_false]
    have hblock : (slice g₁ 0 512).length = 512 := length_slice (by rw [hpiece]; decide)
    rw [pwrite, if_pos (by rw [hblock]; decide)]
    exact writeAt_end hlen _
  -- the reader, and the same without the header before it
  set r₀ : SegmentReader := { SegmentReader.start (slice g₁ 0 512) (opts.hdr 7) with
    offset := 0, resumeOffset := 0 } with hr₀
  have hreader : reader opts 7 file = r₀.behind hd := by
    rw [hbody, SegmentReader.behind, reader]
    simp only [hr₀, hlen]
    rfl
  obtain ⟨hread₀, htorn₀, hoffset₀, hresume₀, hlast₀, hblock₀⟩ : r₀.readAll.1 = tornHead ∧
      r₀.readAll.2.Torn ∧ r₀.readAll.2.offset = 480 ∧ r₀.readAll.2.resumeOffset = 512 ∧
      r₀.readAll.2.lastValidLsn = 12 ∧ r₀.readAll.2.blockSize = 512 := by decide +kernel
  have hall : (reader opts 7 file).readAll = (r₀.readAll.1, r₀.readAll.2.behind hd) := by
    rw [hreader]
    exact SegmentReader.readAll_behind (by decide) (by rw [hlen]; decide)
  have hread : (reader opts 7 file).readAll.1 = tornHead := by rw [hall, hread₀]
  have htorn : (reader opts 7 file).readAll.2.Torn := by
    rw [hall]
    exact htorn₀.behind (by rw [hblock₀, hlen]; decide)
  have hoffset : (reader opts 7 file).readAll.2.offset = hd.length + 480 := by
    rw [hall, SegmentReader.behind, hoffset₀]
  have hresume : (reader opts 7 file).readAll.2.resumeOffset = 4608 := by
    rw [hall, SegmentReader.behind, hresume₀, hlen]
  have hlast : (reader opts 7 file).readAll.2.lastValidLsn = 12 := by
    rw [hall, SegmentReader.behind, hlast₀]
  have hfirst : Lives opts 7 file (w₁.1.durables w₁.2) :=
    .created (z := 0) (by decide) (WalT.exec_moves _ tornOps)
      ⟨fun _ k => decide (k = 0), rfl, fun q _ hq => by rw [hdelivered] at hq; cases hq⟩
  obtain ⟨sts, t, happly, hst⟩ : ∃ sts t, applyAll .blank
      ((past PartitionState.blank.appliedLsn.toNat tornHead).map fun ev => (ev, none)) =
        .ok (sts, t) ∧ ∀ st ∈ sts, st.isFatal = false := ⟨_, _, rfl, by decide⟩
  obtain ⟨opened, report, tail, hrec, hfatal, himage⟩ := recover_segmentDir .blank
    (length_le_of_header hfirst.lived.header) hfirst.lived.open_eq
    (by rw [hread]; exact happly) hst ⟨0, 0, false, false⟩
  obtain ⟨-, htail⟩ := recover_single (segs_segmentDir file) rfl
    (length_le_of_header hfirst.lived.header) hfirst.lived.open_eq hrec hfatal
  rw [hresume, hlast, himage] at htail
  clear_value file
  -- the second life
  set sc : Script := ⟨fun _ => .kOk, fun _ => [(0, 512)]⟩ with hsc
  set w₀ := (WalT.fresh sc).ready opts (.ofHdr (opts.hdr 7)) 4608 12 with hw₀
  set ops : List WalOp := [.append 999 [2] 9, .maybeSubmit 9, .reap] with hops
  obtain ⟨haccepted, hdurables⟩ : (w₀.exec ops).1.backend.accepted =
      [⟨groupBytes 7 512 [⟨13, 9, 999, [2]⟩], 4608, 13, 512, 0, 0⟩] ∧
      (w₀.exec ops).1.durables (w₀.exec ops).2 = [⟨13, 9, 999, [2]⟩] := by decide +kernel
  have hopen : (WalT.fresh sc).open opts 7 (some tail) (some file) = .ok (w₀, file) := by
    have hepoch := hfirst.lived.reads.2.2.1
    rw [hepoch] at htail
    rw [open_eq_resume hfirst.lived.header sc opts 7 (by rw [htail]; exact epochNext_ne_zero 7),
      htail]
    rfl
  set g := groupBytes 7 512 [⟨13, 9, 999, [2]⟩] with hg
  have hlen₂ : g.length = 512 := by decide +kernel
  have hcrash : Crash 512 file (w₀.exec ops).1.backend (writeAt file 4608 g) := by
    refine ⟨fun _ _ => true, ?_, ?_⟩
    · rw [haccepted, land, land, landWrite_block rfl (by decide) hlen₂, pwrite,
        if_pos (by rw [hlen₂]; decide)]
    · rw [haccepted]
      intro q hq _
      obtain rfl := List.mem_singleton.mp hq
      exact holdsAt_writeAt _ _ _
  have hcrc : SegmentReader.recordAt 7 (writeAt file 4608 g) (reader opts 7 file).readAll.2.offset =
      none := by
    have hend : file.length = 4608 := by
      rw [hbody, List.length_append, hlen, length_slice (by rw [hpiece]; decide)]
    rw [hoffset, writeAt_end hend, hbody, List.append_assoc, SegmentReader.recordAt_append]
    decide +kernel
  -- the recovery after it
  obtain ⟨hheader', hlen', hw⟩ := written_on_of_crash hfirst.lived.header hfirst.lived.length_le
    (by rw [htail]; exact (by decide : kSegmentHdrBytes ≤ 4608))
    (by rw [htail, hfirst.lived.reads.2.2.1]; exact epochNext_ne_zero 7) hopen
    (WalT.exec_moves w₀ ops) hcrash
  have hlived' : LivedSegment opts 7 (writeAt file 4608 g) [] :=
    ⟨hheader', hlen', List.nil_sublist _⟩
  obtain ⟨hsame, -⟩ := SegmentReader.Torn.readAll_writtenOn (r := reader opts 7 file)
    (SegmentReader.anchored_start _ _) htorn (by rw [htail] at hw; rwa [hresume]) hcrc
  have hread₂ : (reader opts 7 (writeAt file 4608 g)).readAll.1 = tornHead := hsame.trans hread
  obtain ⟨opened₂, report₂, tail₂, hrec₂, hfatal₂, himage₂⟩ := recover_segmentDir .blank
    (length_le_of_header hheader') hlived'.open_eq
    (by rw [hread₂]; exact happly) hst ⟨0, 0, false, false⟩
  obtain ⟨hhanded, -⟩ := lost_behind_torn hfirst (segs_segmentDir file) rfl hrec hfatal
    (hfirst.lived.open_eq 0) htorn hopen (WalT.exec_moves w₀ ops) hcrash hcrc
    (segs_segmentDir _) rfl
    hrec₂ hfatal₂
  rw [hread, himage₂] at hhanded
  exact ⟨file, (w₀.exec ops).1, (w₀.exec ops).2, writeAt file 4608 g, opened₂, report₂, tail₂, t,
    WalT.exec_moves w₀ ops, hcrash, hdurables, hrec₂, hhanded⟩

/-- One record is appended, handed over and completed. -/
def oneLife (payload : UInt8) : List WalOp := [.append 999 [payload] 9, .maybeSubmit 9, .reap]

/-- Two lives of one record each: the second goes on where the first ended, and both records are
handed on behind it. -/
theorem durable_survives_twice : ∃ file opened report tail t,
    Lives ⟨0, 0, 0, 512⟩ 7 file [⟨1, 9, 999, [1]⟩, ⟨2, 9, 999, [2]⟩] ∧
    recover .blank ⟨0, 0, false, false⟩ (segmentDir file) 0 = (opened, .ok (report, tail, t)) ∧
    [⟨1, 9, 999, [1]⟩, ⟨2, 9, 999, [2]⟩].Sublist (handed opened) := by
  set opts : WalOptions := ⟨0, 0, 0, 512⟩ with hopts
  set sc : Script := ⟨fun _ => .kOk, fun _ => [(0, 512)]⟩ with hsc
  set w₀ := ((WalT.fresh sc).openCreate opts 7).1 with hw₀
  -- the first life
  set w₁ := w₀.exec (oneLife 1) with hw₁
  set file := createdFile opts 7 0 (fun _ _ => true) w₁.1 with hfile
  have hint₁ : ∀ q ∈ w₁.1.backend.accepted, Intact file q :=
    intact_of_landed sc opts 7 (oneLife 1) 0 (by decide +kernel)
  obtain ⟨haccepted₁, hsubmitted₁, hdurables₁, hend₁⟩ : w₁.1.backend.accepted =
      [⟨groupBytes 7 512 [⟨1, 9, 999, [1]⟩], 4096, 1, 512, 0, 0⟩] ∧
      w₁.1.submitted w₁.2 = [⟨1, 9, 999, [1]⟩] ∧ w₁.1.durables w₁.2 = [⟨1, 9, 999, [1]⟩] ∧
      w₁.1.segOffset = 4608 := by decide +kernel
  have hfirst : Lives opts 7 file [⟨1, 9, 999, [1]⟩] :=
    hdurables₁ ▸ .created (by decide) (WalT.exec_moves w₀ (oneLife 1))
      ⟨fun _ _ => true, rfl, fun q hq _ => hint₁ q hq⟩
  obtain ⟨r, r', hopen₁, hread, hclean, hresume⟩ := readAll_eq_submitted sc opts 7 (oneLife 1) 0
    (by decide) hint₁
  obtain rfl := (Prod.mk.inj (hopen₁.symm.trans (hfirst.lived.open_eq 0))).2
  rw [hsubmitted₁] at hread
  obtain ⟨st₁, t₁, happly₁, hst₁⟩ : ∃ st t, applyAll .blank
      ((past PartitionState.blank.appliedLsn.toNat [⟨1, 9, 999, [1]⟩]).map fun ev => (ev, none)) =
        .ok ([st], t) ∧ st.isFatal = false := ⟨_, _, rfl, rfl⟩
  obtain ⟨opened, report, tail, hrec, hfatal, himage⟩ := recover_segmentDir .blank
    (length_le_of_header hfirst.lived.header) hfirst.lived.open_eq
    (by rw [hread]; exact happly₁) (by simpa using hst₁) ⟨0, 0, false, false⟩
  obtain ⟨-, htail⟩ := recover_single (segs_segmentDir file) rfl
    (length_le_of_header hfirst.lived.header) hfirst.lived.open_eq hrec hfatal
  obtain ⟨-, hlast, hepoch, -, -⟩ := hfirst.lived.reads
  rw [himage, hlast, hepoch, hread] at htail
  dsimp only at htail
  rw [hresume, hend₁] at htail
  -- the second life goes on at the next block
  set w₂ := (WalT.fresh sc).ready opts (.ofHdr (opts.hdr 7)) 4608 1 with hw₂
  have hopen₂ : (WalT.fresh sc).open opts 7 (some tail) (some file) = .ok (w₂, file) := by
    rw [open_eq_resume hfirst.lived.header sc opts 7 (by rw [htail]; exact epochNext_ne_zero 7),
      htail]
    rfl
  -- the file is that of one life that does both
  set both := w₀.exec (oneLife 1 ++ oneLife 2) with hboth
  have hint₂ : ∀ q ∈ both.1.backend.accepted,
      Intact (createdFile opts 7 0 (fun _ _ => true) both.1) q :=
    intact_of_landed sc opts 7 (oneLife 1 ++ oneLife 2) 0 (by decide +kernel)
  obtain ⟨haccepted, hsubmitted⟩ : both.1.backend.accepted =
      [⟨groupBytes 7 512 [⟨1, 9, 999, [1]⟩], 4096, 1, 512, 0, 0⟩,
        ⟨groupBytes 7 512 [⟨2, 9, 999, [2]⟩], 4608, 2, 512, 1, 0⟩] ∧
      both.1.submitted both.2 = [⟨1, 9, 999, [1]⟩, ⟨2, 9, 999, [2]⟩] := by decide +kernel
  obtain ⟨haccepted₂, hdurables₂⟩ : (w₂.exec (oneLife 2)).1.backend.accepted =
      [⟨groupBytes 7 512 [⟨2, 9, 999, [2]⟩], 4608, 2, 512, 0, 0⟩] ∧
      (w₂.exec (oneLife 2)).1.durables (w₂.exec (oneLife 2)).2 = [⟨2, 9, 999, [2]⟩] := by
    decide +kernel
  have hcrash : Crash (effectiveBlock opts.blockSize.toNat) file (w₂.exec (oneLife 2)).1.backend
      (createdFile opts 7 0 (fun _ _ => true) both.1) := by
    refine ⟨fun _ _ => true, ?_, ?_⟩
    · rw [hfile, createdFile, createdFile, haccepted, haccepted₁, haccepted₂]
      simp only [land]
    · rw [haccepted] at hint₂
      rw [haccepted₂]
      intro q hq _
      obtain rfl := List.mem_singleton.mp hq
      exact hint₂ ⟨groupBytes 7 512 [⟨2, 9, 999, [2]⟩], 4608, 2, 512, 1, 0⟩ (by simp)
  have hsecond : Lives opts 7 (createdFile opts 7 0 (fun _ _ => true) both.1)
      ([⟨1, 9, 999, [1]⟩] ++ (w₂.exec (oneLife 2)).1.durables (w₂.exec (oneLife 2)).2) :=
    .resumed hfirst (segs_segmentDir file) rfl hrec hfatal (hfirst.lived.open_eq 0)
      (.inl (by rw [hread]; exact hclean)) (by rw [himage]; exact Nat.zero_le _) rfl hopen₂
      (WalT.exec_moves w₂ (oneLife 2)) hcrash
  rw [hdurables₂] at hsecond
  -- the recovery after it
  obtain ⟨r₂, r₂', hopen₃, hread₂, -, -⟩ :=
    readAll_eq_submitted sc opts 7 (oneLife 1 ++ oneLife 2) 0 (by decide) hint₂
  obtain rfl := (Prod.mk.inj (hopen₃.symm.trans (hsecond.lived.open_eq 0))).2
  obtain ⟨st₂, st₃, t, happly₂, hst₂⟩ : ∃ st st' t, applyAll .blank
      ((past PartitionState.blank.appliedLsn.toNat [⟨1, 9, 999, [1]⟩, ⟨2, 9, 999, [2]⟩]).map
        fun ev => (ev, none)) = .ok ([st, st'], t) ∧ ∀ x ∈ [st, st'], x.isFatal = false :=
    ⟨_, _, _, rfl, by simp; decide⟩
  obtain ⟨opened₂, report₂, tail₂, hrec₂, hfatal₂, himage₂⟩ := recover_segmentDir .blank
    (length_le_of_header hsecond.lived.header) hsecond.lived.open_eq
    (by rw [hread₂, hsubmitted]; exact happly₂) hst₂ ⟨0, 0, false, false⟩
  obtain ⟨hkept, -, -⟩ := durable_survives hsecond (segs_segmentDir _) rfl hrec₂ hfatal₂
  rw [himage₂] at hkept
  exact ⟨_, opened₂, report₂, tail₂, t, hsecond, hrec₂, hkept⟩

end Lives

end MotorRv
