import MotorRv.Wal.SegmentReader

/-!
# Reading back

What `next` does at the three things a log is made of: a whole record is returned, padding is
crossed to the next boundary, zeros to the end stop the reader. `Steps` strings successful calls
together, and `steps_groups` reads a run of whole groups: the reader re-derives the boundaries the
writer chose.

`next` is a loop with skips, and `next_cases` sums the skips up: the reader either stays where it
is, or goes to a later boundary, and decides there. The fuel of the loop does not matter
(`loop_stable`). Everything about single calls is derived from `scan`, which is one turn.

`CrcSound` is how a checksum is trusted: what matches at a place that the reader may look at was
written there. It is a hypothesis about a file, to be discharged for a concrete one by looking at
every eighth place of it, or from the places at which the magic stands (`starts`,
`magic_of_recordAt`); nothing here claims that no two texts have the same checksum. Under it what is
returned from arbitrary bytes is numbered and was written (`Steps.numbered`).
-/

namespace MotorRv

open Lib

/-- A header is not refused with `Ok`. -/
theorem SegmentHdr.ne_ok_of_check {b : Bytes} {e : Err} (hc : check b = .error e) : e ≠ .ok := by
  unfold check at hc
  split_ifs at hc
  all_goals
    obtain rfl := Except.error.inj hc
    decide

namespace SegmentReader

/-- The same reader over another mapping. -/
abbrev remap (r : SegmentReader) (b' : Bytes) : SegmentReader := { r with mapped := b' }

/-! ### The loop ends -/

/-- Inside of a block padding moves on. -/
theorem lt_padToBlock {block off : ℕ} (hb : 0 < block) (h : off % block ≠ 0) :
    off < padToBlock off block := by
  refine lt_of_le_of_ne (le_padToBlock hb off) fun he => h ?_
  rw [he]
  exact Nat.mod_eq_zero_of_dvd (padToBlock_dvd _ _)

/-- A turn that skips leaves a place inside a block for the boundary after it. -/
theorem scan_skip {r : SegmentReader} {o : ℕ} (h : r.scan = .skip o) :
    r.offset % r.blockSize ≠ 0 ∧ o = padToBlock r.offset r.blockSize := by
  unfold scan at h
  split_ifs at h with h1 h2 h3 h4 h5
  · exact ⟨h3, (Scan.skip.inj h).symm⟩
  · exact ⟨h5, (Scan.skip.inj h).symm⟩
  · unfold scanRecord at h
    dsimp only at h
    split_ifs at h

/-- The length of a returned record is the one its header gives, and the record fits. -/
theorem scan_event {r : SegmentReader} {ev : LogRecord} (h : r.scan = .event ev) :
    r.offset + recordBytes ev.payload.length ≤ r.mapped.length := by
  unfold scan at h
  split_ifs at h
  unfold scanRecord at h
  dsimp only at h
  split_ifs at h with h1 h2 h3 h4 h5
  obtain rfl := Scan.event.inj h
  have hle := le_pad8 (WalHdr.decode (slice r.mapped r.offset kWalHdrBytes)).len.toNat
  simp only [recordBytes] at h3 ⊢
  rw [length_slice (by omega)]
  omega

/-- Fuel beyond the bytes that are left makes no difference. -/
theorem loop_stable {r : SegmentReader} (hb : 0 < r.blockSize) {n m : ℕ}
    (hn : r.mapped.length - r.offset < n) (hm : r.mapped.length - r.offset < m) :
    loop n r = loop m r := by
  induction n generalizing r m with
  | zero => omega
  | succ n ih =>
    obtain ⟨m, rfl⟩ : ∃ k, m = k + 1 := ⟨m - 1, by omega⟩
    rw [loop, loop]
    split_ifs with hlt
    · cases hs : r.scan with
      | skip o =>
        obtain ⟨hmod, rfl⟩ := scan_skip hs
        have hgt := lt_padToBlock hb hmod
        exact ih (r := { r with offset := padToBlock r.offset r.blockSize }) hb
          (by dsimp only; omega) (by dsimp only; omega)
      | stop reason => rfl
      | event ev => rfl
    · rfl

section Next

variable {r : SegmentReader}

/-- At the end of the mapping the reader stops clean. -/
theorem next_of_end (h : r.mapped.length ≤ r.offset) :
    r.next = (none, { r with stopReason := .clean }) := by
  rw [next, loop, if_neg (by omega)]

/-- Where a scan stops the reader stops for its reason. -/
theorem next_of_stop (h : r.offset < r.mapped.length) {reason : ReplayStopReason}
    (hs : r.scan = .stop reason) : r.next = (none, { r with stopReason := reason }) := by
  rw [next, loop, if_pos h, hs]

/-- Where a scan finds a record the reader returns it. -/
theorem next_of_event (h : r.offset < r.mapped.length) {ev : LogRecord}
    (hs : r.scan = .event ev) : r.next = (some ev, r.accept ev) := by
  rw [next, loop, if_pos h, hs]

/-- Where a scan skips the reader goes on behind it. -/
theorem next_of_skip (hb : 0 < r.blockSize) (h : r.offset < r.mapped.length) {o : ℕ}
    (hs : r.scan = .skip o) : r.next = { r with offset := o }.next := by
  obtain ⟨hmod, rfl⟩ := scan_skip hs
  have hgt := lt_padToBlock hb hmod
  rw [next, loop, if_pos h, hs]
  exact loop_stable (r := { r with offset := padToBlock r.offset r.blockSize }) hb
    (by dsimp only; omega) (by dsimp only; omega)

/-- What `next` can do, with the skips summed up: it stays where it is or goes to a later boundary,
and there it returns a record or stops. -/
theorem next_cases (hb : 0 < r.blockSize) :
    (∃ o reason, r.offset ≤ o ∧ (o = r.offset ∨ r.blockSize ∣ o) ∧
      r.next = (none, { r with offset := o, stopReason := reason })) ∨
    (∃ o ev, r.offset ≤ o ∧ (o = r.offset ∨ r.blockSize ∣ o) ∧ o < r.mapped.length ∧
      { r with offset := o }.scan = .event ev ∧
      r.next = (some ev, { r with offset := o }.accept ev)) := by
  rw [next]
  generalize hn : r.mapped.length - r.offset + 1 = n
  clear hn
  induction n generalizing r with
  | zero => exact .inl ⟨r.offset, .clean, le_rfl, .inl rfl, rfl⟩
  | succ n ih =>
    rw [loop]
    split_ifs with hlt
    · cases hs : r.scan with
      | skip o =>
        obtain ⟨hmod, rfl⟩ := scan_skip hs
        have hgt := lt_padToBlock hb hmod
        have hboundary : ∀ {o}, o = padToBlock r.offset r.blockSize ∨ r.blockSize ∣ o →
            r.blockSize ∣ o := by
          rintro o (rfl | hbd)
          · exact padToBlock_dvd _ _
          · exact hbd
        obtain ⟨o, reason, ho, hbd, h⟩ | ⟨o, ev, ho, hbd, hl, he, h⟩ :=
          ih (r := { r with offset := padToBlock r.offset r.blockSize }) hb
        · exact .inl ⟨o, reason, hgt.le.trans ho, .inr (hboundary hbd), h⟩
        · exact .inr ⟨o, ev, hgt.le.trans ho, .inr (hboundary hbd), hl, he, h⟩
      | stop reason => exact .inl ⟨r.offset, reason, le_rfl, .inl rfl, rfl⟩
      | event ev => exact .inr ⟨r.offset, ev, le_rfl, .inl rfl, hlt, hs, rfl⟩
    · exact .inl ⟨r.offset, .clean, le_rfl, .inl rfl, rfl⟩

end Next

/-! ### What a returned record stands for -/

/-- The record whose magic, epoch, length and checksum match at an offset, if one does. -/
def recordAt (epoch : UInt32) (b : Bytes) (o : ℕ) : Option LogRecord :=
  let h := WalHdr.decode (slice b o kWalHdrBytes)
  let payload := slice b (o + kWalHdrBytes) h.len.toNat
  if h.magic = kWalMagic ∧ h.epoch = epoch ∧ o + recordBytes h.len.toNat ≤ b.length ∧
      crc32c (crc32c 0 { h with crc32c := 0 }.encode) payload = h.crc32c then
    some ⟨h.lsn.toNat, h.tsNs, h.tmpl, payload⟩
  else none

/-- The checksum is trusted: at the places the reader may look at, what matches was written. -/
def CrcSound (epoch : UInt32) (b : Bytes) (written : ℕ → LogRecord → Prop) : Prop :=
  ∀ o, kSegmentHdrBytes ≤ o → 8 ∣ o → ∀ e, recordAt epoch b o = some e → written o e

theorem drop_behind (hd b : Bytes) (o : ℕ) : (hd ++ b).drop (hd.length + o) = b.drop o := by
  rw [← List.drop_drop, List.drop_left]

/-- Bytes put in front only shift the offsets. -/
theorem slice_behind (hd b : Bytes) (o n : ℕ) :
    slice (hd ++ b) (hd.length + o) n = slice b o n := by
  rw [slice, slice, drop_behind]

/-- Matching does not depend on what stands before. -/
theorem recordAt_append (epoch : UInt32) (hd b : Bytes) (o : ℕ) :
    recordAt epoch (hd ++ b) (hd.length + o) = recordAt epoch b o := by
  unfold recordAt
  simp only [Nat.add_assoc, slice_behind, List.length_append, Nat.add_le_add_iff_left]

/-- A record that matches stands before the end. -/
theorem lt_of_recordAt {epoch : UInt32} {b : Bytes} {o : ℕ} {e : LogRecord}
    (h : recordAt epoch b o = some e) : o < b.length := by
  unfold recordAt at h
  dsimp only at h
  split_ifs at h with hc
  have := hc.2.2.1
  simp only [recordBytes, kWalHdrBytes] at this
  omega

/-- To trust the checksum it is enough to look at the places of the data area before its end. -/
theorem crcSound_of_lt {epoch : UInt32} {hd data : Bytes} {written : ℕ → LogRecord → Prop} (n : ℕ)
    (hhd : hd.length = kSegmentHdrBytes) (hn : data.length ≤ 8 * n)
    (h : ∀ k < n, ∀ e ∈ recordAt epoch data (8 * k), written (kSegmentHdrBytes + 8 * k) e) :
    CrcSound epoch (hd ++ data) written := by
  intro o ho h8 e he
  obtain ⟨k, rfl⟩ : ∃ k, o = hd.length + 8 * k := by
    obtain ⟨j, hj⟩ := h8
    refine ⟨j - 512, ?_⟩
    simp only [kSegmentHdrBytes] at ho hhd
    omega
  rw [recordAt_append] at he
  have hlt := lt_of_recordAt he
  rw [hhd]
  exact h k (by omega) e he

/-- What holds of the bytes from every eighth place on, `n` places of them; the first stands at
`o`. -/
def EveryEighth (p : ℕ → Bytes → Prop) : ℕ → ℕ → Bytes → Prop
  | 0, _, _ => True
  | n + 1, o, b => p o b ∧ EveryEighth p n (o + 8) (b.drop 8)

instance decidableEveryEighth (p : ℕ → Bytes → Prop) [∀ o b, Decidable (p o b)] :
    ∀ n o b, Decidable (EveryEighth p n o b)
  | 0, _, _ => .isTrue trivial
  | n + 1, o, b =>
    have := decidableEveryEighth p n (o + 8) (b.drop 8)
    inferInstanceAs (Decidable (p o b ∧ EveryEighth p n (o + 8) (b.drop 8)))

theorem EveryEighth.at {p : ℕ → Bytes → Prop} :
    ∀ {n o : ℕ} {b : Bytes}, EveryEighth p n o b → ∀ k < n, p (o + 8 * k) (b.drop (8 * k))
  | 0, _, _, _, _, hk => absurd hk (Nat.not_lt_zero _)
  | _ + 1, _, _, h, 0, _ => h.1
  | n + 1, o, b, h, k + 1, hk => by
    have hrest := h.2.at k (Nat.lt_of_succ_lt_succ hk)
    rw [List.drop_drop, Nat.add_assoc] at hrest
    rwa [Nat.mul_succ, Nat.add_comm (8 * k) 8]

/-- The same with the places walked from the front, each from the one before it. -/
theorem crcSound_of_everyEighth {epoch : UInt32} {hd data : Bytes} {written : ℕ → LogRecord → Prop}
    (n : ℕ) (hhd : hd.length = kSegmentHdrBytes) (hn : data.length ≤ 8 * n)
    (h : EveryEighth (fun o b => ∀ e ∈ recordAt epoch b 0, written o e) n kSegmentHdrBytes data) :
    CrcSound epoch (hd ++ data) written := by
  refine crcSound_of_lt n hhd hn fun k hk e he => h.at k hk e ?_
  have hle := lt_of_recordAt he
  have hshift := recordAt_append epoch (data.take (8 * k)) (data.drop (8 * k)) 0
  rw [List.take_append_drop, List.length_take, Nat.min_eq_left hle.le, Nat.add_zero] at hshift
  exact hshift ▸ he

/-- A returned record matches at its offset and carries the expected LSN. -/
theorem recordAt_of_event {r : SegmentReader} {ev : LogRecord} (h : r.scan = .event ev) :
    recordAt r.epoch r.mapped r.offset = some ev ∧
      (r.expectedLsn ≠ 0 → ev.lsn = r.expectedLsn) := by
  unfold scan at h
  split_ifs at h with h1 h2 h3 h4 h5
  have hmagic : (WalHdr.decode (slice r.mapped r.offset kWalHdrBytes)).magic = kWalMagic := by
    rw [WalHdr.decode, slice, slice, List.drop_zero, List.take_take]
    exact not_ne_iff.mp h4
  unfold scanRecord at h
  dsimp only at h
  split_ifs at h with h6 h7 h8 h9 h10
  obtain rfl := Scan.event.inj h
  refine ⟨?_, fun hne => ?_⟩
  · rw [recordAt]
    exact if_pos ⟨hmagic, not_ne_iff.mp h6, by omega, not_ne_iff.mp h9⟩
  · by_contra hlsn
    exact h10 ⟨hne, hlsn⟩

/-- Where a record matches the magic stands. -/
theorem magic_of_recordAt {epoch : UInt32} {b : Bytes} {o : ℕ} {e : LogRecord}
    (h : recordAt epoch b o = some e) : decU32 (slice b o 4) = kWalMagic := by
  unfold recordAt at h
  dsimp only at h
  split_ifs at h with hmatch
  have hmagic := hmatch.1
  rw [WalHdr.decode] at hmagic
  dsimp only at hmagic
  rwa [slice, slice, List.drop_zero, List.take_take] at hmagic

/-! ### Runs of the reader -/

/-- Calls of `next` that each returned a record. -/
inductive Steps : SegmentReader → List LogRecord → SegmentReader → Prop
  | nil (r : SegmentReader) : Steps r [] r
  | cons {r r' r'' : SegmentReader} {ev : LogRecord} {evs : List LogRecord} :
      r.next = (some ev, r') → Steps r' evs r'' → Steps r (ev :: evs) r''

/-- Records read and then others. -/
theorem Steps.append {r r' r'' : SegmentReader} {evs evs' : List LogRecord} (h : Steps r evs r')
    (h' : Steps r' evs' r'') : Steps r (evs ++ evs') r'' := by
  induction h with
  | nil r => exact h'
  | cons hn _ ih => exact .cons hn (ih h')

/-- Reading until `next` returns none. -/
def Reads (r : SegmentReader) (evs : List LogRecord) (r' : SegmentReader) : Prop :=
  ∃ rm, Steps r evs rm ∧ rm.next = (none, r')

/-- `readAll` calls `next` often enough. -/
theorem reads_readAll {r : SegmentReader} (hb : 0 < r.blockSize) :
    Reads r r.readAll.1 r.readAll.2 := by
  rw [readAll]
  generalize hn : r.mapped.length - r.offset + 1 = n
  have hlt : r.mapped.length - r.offset < n := by omega
  clear hn
  induction n generalizing r with
  | zero => omega
  | succ n ih =>
    obtain ⟨o, reason, ho, -, h⟩ | ⟨o, ev, ho, -, hl, he, h⟩ := next_cases hb
    · rw [readUpTo, h]
      exact ⟨r, .nil r, h⟩
    · rw [readUpTo, h]
      have hpos : 0 < recordBytes ev.payload.length := by
        simp [recordBytes, kWalHdrBytes]
      obtain ⟨rm, hsteps, hnone⟩ := ih (r := { r with offset := o }.accept ev) hb (by
        simp only [accept]
        omega)
      exact ⟨rm, .cons h hsteps, hnone⟩

/-- Reading is deterministic. -/
theorem Reads.unique {r r₁ r₂ : SegmentReader} {evs₁ evs₂ : List LogRecord}
    (h₁ : Reads r evs₁ r₁) (h₂ : Reads r evs₂ r₂) : evs₁ = evs₂ ∧ r₁ = r₂ := by
  obtain ⟨rm, hs, hn⟩ := h₁
  obtain ⟨rm', hs', hn'⟩ := h₂
  induction hs generalizing evs₂ with
  | nil r =>
    cases hs' with
    | nil => exact ⟨rfl, (Prod.mk.inj (hn.symm.trans hn')).2⟩
    | cons h _ => simp [hn] at h
  | cons h _ ih =>
    cases hs' with
    | nil => simp [hn'] at h
    | cons h' hs' =>
      obtain ⟨hev, rfl⟩ := Prod.mk.inj (h.symm.trans h')
      obtain ⟨rfl, rfl⟩ := ih hn hs'
      exact ⟨by rw [Option.some.inj hev], rfl⟩

/-- `readAll` collects the records up to the stop. -/
theorem Reads.readAll_eq {r r' : SegmentReader} {evs : List LogRecord} (hb : 0 < r.blockSize)
    (h : Reads r evs r') : r.readAll = (evs, r') := by
  obtain ⟨h1, h2⟩ := (reads_readAll hb).unique h
  exact Prod.ext h1 h2

/-- Records read, and then all the others up to the stop. -/
theorem Steps.reads {r r' r'' : SegmentReader} {evs evs' : List LogRecord} (h : Steps r evs r')
    (h' : Reads r' evs' r'') : Reads r (evs ++ evs') r'' := by
  obtain ⟨rm, hs, hn⟩ := h'
  exact ⟨rm, h.append hs, hn⟩

/-! ### Whole records -/

section Record

variable {r : SegmentReader} {ev : LogRecord}

/-- Bytes one after the other, the later ones counting more. -/
theorem ofLe_append (xs ys : Bytes) : ofLe (xs ++ ys) = ofLe xs + 256 ^ xs.length * ofLe ys := by
  induction xs with
  | nil => simp [ofLe]
  | cons x xs ih =>
    rw [List.cons_append, ofLe, ih, ofLe, List.length_cons, pow_succ]
    ring

/-- What `append` wrote is returned as it was given, if its LSN is the expected one. -/
theorem scan_encodeRecord (h : HoldsAt r.mapped r.offset (encodeRecord r.epoch ev))
    (hlen : ev.payload.length ≤ kMaxPayload) (hlsn : ev.lsn < 2 ^ 64)
    (hexp : r.expectedLsn = ev.lsn) : r.scan = .event ev := by
  have hfit : r.offset + recordBytes ev.payload.length ≤ r.mapped.length := by
    have := h.length_le (fun he => by
      have := congrArg List.length he
      simp [recordBytes, kWalHdrBytes] at this)
    rwa [length_encodeRecord] at this
  have hhdr : slice r.mapped r.offset kWalHdrBytes = (ev.sealed r.epoch).encode := by
    rw [← WalHdr.length_encode (ev.sealed r.epoch)]
    exact h.left.slice_eq
  have hpay : slice r.mapped (r.offset + kWalHdrBytes) ev.payload.length = ev.payload := by
    have := h.slice_part
    rwa [WalHdr.length_encode] at this
  have hmagic : slice r.mapped r.offset 4 = encU32 kWalMagic := h.left.left.slice_eq
  -- the first word is not zero because the magic is not
  have hword : ofLe (slice r.mapped r.offset 8) ≠ 0 := by
    have hw : HoldsAt r.mapped r.offset
      (encU32 kWalMagic ++ encU32 (ev.sealed r.epoch).crc32c) := by
      have := h.left
      rw [WalHdr.encode, ← List.append_assoc] at this
      exact this.left
    have := hw.slice_eq
    simp only [List.length_append, length_encU32, Nat.reduceAdd] at this
    rw [this, ofLe_append]
    have : ofLe (encU32 kWalMagic) ≠ 0 := by decide
    omega
  have hlen' : (UInt16.ofNat ev.payload.length).toNat = ev.payload.length := by
    refine UInt16.toNat_ofNat_of_lt ?_
    simp only [kMaxPayload, UInt16.size] at hlen ⊢
    omega
  have hlsn' : (UInt64.ofNat ev.lsn).toNat = ev.lsn := UInt64.toNat_ofNat_of_lt hlsn
  have hrec : recordBytes ev.payload.length = kWalHdrBytes + pad8 ev.payload.length := rfl
  unfold scan
  rw [if_neg (by omega), if_neg hword, if_neg (by rw [hmagic, decU32_encU32]; simp)]
  unfold scanRecord
  rw [hhdr, WalHdr.decode_encode]
  simp only [LogRecord.sealed, LogRecord.header, hlen', hpay, hlsn', hexp]
  rw [if_neg (by simp), if_neg (by omega), if_neg (by omega), if_neg (by
    simp [LogRecord.crc, LogRecord.header]), if_neg (by simp)]

/-- **A record that is whole is read back.** -/
theorem next_encodeRecord (h : HoldsAt r.mapped r.offset (encodeRecord r.epoch ev))
    (hlen : ev.payload.length ≤ kMaxPayload) (hlsn : ev.lsn < 2 ^ 64)
    (hexp : r.expectedLsn = ev.lsn) : r.next = (some ev, r.accept ev) := by
  refine next_of_event ?_ (scan_encodeRecord h hlen hlsn hexp)
  have := h.length_le (fun he => by
    have := congrArg List.length he
    simp [recordBytes, kWalHdrBytes] at this)
  rw [length_encodeRecord, recordBytes, kWalHdrBytes] at this
  omega

end Record

/-! ### Where the records of a group begin -/

/-- Where each of some records begins that are written one after the other from an offset on. -/
def starts : ℕ → List LogRecord → List (ℕ × LogRecord)
  | _, [] => []
  | off, r :: rs => (off, r) :: starts (off + recordBytes r.payload.length) rs

/-- Records that stand in the bytes stand each at its place. -/
theorem holdsAt_starts {epoch : UInt32} {b : Bytes} {rs : List LogRecord} {off : ℕ}
    (h : HoldsAt b off (encodeRecords epoch rs)) {p : ℕ × LogRecord} (hp : p ∈ starts off rs) :
    HoldsAt b p.1 (encodeRecord epoch p.2) ∧ p.2 ∈ rs := by
  induction rs generalizing off with
  | nil => cases hp
  | cons r rs ih =>
    rw [encodeRecords_cons] at h
    obtain rfl | hp := List.mem_cons.mp hp
    · exact ⟨h.left, List.mem_cons_self⟩
    · have hright := h.right
      rw [length_encodeRecord] at hright
      obtain ⟨hheld, hmem⟩ := ih hright hp
      exact ⟨hheld, List.mem_cons_of_mem r hmem⟩

/-- A record that was written matches where it stands. -/
theorem recordAt_encodeRecord {epoch : UInt32} {b : Bytes} {o : ℕ} {ev : LogRecord}
    (h : HoldsAt b o (encodeRecord epoch ev)) (hlen : ev.payload.length ≤ kMaxPayload)
    (hlsn : ev.lsn < 2 ^ 64) : recordAt epoch b o = some ev :=
  (recordAt_of_event (r := ⟨b, o, 0, 0, epoch, 0, ev.lsn, 0, .clean⟩)
    (scan_encodeRecord h hlen hlsn rfl)).1

/-! ### Zeros -/

/-- Zeros say zero. -/
theorem ofLe_replicate_zero (n : ℕ) : ofLe (List.replicate n 0) = 0 := by
  induction n with
  | zero => rfl
  | succ n ih => rw [List.replicate_succ, ofLe, ih]; rfl

/-- Padding inside a block is crossed to the boundary, when a header still fits before the end. -/
theorem next_pad {r : SegmentReader} (hb : 0 < r.blockSize) (hmod : r.offset % r.blockSize ≠ 0)
    (hz : HoldsAt r.mapped r.offset (List.replicate 8 0))
    (hroom : r.offset + kWalHdrBytes ≤ r.mapped.length) :
    r.next = { r with offset := padToBlock r.offset r.blockSize }.next := by
  have hword : ofLe (slice r.mapped r.offset 8) = 0 := by
    have := hz.slice_eq
    rw [List.length_replicate] at this
    rw [this, ofLe_replicate_zero]
  have hpos : 0 < kWalHdrBytes := by decide
  refine next_of_skip hb (by omega) ?_
  rw [scan, if_neg (by omega), if_pos hword, if_neg hmod]

/-- Zeros to the end of the mapping end the log. -/
theorem next_zeros {r : SegmentReader} (hb : 0 < r.blockSize)
    (hz : ∀ x ∈ r.mapped.drop r.offset, x = 0) :
    ∃ o, r.offset ≤ o ∧ r.next = (none, { r with offset := o, stopReason := .clean }) := by
  have hword : ∀ o, r.offset ≤ o → ofLe (slice r.mapped o 8) = 0 := by
    intro o ho
    have hsub : ∀ x ∈ slice r.mapped o 8, x = 0 := by
      intro x hx
      refine hz x ?_
      rw [show o = r.offset + (o - r.offset) by omega, slice, ← List.drop_drop] at hx
      exact List.mem_of_mem_drop (List.mem_of_mem_take hx)
    rw [List.eq_replicate_of_mem hsub, ofLe_replicate_zero]
  have hall : ∀ o, r.offset ≤ o → (r.mapped.drop o).all (· = 0) = true := by
    intro o ho
    rw [List.all_eq_true]
    intro x hx
    rw [show o = r.offset + (o - r.offset) by omega, ← List.drop_drop] at hx
    exact decide_eq_true (hz x (List.mem_of_mem_drop hx))
  -- at a boundary the scan stops
  have hstop : ∀ o, r.offset ≤ o → o % r.blockSize = 0 →
      { r with offset := o }.next = (none, { r with offset := o, stopReason := .clean }) := by
    intro o ho hmod
    rcases Nat.lt_or_ge o r.mapped.length with hlt | hge
    · refine next_of_stop hlt ?_
      unfold scan
      dsimp only
      rw [if_pos (hall o ho), if_pos (hword o ho), if_pos hmod]
      split_ifs <;> rfl
    · exact next_of_end hge
  rcases Nat.lt_or_ge r.offset r.mapped.length with hlt | hge
  · by_cases hshort : r.mapped.length - r.offset < kWalHdrBytes
    · refine ⟨r.offset, le_rfl, next_of_stop hlt ?_⟩
      rw [scan, if_pos hshort, if_pos (hall _ le_rfl)]
    · by_cases hmod : r.offset % r.blockSize = 0
      · exact ⟨r.offset, le_rfl, hstop _ le_rfl hmod⟩
      · have hgt := lt_padToBlock hb hmod
        refine ⟨padToBlock r.offset r.blockSize, hgt.le, ?_⟩
        rw [← hstop _ hgt.le (Nat.mod_eq_zero_of_dvd (padToBlock_dvd _ _))]
        refine next_of_skip hb hlt ?_
        rw [scan, if_neg hshort, if_pos (hword _ le_rfl), if_neg hmod]
  · exact ⟨r.offset, le_rfl, next_of_end hge⟩

/-! ### Runs of records -/

/-- The records carry consecutive LSNs from `n` on. -/
def Numbered : ℕ → List LogRecord → Prop
  | _, [] => True
  | n, ev :: evs => ev.lsn = n ∧ Numbered (n + 1) evs

/-- The LSNs of numbered records. -/
theorem Numbered.lsn_bounds {n : ℕ} {rs : List LogRecord} (h : Numbered n rs) {r : LogRecord}
    (hr : r ∈ rs) : n ≤ r.lsn ∧ r.lsn < n + rs.length := by
  induction rs generalizing n with
  | nil => simp at hr
  | cons ev rs ih =>
    rw [List.length_cons]
    obtain rfl | hr := List.mem_cons.mp hr
    · exact ⟨h.1.ge, by rw [h.1]; omega⟩
    · have := ih h.2 hr
      omega

/-- Records with the LSNs of a log and taken from it are its beginning. -/
theorem Numbered.isPrefix {n : ℕ} {evs log : List LogRecord} (hlog : Numbered n log)
    (hevs : Numbered n evs) (hmem : ∀ ev ∈ evs, ev ∈ log) : evs <+: log := by
  induction evs generalizing n log with
  | nil => exact List.nil_prefix
  | cons ev evs ih =>
    cases log with
    | nil => exact absurd (hmem ev List.mem_cons_self) (by simp)
    | cons l log =>
      have hev : ev = l := by
        refine (List.mem_cons.mp (hmem ev List.mem_cons_self)).resolve_right fun hin => ?_
        have := hlog.2.lsn_bounds hin
        have := hevs.1
        omega
      subst hev
      refine List.prefix_cons_inj ev |>.mpr (ih hlog.2 hevs.2 fun ev' hev' => ?_)
      refine (List.mem_cons.mp (hmem ev' (List.mem_cons_of_mem ev hev'))).resolve_left fun he => ?_
      have := hevs.2.lsn_bounds hev'
      have := hlog.1
      subst he
      omega

/-- Records one after the other are numbered when the second ones go on where the first ones end. -/
theorem numbered_append {n : ℕ} {rs ss : List LogRecord} :
    Numbered n (rs ++ ss) ↔ Numbered n rs ∧ Numbered (n + rs.length) ss := by
  induction rs generalizing n with
  | nil => simp [Numbered]
  | cons ev rs ih =>
    rw [List.cons_append, Numbered, ih, Numbered, List.length_cons, and_assoc,
      show n + 1 + rs.length = n + (rs.length + 1) by omega]

/-- The records of a numbered log up to an LSN are its beginning. -/
theorem Numbered.filter_le {n : ℕ} {rs ss : List LogRecord} (h : Numbered (n + 1) (rs ++ ss)) :
    (rs ++ ss).filter (fun r => decide (r.lsn ≤ n + rs.length)) = rs := by
  obtain ⟨h1, h2⟩ := numbered_append.mp h
  rw [List.filter_append, List.filter_eq_self.mpr, List.filter_eq_nil_iff.mpr, List.append_nil]
  · intro r hr
    have := h2.lsn_bounds hr
    simp only [decide_eq_true_eq]
    omega
  · intro r hr
    have := h1.lsn_bounds hr
    simp only [decide_eq_true_eq]
    omega

/-- The reader after it returned the given records. -/
def acceptAll (r : SegmentReader) (evs : List LogRecord) : SegmentReader := evs.foldl accept r

@[simp] theorem acceptAll_nil (r : SegmentReader) : r.acceptAll [] = r := rfl

@[simp]
theorem acceptAll_cons (r : SegmentReader) (ev : LogRecord) (evs : List LogRecord) :
    r.acceptAll (ev :: evs) = (r.accept ev).acceptAll evs := rfl

/-- Returning records moves the offset past them and leaves the segment's data alone. -/
theorem acceptAll_spec (r : SegmentReader) (evs : List LogRecord) :
    (r.acceptAll evs).mapped = r.mapped ∧ (r.acceptAll evs).blockSize = r.blockSize ∧
      (r.acceptAll evs).epoch = r.epoch ∧ (r.acceptAll evs).firstLsn = r.firstLsn ∧
      (r.acceptAll evs).offset = r.offset + (encodeRecords r.epoch evs).length := by
  induction evs generalizing r with
  | nil => simp
  | cons ev evs ih =>
    obtain ⟨h1, h2, h3, h4, h5⟩ := ih (r.accept ev)
    refine ⟨h1, h2, h3, h4, ?_⟩
    rw [acceptAll_cons, h5, encodeRecords_cons, List.length_append, length_encodeRecord]
    simp only [accept]
    omega

/-- The log would be resumed at the block behind the last record. -/
theorem acceptAll_resumeOffset (r : SegmentReader) {evs : List LogRecord} (h : evs ≠ []) :
    (r.acceptAll evs).resumeOffset = padToBlock (r.acceptAll evs).offset r.blockSize := by
  induction evs generalizing r with
  | nil => exact absurd rfl h
  | cons ev evs ih =>
    rw [acceptAll_cons]
    cases evs with
    | nil => rfl
    | cons ev' evs => exact ih (r.accept ev) (by simp)

/-- The reader expects the LSN behind the last record. -/
theorem acceptAll_lsn (r : SegmentReader) {evs : List LogRecord}
    (hnum : Numbered r.expectedLsn evs) (hlt : r.expectedLsn + evs.length < 2 ^ 64) :
    (r.acceptAll evs).expectedLsn = r.expectedLsn + evs.length ∧
      (evs ≠ [] → (r.acceptAll evs).lastValidLsn + 1 = r.expectedLsn + evs.length) := by
  induction evs generalizing r with
  | nil => simp
  | cons ev evs ih =>
    obtain ⟨hlsn, hnum⟩ := hnum
    rw [List.length_cons] at hlt
    have hexp : (r.accept ev).expectedLsn = r.expectedLsn + 1 := by
      simp only [accept, hlsn]
      exact Nat.mod_eq_of_lt (by omega)
    obtain ⟨h1, h2⟩ := ih (r.accept ev) (by rwa [hexp]) (by rw [hexp]; omega)
    rw [hexp] at h1 h2
    refine ⟨by rw [acceptAll_cons, h1, List.length_cons]; omega, fun _ => ?_⟩
    rw [acceptAll_cons, List.length_cons]
    rcases eq_or_ne evs [] with rfl | hne
    · simp [accept, hlsn]
    · rw [h2 hne]
      omega

/-- A run of whole records is read back. -/
theorem steps_records {r : SegmentReader} {evs : List LogRecord}
    (h : HoldsAt r.mapped r.offset (encodeRecords r.epoch evs))
    (hlen : ∀ ev ∈ evs, ev.payload.length ≤ kMaxPayload) (hnum : Numbered r.expectedLsn evs)
    (hlt : r.expectedLsn + evs.length < 2 ^ 64) : Steps r evs (r.acceptAll evs) := by
  induction evs generalizing r with
  | nil => exact .nil r
  | cons ev evs ih =>
    obtain ⟨hlsn, hnum⟩ := hnum
    rw [encodeRecords_cons] at h
    rw [List.length_cons] at hlt
    have hexp : (r.accept ev).expectedLsn = r.expectedLsn + 1 := by
      simp only [accept, hlsn]
      exact Nat.mod_eq_of_lt (by omega)
    refine .cons (next_encodeRecord h.left (hlen ev List.mem_cons_self) (by omega) hlsn.symm)
      (ih ?_ (fun ev' hev' => hlen ev' (List.mem_cons_of_mem ev hev')) (by rwa [hexp])
        (by rw [hexp]; omega))
    have := h.right
    rwa [length_encodeRecord] at this

/-! ### Runs of groups -/

/-- The reader is at a block boundary, up to padding that it still has to cross. -/
structure AtBoundary (r : SegmentReader) (off : ℕ) : Prop where
  resume : r.resumeOffset = off
  boundary : off = padToBlock r.offset r.blockSize
  dvd8 : 8 ∣ r.offset
  zeros : HoldsAt r.mapped r.offset (List.replicate (off - r.offset) 0)

/-- Before a group, crossing the padding changes nothing else. -/
theorem AtBoundary.next_eq {r : SegmentReader} {off : ℕ} (h : AtBoundary r off)
    (hb : BlockOk r.blockSize) (hroom : off + kWalHdrBytes ≤ r.mapped.length) :
    r.next = { r with offset := off }.next := by
  have hpos : 0 < r.blockSize := hb.zero_lt
  by_cases hmod : r.offset % r.blockSize = 0
  · have : off = r.offset := by
      rw [h.boundary, padToBlock_of_dvd hpos (Nat.dvd_of_mod_eq_zero hmod)]
    rw [this]
  · have hgt := lt_padToBlock hpos hmod
    have h8 : 8 ∣ off := hb.dvd8.trans (h.boundary ▸ padToBlock_dvd _ _)
    have hsplit : off - r.offset = 8 + (off - r.offset - 8) := by
      have := h.dvd8
      have := h.boundary
      omega
    have hz : HoldsAt r.mapped r.offset (List.replicate 8 0) := by
      have hz := h.zeros
      rw [hsplit, List.replicate_add] at hz
      exact hz.left
    have := h.boundary
    rw [next_pad hpos hmod hz (by omega), ← h.boundary]

/-- A run of whole groups is read back; the reader is then at the boundary after them. -/
theorem steps_groups {groups : List (List LogRecord)} {r : SegmentReader} {off : ℕ}
    (hat : AtBoundary r off) (hb : BlockOk r.blockSize)
    (h : HoldsAt r.mapped off (groups.flatMap (groupBytes r.epoch r.blockSize)))
    (hne : ∀ g ∈ groups, g ≠ []) (hlen : ∀ ev ∈ groups.flatten, ev.payload.length ≤ kMaxPayload)
    (hnum : Numbered r.expectedLsn groups.flatten)
    (hlt : r.expectedLsn + groups.flatten.length < 2 ^ 64) :
    ∃ r', Steps r groups.flatten r' ∧
      AtBoundary r' (off + (groups.flatMap (groupBytes r.epoch r.blockSize)).length) ∧
      r'.mapped = r.mapped ∧ r'.blockSize = r.blockSize ∧ r'.epoch = r.epoch ∧
      r'.firstLsn = r.firstLsn ∧ r'.expectedLsn = r.expectedLsn + groups.flatten.length ∧
      (groups ≠ [] → r'.lastValidLsn + 1 = r.expectedLsn + groups.flatten.length) ∧
      (groups = [] → r' = r) := by
  induction groups generalizing r off with
  | nil => exact ⟨r, .nil r, by simpa using hat, rfl, rfl, rfl, rfl, rfl, by simp, fun _ => rfl⟩
  | cons g gs ih =>
    have hpos : 0 < r.blockSize := hb.zero_lt
    rw [List.flatMap_cons] at h
    rw [List.flatten_cons] at hnum hlt hlen
    rw [List.length_append] at hlt
    obtain ⟨hnum1, hnum2⟩ := numbered_append.mp hnum
    have hg : g ≠ [] := hne g List.mem_cons_self
    have hrecs : HoldsAt r.mapped off (encodeRecords r.epoch g) := h.left.left
    have hglen : 0 < (encodeRecords r.epoch g).length := by
      obtain ⟨ev, evs, rfl⟩ := List.exists_cons_of_ne_nil hg
      rw [encodeRecords_cons, List.length_append, length_encodeRecord, recordBytes, kWalHdrBytes]
      omega
    have hroom : off + kWalHdrBytes ≤ r.mapped.length := by
      have h1 := h.left.length_le (by
        rw [← List.length_pos_iff, length_groupBytes hpos]
        exact padToBlock_pos hpos hglen)
      obtain ⟨ev, evs, rfl⟩ := List.exists_cons_of_ne_nil hg
      have h2 := le_padToBlock hpos (encodeRecords r.epoch (ev :: evs)).length
      rw [length_groupBytes hpos] at h1
      rw [encodeRecords_cons, List.length_append, length_encodeRecord, recordBytes] at h1 h2
      omega
    -- the records of the group, read from the boundary
    set r₁ : SegmentReader := { r with offset := off } with hr₁
    have hsteps₁ : Steps r₁ g (r₁.acceptAll g) :=
      steps_records hrecs (fun ev hev => hlen ev (List.mem_append_left _ hev)) hnum1
        (show r.expectedLsn + g.length < 2 ^ 64 by omega)
    have hsteps : Steps r g (r₁.acceptAll g) := by
      cases hsteps₁ with
      | nil => exact absurd rfl hg
      | cons hn ht => exact .cons ((hat.next_eq hb hroom).trans hn) ht
    obtain ⟨hm, hbl, hep, hfirst, hoff⟩ := r₁.acceptAll_spec g
    obtain ⟨hexp, hlast⟩ := r₁.acceptAll_lsn hnum1
      (show r.expectedLsn + g.length < 2 ^ 64 by omega)
    have hdvd : r.blockSize ∣ off := hat.boundary ▸ padToBlock_dvd _ _
    have hpadlen := length_groupBytes hpos r.epoch g
    have hbound : padToBlock (r₁.acceptAll g).offset r.blockSize =
        off + (groupBytes r.epoch r.blockSize g).length := by
      rw [hoff, hpadlen]
      exact padToBlock_add hpos hdvd _
    have hat' : AtBoundary (r₁.acceptAll g) (off + (groupBytes r.epoch r.blockSize g).length) := by
      refine ⟨(r₁.acceptAll_resumeOffset hg).trans hbound, ?_, ?_, ?_⟩
      · rw [hbl]
        exact hbound.symm
      · rw [hoff]
        exact (hb.dvd8.trans hdvd).add (dvd_length_encodeRecords _ _)
      · rw [hm, hoff]
        have hz := h.left.right
        rwa [show off + (groupBytes r.epoch r.blockSize g).length -
          (off + (encodeRecords r.epoch g).length) =
          padToBlock (encodeRecords r.epoch g).length r.blockSize -
            (encodeRecords r.epoch g).length by rw [hpadlen]; omega]
    obtain ⟨r', hs, hat'', hm', hbl', hep', hfirst', hexp', hlast', hnil'⟩ :=
      ih (r := r₁.acceptAll g) hat' (by rwa [hbl]) (by rw [hm, hep, hbl]; exact h.right)
        (fun g' hg' => hne g' (List.mem_cons_of_mem g hg'))
        (fun ev hev => hlen ev (List.mem_append_right _ hev)) (by rw [hexp]; exact hnum2)
        (by rw [hexp]; show r.expectedLsn + g.length + gs.flatten.length < 2 ^ 64; omega)
    have hexp0 : r₁.expectedLsn = r.expectedLsn := rfl
    refine ⟨r', ?_, ?_, hm'.trans hm, hbl'.trans hbl, hep'.trans hep, hfirst'.trans hfirst, ?_,
      fun _ => ?_, by simp⟩
    · rw [List.flatten_cons]
      exact hsteps.append hs
    · rw [List.flatMap_cons, List.length_append, ← Nat.add_assoc]
      rwa [hep, hbl] at hat''
    · rw [hexp', hexp, List.flatten_cons, List.length_append, hexp0]
      omega
    · rw [List.flatten_cons, List.length_append]
      rcases eq_or_ne gs [] with rfl | hne'
      · rw [hnil' rfl, hlast hg, hexp0]
        simp
      · rw [hlast' hne', hexp, hexp0]
        omega

/-! ### Trusting the checksum -/

/-- Under a trusted checksum, what the reader returns is numbered from the LSN it expects and was
written, as long as no written LSN is the last one. -/
theorem Steps.numbered {written : ℕ → LogRecord → Prop} {r r' : SegmentReader}
    {evs : List LogRecord} (h : Steps r evs r') (hb : BlockOk r.blockSize)
    (hcrc : CrcSound r.epoch r.mapped written) (hoff : kSegmentHdrBytes ≤ r.offset)
    (h8 : 8 ∣ r.offset) (hexp : r.expectedLsn ≠ 0)
    (hmax : ∀ o e, o < r.mapped.length → written o e → e.lsn + 1 < 2 ^ 64) :
    Numbered r.expectedLsn evs ∧ ∀ ev ∈ evs, ∃ o, written o ev := by
  induction h with
  | nil r => exact ⟨trivial, by simp⟩
  | @cons r r₁ r' ev evs hn _ ih =>
    obtain ⟨o, reason, -, -, h⟩ | ⟨o, ev', ho, hbd, hlt, hscan, h⟩ :=
      next_cases hb.zero_lt
    · simp [hn] at h
    rw [hn] at h
    obtain ⟨hev, rfl⟩ := Prod.mk.inj h
    obtain rfl := Option.some.inj hev
    obtain ⟨hrec, hlsn⟩ := recordAt_of_event hscan
    have h8o : 8 ∣ o := by
      obtain rfl | hbd := hbd
      · exact h8
      · exact hb.dvd8.trans hbd
    have hw : written o ev := hcrc o (hoff.trans ho) h8o ev hrec
    have hlsn : ev.lsn = r.expectedLsn := hlsn hexp
    have hbound := hmax o ev hlt hw
    have hexp' : ({ r with offset := o }.accept ev).expectedLsn = r.expectedLsn + 1 := by
      simp only [accept, hlsn]
      exact Nat.mod_eq_of_lt (hlsn ▸ hbound)
    obtain ⟨hnum, hall⟩ := ih hb hcrc
      (show kSegmentHdrBytes ≤ o + recordBytes ev.payload.length by omega)
      (h8o.add (dvd_recordBytes _)) (by rw [hexp']; omega) hmax
    refine ⟨⟨hlsn, hexp' ▸ hnum⟩, fun ev' hev' => ?_⟩
    obtain rfl | hev' := List.mem_cons.mp hev'
    · exact ⟨o, hw⟩
    · exact hall ev' hev'

end SegmentReader

end MotorRv
