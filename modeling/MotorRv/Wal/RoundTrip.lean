import MotorRv.Wal.Content
import MotorRv.Wal.Disk

/-!
# Writing and reading back a fresh segment

A segment created by `openCreate` and written by any run of calls: when every write landed, the
reader returns exactly the records handed over and stops cleanly at the writer's offset; when any
blocks are missing, it returns a beginning of the log that has at least the records of the whole
groups before the first hole.

Both results come from one invariant: the requests of the run are a layout of its groups
(`Content`), and requests that stand in the file make the reader return their records
(`Content.steps_take`). For whole writes the reader then meets zeros, or the end. For torn ones it
meets something that was not written as a record there, and that it stops is where the checksum has
to be trusted; `CrcSound` is a hypothesis on the file for this reason.

That hypothesis can be checked without computing a checksum. A record begins with a magic, so if the
groups show the magic only where their records begin (`MagicAtStarts`), whatever matches is a record
that was written (`Content.crcSound`).
-/

namespace MotorRv

open Lib SegmentReader

/-! ### The reader on a created segment -/

theorem effectiveBlock_idem (block : ℕ) :
    effectiveBlock (effectiveBlock block) = effectiveBlock block := by
  rcases h : isValidBlock block with _ | _
  · simp only [effectiveBlock, h, Bool.false_eq_true, if_false]
    split_ifs <;> rfl
  · simp [effectiveBlock, h]

theorem effectiveBlock_le (block : ℕ) : effectiveBlock block ≤ 4096 := by
  unfold effectiveBlock
  split_ifs with h
  · rcases isValidBlock_cases h with rfl | rfl | rfl | rfl <;> decide
  · decide

/-- The reader of a created segment uses the writer's block size. -/
theorem WalOptions.blockSize_hdr (opts : WalOptions) (epoch : UInt32) :
    effectiveBlock (opts.hdr epoch).blockSize.toNat = effectiveBlock opts.blockSize.toNat := by
  have hle := effectiveBlock_le opts.blockSize.toNat
  have htoNat : (opts.hdr epoch).blockSize.toNat = effectiveBlock opts.blockSize.toNat :=
    UInt32.toNat_ofNat_of_lt (by simp only [UInt32.size]; omega)
  rw [htoNat, effectiveBlock_idem]

/-- A file that starts with a header region opens at the start of its data area. -/
theorem open_eq_start {b : Bytes} {h : SegmentHdr} (hb : HoldsAt b 0 h.region) {expected : ℕ}
    (hexp : expected = 0 ∨ h.firstLsn.toNat ≤ expected) :
    SegmentReader.open b expected = (.kOk, start b h) := by
  have hlen : kSegmentHdrBytes ≤ b.length := by
    have := hb.length_le (fun he => by simpa [kSegmentHdrBytes] using congrArg List.length he)
    simpa using this
  unfold SegmentReader.open
  rw [if_neg (by omega), SegmentHdr.check_eq_ok hb]
  dsimp only
  rw [if_neg (by omega)]

/-- The data area starts at a boundary. -/
theorem atBoundary_start (b : Bytes) (h : SegmentHdr) :
    AtBoundary (start b h) kSegmentHdrBytes where
  resume := rfl
  boundary := by
    have hb := BlockOk.effectiveBlock h.blockSize.toNat
    exact (padToBlock_of_dvd hb.zero_lt hb.dvdHdr).symm
  dvd8 := show 8 ∣ kSegmentHdrBytes by decide
  zeros := by simpa [start, ofMapped] using HoldsAt.nil _ _

/-! ### The file of a run -/

section Run

variable {epoch : UInt32} {block base lsn₀ : ℕ} {w : WalT} {log : List LogRecord}
  {groups : List (List LogRecord)} {cur : List LogRecord}

/-- No request covers a position outside the range written so far. -/
theorem Content.not_covers (h : Content epoch block base lsn₀ w log groups cur) {i : ℕ}
    (hi : i < base ∨ w.segOffset ≤ i) : ∀ r ∈ w.backend.accepted, ¬ r.Covers i := by
  rintro r hr ⟨h1, h2⟩
  have hmem : r.placed ∈ layout epoch block base lsn₀ groups :=
    h.requests ▸ List.mem_map_of_mem hr
  obtain ⟨hlo, hhi, -⟩ := layout_bounds hmem
  have hoff := h.segOffset
  simp only [WriteRequest.placed] at hlo hhi
  omega

/-- The groups of intact requests stand one after the other. -/
theorem Content.holdsAt_take (h : Content epoch block base lsn₀ w log groups cur) {b : Bytes}
    {k : ℕ} (hint : ∀ r ∈ w.backend.accepted.take k, Intact b r) :
    HoldsAt b base ((groups.take k).flatMap (groupBytes epoch block)) := by
  refine holdsAt_layout fun p (hp : p ∈ layout epoch block base lsn₀ (groups.take k)) => ?_
  rw [← layout_take, ← h.requests, ← List.map_take] at hp
  obtain ⟨r, hr, rfl⟩ := List.mem_map.mp hp
  exact hint r hr

/-- The last token of the first requests counts the records of the first groups. -/
theorem Content.lastToken_take (h : Content epoch block base lsn₀ w log groups cur) (k : ℕ) :
    lastToken (w.backend.accepted.take k) lsn₀ = lsn₀ + (groups.take k).flatten.length :=
  lastToken_layout (show _ = layout epoch block base lsn₀ (groups.take k) by
    rw [← layout_take, ← h.requests, List.map_take])

/-- The records of the first requests are those of the first groups. -/
theorem Content.filter_take (h : Content epoch block base lsn₀ w log groups cur) (k : ℕ) :
    log.filter (fun r => decide (r.lsn ≤ lastToken (w.backend.accepted.take k) lsn₀)) =
      (groups.take k).flatten := by
  have hcut : log = (groups.take k).flatten ++ ((groups.drop k).flatten ++ cur) := by
    rw [← List.append_assoc, ← List.flatten_append, List.take_append_drop, h.cut]
  have hnum := h.numbered
  rw [h.lastToken_take, hcut]
  rw [hcut] at hnum
  exact hnum.filter_le

/-- From the boundary where the writer began, the reader returns the records of the intact groups
and is then at the boundary after them. -/
theorem Content.steps_take (h : Content epoch block base lsn₀ w log groups cur) {r : SegmentReader}
    (hat : AtBoundary r base) (hblock : r.blockSize = block) (hb : BlockOk block)
    (hepoch : r.epoch = epoch) (hexp : r.expectedLsn = lsn₀ + 1)
    (hlen : r.mapped.length ≤ kMaxOff) (hlsn : 32 * lsn₀ ≤ base) (hbase : base < 2 ^ 64) {k : ℕ}
    (hint : ∀ q ∈ w.backend.accepted.take k, Intact r.mapped q) :
    ∃ r', Steps r (groups.take k).flatten r' ∧
      AtBoundary r' (base + ((groups.take k).flatMap (groupBytes epoch block)).length) ∧
      r'.mapped = r.mapped ∧ r'.blockSize = block ∧ r'.epoch = epoch ∧
      r'.firstLsn = r.firstLsn ∧ r'.expectedLsn = lsn₀ + 1 + (groups.take k).flatten.length ∧
      (groups.take k ≠ [] → r'.lastValidLsn = lsn₀ + (groups.take k).flatten.length) ∧
      (groups.take k = [] → r' = r) := by
  have hholds := h.holdsAt_take hint
  have hcut : log = (groups.take k).flatten ++ ((groups.drop k).flatten ++ cur) := by
    rw [← List.append_assoc, ← List.flatten_append, List.take_append_drop, h.cut]
  have hnum := h.numbered
  rw [hcut] at hnum
  subst hblock hepoch
  -- the records that stand in a file are fewer than its bytes
  have hcount : 32 * (groups.take k).flatten.length ≤
      ((groups.take k).flatMap (groupBytes r.epoch r.blockSize)).length := by
    generalize groups.take k = gs
    induction gs with
    | nil => simp
    | cons g gs ih =>
      have := length_le_encodeRecords r.epoch g
      simp only [List.flatten_cons, List.flatMap_cons, List.length_append, groupBytes] at ih ⊢
      omega
  have hlt : lsn₀ + 1 + (groups.take k).flatten.length < 2 ^ 64 := by
    rcases eq_or_ne ((groups.take k).flatMap (groupBytes r.epoch r.blockSize)) [] with he | hne
    · rw [he, List.length_nil] at hcount
      omega
    · have := hholds.length_le hne
      simp only [kMaxOff] at hlen
      omega
  obtain ⟨r', hs, hat', hm, hbl, hep, hf, he, hl, hnil⟩ := steps_groups hat hb hholds
    (fun g hg => h.nonempty g (List.mem_of_mem_take hg))
    (fun ev hev => h.payload ev (hcut ▸ List.mem_append_left _ hev))
    (hexp ▸ (numbered_append.mp hnum).1) (hexp ▸ hlt)
  refine ⟨r', hs, hat', hm, hbl, hep, hf, by rw [he, hexp], fun hne => ?_, hnil⟩
  have := hl hne
  omega

end Run

/-! ### Whole writes -/

/-- The records of a log up to the last LSN handed to the backend. -/
def WalT.submitted (w : WalT) (log : List LogRecord) : List LogRecord :=
  log.filter fun r => decide (r.lsn ≤ lastToken w.backend.accepted 0)

/-- A created segment with `z` preallocated zeros. -/
def WalOptions.created (opts : WalOptions) (drawn : UInt32) (z : ℕ) : Bytes :=
  (opts.hdr (WalT.epochNext drawn)).region ++ List.replicate z 0

/-- Writes laid out from the end of a file on, all of which landed, are added to it. -/
theorem land_layout {epoch : UInt32} {block : ℕ} (hpos : 0 < block)
    {gs : List (List LogRecord)} : ∀ {rs : List WriteRequest} {b : Bytes} {lsn : ℕ},
      rs.map WriteRequest.placed = layout epoch block b.length lsn gs →
      b.length + (gs.flatMap (groupBytes epoch block)).length ≤ kMaxOff →
      land block (fun _ _ => true) rs b = b ++ gs.flatMap (groupBytes epoch block) := by
  induction gs with
  | nil =>
    intro rs b lsn hrs _
    obtain rfl : rs = [] := List.map_eq_nil_iff.mp hrs
    simp [land]
  | cons g gs ih =>
    intro rs b lsn hrs hend
    obtain ⟨r, rs, rfl, hr, hrs⟩ := List.map_eq_cons_iff.mp hrs
    obtain ⟨hoff, hrest⟩ := Prod.mk.inj hr
    obtain ⟨hbytes, -⟩ := Prod.mk.inj hrest
    rw [List.flatMap_cons, List.length_append] at hend
    rw [land, hoff, hbytes, landWrite_end hpos (dvd_length_groupBytes hpos epoch g) (by omega),
      ih (by rw [List.length_append]; exact hrs) (by rw [List.length_append]; omega),
      List.flatMap_cons, List.append_assoc]

section Created

variable {opts : WalOptions} {drawn : UInt32} {z : ℕ} {w : WalT} {log : List LogRecord}
  {groups : List (List LogRecord)} {cur : List LogRecord} {keep : ℕ → ℕ → Bool}

/-- Bytes stand where those before them end. -/
theorem holdsAt_between (hd xs rest : Bytes) {n : ℕ} (h : hd.length = n) :
    HoldsAt (hd ++ xs ++ rest) n xs :=
  ⟨rest, by rw [List.append_assoc, List.drop_left' h]⟩

/-- What a run on a created segment has handed over. -/
abbrev Created (opts : WalOptions) (drawn : UInt32) (w : WalT) (log : List LogRecord)
    (groups : List (List LogRecord)) (cur : List LogRecord) : Prop :=
  Content (WalT.epochNext drawn) (effectiveBlock opts.blockSize.toNat) kSegmentHdrBytes 0 w log
    groups cur

/-- The file of a run on a created segment, some blocks of whose writes are kept. -/
abbrev createdFile (opts : WalOptions) (drawn : UInt32) (z : ℕ) (keep : ℕ → ℕ → Bool) (w : WalT) :
    Bytes :=
  land (effectiveBlock opts.blockSize.toNat) keep w.backend.accepted (opts.created drawn z)

theorem Created.length_file (opts : WalOptions) (drawn : UInt32) (keep : ℕ → ℕ → Bool) (w : WalT)
    (hz : kSegmentHdrBytes + z ≤ kMaxOff) :
    (createdFile opts drawn z keep w).length ≤ kMaxOff := by
  refine length_land_le ?_
  rw [WalOptions.created, List.length_append, SegmentHdr.length_region, List.length_replicate]
  exact hz

/-- The segment opens at the start of its data area. -/
theorem Created.open_eq (h : Created opts drawn w log groups cur) {expected : ℕ} :
    SegmentReader.open (createdFile opts drawn z keep w) expected =
      (.kOk, start (createdFile opts drawn z keep w) (opts.hdr (WalT.epochNext drawn))) := by
  refine open_eq_start (holdsAt_land ⟨List.replicate z 0, rfl⟩ fun i _ hi =>
    h.not_covers (.inl (by simpa using hi))) ?_
  have : (opts.hdr (WalT.epochNext drawn)).firstLsn.toNat = 1 := rfl
  omega

/-- Past the writer's offset the file is as it was created. -/
theorem Created.getD_file (h : Created opts drawn w log groups cur) {i : ℕ}
    (hi : w.segOffset ≤ i) : (createdFile opts drawn z keep w).getD i 0 = 0 := by
  have hge : kSegmentHdrBytes ≤ i := le_trans (by rw [h.segOffset]; exact Nat.le_add_right _ _) hi
  rw [createdFile, getD_land_of_not_mem (h.not_covers (.inr hi)), WalOptions.created,
    List.getD_eq_getElem?_getD, List.getElem?_append_right (by simpa), List.getElem?_replicate]
  split_ifs <;> rfl

/-- The intact groups of a created segment are read back. -/
theorem Created.steps_take (h : Created opts drawn w log groups cur)
    (hz : kSegmentHdrBytes + z ≤ kMaxOff) {k : ℕ}
    (hint : ∀ q ∈ w.backend.accepted.take k, Intact (createdFile opts drawn z keep w) q) :
    ∃ r', Steps (start (createdFile opts drawn z keep w) (opts.hdr (WalT.epochNext drawn)))
        (groups.take k).flatten r' ∧
      AtBoundary r' (kSegmentHdrBytes + ((groups.take k).flatMap (groupBytes
        (WalT.epochNext drawn) (effectiveBlock opts.blockSize.toNat))).length) ∧
      r'.mapped = createdFile opts drawn z keep w ∧
      r'.blockSize = effectiveBlock opts.blockSize.toNat := by
  obtain ⟨r', hs, hat, hm, hbl, -⟩ := Content.steps_take h (atBoundary_start _ _)
    (opts.blockSize_hdr _) (.effectiveBlock _) rfl rfl (Created.length_file opts drawn keep w hz)
    (by decide) (by decide) hint
  exact ⟨r', hs, hat, hm, hbl⟩

/-- Every run on a created segment hands over a layout of its log. -/
theorem Created.exec (sc : Script) (opts : WalOptions) (drawn : UInt32) (ops : List WalOp) :
    ∃ groups cur, Created opts drawn (((WalT.fresh sc).openCreate opts drawn).1.exec ops).1
      (((WalT.fresh sc).openCreate opts drawn).1.exec ops).2 groups cur :=
  Content.exec sc opts (.ofHdr (opts.hdr (WalT.epochNext drawn))) kSegmentHdrBytes 0 ops

/-- What calls on a created segment have handed over. -/
theorem Created.moves {sc : Script}
    (hm : WalT.Moves ((WalT.fresh sc).openCreate opts drawn).1 log w) :
    ∃ groups cur, Created opts drawn w log groups cur := by
  obtain ⟨fin, cur, h⟩ := (Content.ready sc opts (.ofHdr (opts.hdr (WalT.epochNext drawn)))
    kSegmentHdrBytes 0).moves (.effectiveBlock _) hm
  exact ⟨_, cur, h⟩

/-- Where nothing is torn and the segment is not too long, every write stands in the file. -/
theorem Created.intact (h : Created opts drawn w log groups cur) (hend : w.segOffset ≤ kMaxOff) :
    ∀ q ∈ w.backend.accepted, Intact (createdFile opts drawn z (fun _ _ => true) w) q := by
  have hpos := (BlockOk.effectiveBlock opts.blockSize.toNat).zero_lt
  have hplaced : ∀ q ∈ w.backend.accepted,
      q.placed ∈ layout (WalT.epochNext drawn) (effectiveBlock opts.blockSize.toNat)
        kSegmentHdrBytes 0 groups := fun q hq => h.requests ▸ List.mem_map_of_mem hq
  refine intact_land_all hpos (fun q hq => ?_) (fun q hq => ?_) ?_ _
  · obtain ⟨g, hg⟩ := bytes_of_mem_layout (hplaced q hq)
    rw [show q.bytes = _ from hg]
    exact dvd_length_groupBytes hpos _ _
  · have hle := (layout_bounds (hplaced q hq)).2.1
    rw [← h.segOffset] at hle
    exact hle.trans hend
  · have hpairs := layout_pairwise (WalT.epochNext drawn) (effectiveBlock opts.blockSize.toNat)
      kSegmentHdrBytes 0 groups
    rw [← h.requests, List.pairwise_map] at hpairs
    exact hpairs

/-- Such a file is one that a crash may leave. -/
theorem Created.crash (h : Created opts drawn w log groups cur) (hend : w.segOffset ≤ kMaxOff) :
    Crash (effectiveBlock opts.blockSize.toNat) (opts.created drawn z) w.backend
      (createdFile opts drawn z (fun _ _ => true) w) :=
  ⟨fun _ _ => true, rfl, fun q hq _ => h.intact hend q hq⟩

/-- In it the groups stand behind the header. -/
theorem Created.file_eq (h : Created opts drawn w log groups cur) (hend : w.segOffset ≤ kMaxOff) :
    createdFile opts drawn 0 (fun _ _ => true) w =
      (opts.hdr (WalT.epochNext drawn)).region ++ groups.flatMap
        (groupBytes (WalT.epochNext drawn) (effectiveBlock opts.blockSize.toNat)) := by
  have hcreated : opts.created drawn 0 = (opts.hdr (WalT.epochNext drawn)).region :=
    List.append_nil _
  have hlen := SegmentHdr.length_region (opts.hdr (WalT.epochNext drawn))
  have hrequests := h.requests
  rw [← hlen] at hrequests
  rw [createdFile, hcreated]
  refine land_layout (BlockOk.effectiveBlock _).zero_lt hrequests ?_
  rw [hlen, ← h.segOffset]
  exact hend

end Created

/-- **Write and read back.** For every block size, every run of calls on a created segment and
every backend, if every write landed then the segment opens, and reading it returns exactly the
records handed over, in order, and then stops cleanly at the writer's offset. -/
theorem readAll_eq_submitted (sc : Script) (opts : WalOptions) (drawn : UInt32) (ops : List WalOp)
    (z : ℕ) (hz : kSegmentHdrBytes + z ≤ kMaxOff) :
    let w₀ := ((WalT.fresh sc).openCreate opts drawn).1
    let w := (w₀.exec ops).1
    let log := (w₀.exec ops).2
    let file := createdFile opts drawn z (fun _ _ => true) w
    (∀ q ∈ w.backend.accepted, Intact file q) →
    ∃ r r', SegmentReader.open file 0 = (.kOk, r) ∧ r.readAll = (w.submitted log, r') ∧
      r'.stopReason = .clean ∧ r'.resumeOffset = w.segOffset := by
  intro w₀ w log file hint
  obtain ⟨groups, cur, h⟩ : ∃ groups cur, Created opts drawn w log groups cur :=
    Created.exec sc opts drawn ops
  set n := max groups.length w.backend.accepted.length with hn
  have hgroups : groups.take n = groups := List.take_of_length_le (le_max_left _ _)
  have haccepted : w.backend.accepted.take n = w.backend.accepted :=
    List.take_of_length_le (le_max_right _ _)
  have hint' : ∀ q ∈ w.backend.accepted.take n, Intact file q := fun q hq =>
    hint q (List.mem_of_mem_take hq)
  obtain ⟨r', hs, hat, hm, hbl⟩ := h.steps_take hz hint'
  have hsub : w.submitted log = groups.flatten := by
    have := h.filter_take n
    rwa [haccepted, hgroups] at this
  rw [hgroups, ← h.segOffset] at hat
  rw [hgroups, ← hsub] at hs
  -- from the last record on there are only zeros
  have hpos : 0 < r'.blockSize := hbl ▸ (BlockOk.effectiveBlock _).zero_lt
  have hzeros : ∀ x ∈ r'.mapped.drop r'.offset, x = 0 := by
    intro x hx
    obtain ⟨i, hi, rfl⟩ := List.mem_iff_getElem.mp hx
    have hlt : r'.offset + i < r'.mapped.length := by
      rw [List.length_drop] at hi
      omega
    have hval : (r'.mapped.drop r'.offset)[i] = r'.mapped.getD (r'.offset + i) 0 := by
      rw [List.getElem_drop, List.getD_eq_getElem?_getD, List.getElem?_eq_getElem hlt]
      rfl
    rw [hval]
    rcases Nat.lt_or_ge (r'.offset + i) w.segOffset with hin | hout
    · have hz0 := holdsAt_iff_getElem?.mp hat.zeros i (by rw [List.length_replicate]; omega)
      rw [List.getD_eq_getElem?_getD, hz0, List.getElem?_replicate_of_lt (by omega)]
      rfl
    · rw [hm]
      exact h.getD_file hout
  obtain ⟨o, -, hnext⟩ := next_zeros hpos hzeros
  have hreads : Reads (start file (opts.hdr (WalT.epochNext drawn))) (w.submitted log)
      { r' with offset := o, stopReason := .clean } := ⟨r', hs, hnext⟩
  refine ⟨_, _, h.open_eq, hreads.readAll_eq ?_, rfl, hat.resume⟩
  exact (BlockOk.effectiveBlock _).zero_lt

/-- Where nothing is torn and the segment is not too long, every write of a run stands in the
file. -/
theorem intact_of_landed (sc : Script) (opts : WalOptions) (drawn : UInt32)
    (ops : List WalOp) (z : ℕ)
    (hend : (((WalT.fresh sc).openCreate opts drawn).1.exec ops).1.segOffset ≤ kMaxOff) :
    ∀ q ∈ (((WalT.fresh sc).openCreate opts drawn).1.exec ops).1.backend.accepted,
      Intact (createdFile opts drawn z (fun _ _ => true)
        (((WalT.fresh sc).openCreate opts drawn).1.exec ops).1) q := by
  obtain ⟨groups, cur, h⟩ := Created.exec sc opts drawn ops
  exact h.intact hend

/-- Three records in two groups, each in a block of 512 bytes, with eight preallocated zeros. -/
theorem readAll_eq_submitted_groups :
    let sc : Script := ⟨fun _ => .kOk, fun _ => []⟩
    let opts : WalOptions := ⟨0, 0, 0, 512⟩
    let w₀ := ((WalT.fresh sc).openCreate opts 7).1
    let ops : List WalOp := [.append 3 [1, 2, 3, 4, 5] 9, .append 4 [6] 9, .maybeSubmit 9,
      .append 3 [7, 8] 10, .maybeSubmit 10]
    ∃ r r', SegmentReader.open (createdFile opts 7 8 (fun _ _ => true)
      (w₀.exec ops).1) 0 = (.kOk, r) ∧
      r.readAll = ([⟨1, 9, 3, [1, 2, 3, 4, 5]⟩, ⟨2, 9, 4, [6]⟩, ⟨3, 10, 3, [7, 8]⟩], r') ∧
      r'.stopReason = .clean ∧ r'.resumeOffset = 5120 := by
  intro sc opts w₀ ops
  obtain ⟨r, r', hopen, hread, hclean, hresume⟩ := readAll_eq_submitted sc opts 7 ops 8 (by decide)
    (intact_of_landed sc opts 7 ops 8 (by decide +kernel))
  have hsubmitted : (w₀.exec ops).1.submitted (w₀.exec ops).2 =
      [⟨1, 9, 3, [1, 2, 3, 4, 5]⟩, ⟨2, 9, 4, [6]⟩, ⟨3, 10, 3, [7, 8]⟩] := by decide +kernel
  have hend : (w₀.exec ops).1.segOffset = 5120 := by decide +kernel
  exact ⟨r, r', hopen, hsubmitted ▸ hread, hclean, hend ▸ hresume⟩

/-! ### Torn writes -/

/-- The record is one of the log, and a request that carries it writes its bytes at this offset. -/
def WalT.WrittenAt (w : WalT) (log : List LogRecord) (epoch : UInt32) (o : ℕ) (e : LogRecord) :
    Prop :=
  e ∈ log ∧ ∃ q ∈ w.backend.accepted, e.lsn ≤ q.token ∧ q.offset ≤ o ∧
    HoldsAt q.bytes (o - q.offset) (encodeRecord epoch e)

instance (w : WalT) (log : List LogRecord) (epoch : UInt32) (o : ℕ) (e : LogRecord) :
    Decidable (w.WrittenAt log epoch o e) :=
  inferInstanceAs (Decidable (e ∈ log ∧ ∃ q ∈ w.backend.accepted, e.lsn ≤ q.token ∧ q.offset ≤ o ∧
    HoldsAt q.bytes (o - q.offset) (encodeRecord epoch e)))

/-- The magic stands in the first `n` eighth places of the group only where a record begins. -/
def MagicAtStarts (epoch : UInt32) (block n : ℕ) (g : List LogRecord) : Prop :=
  EveryEighth (fun o b => decU32 (slice b 0 4) = kWalMagic → o ∈ (starts 0 g).map Prod.fst) n 0
    (groupBytes epoch block g)

instance (epoch : UInt32) (block n : ℕ) (g : List LogRecord) :
    Decidable (MagicAtStarts epoch block n g) :=
  inferInstanceAs (Decidable (EveryEighth _ n 0 (groupBytes epoch block g)))

/-- What matches in a group is one of its records, at its place. -/
theorem MagicAtStarts.mem_of_recordAt {epoch : UInt32} {block n j : ℕ} {g : List LogRecord}
    (h : MagicAtStarts epoch block n g) (hn : (groupBytes epoch block g).length ≤ 8 * n)
    (hrec : ∀ r ∈ g, r.payload.length ≤ kMaxPayload ∧ r.lsn < 2 ^ 64) (h8 : 8 ∣ j)
    (hblock : 8 ∣ (groupBytes epoch block g).length) (hj : j < (groupBytes epoch block g).length)
    {rest : Bytes} {e : LogRecord}
    (he : recordAt epoch (groupBytes epoch block g ++ rest) j = some e) :
    e ∈ g ∧ HoldsAt (groupBytes epoch block g) j (encodeRecord epoch e) := by
  obtain ⟨k, rfl⟩ := h8
  have hplace := h.at k (by omega)
  rw [Nat.zero_add] at hplace
  have hmagic : decU32 (slice ((groupBytes epoch block g).drop (8 * k)) 0 4) = kWalMagic := by
    have hsame : slice (groupBytes epoch block g ++ rest) (8 * k) 4 =
        slice (groupBytes epoch block g) (8 * k) 4 :=
      slice_congr fun i _ hi => List.getElem?_append_left (by omega)
    have hm := magic_of_recordAt he
    rw [hsame] at hm
    rwa [slice, List.drop_zero]
  obtain ⟨⟨o, r⟩, hp, rfl⟩ := List.mem_map.mp (hplace hmagic)
  have hstands : HoldsAt (groupBytes epoch block g) 0 (encodeRecords epoch g) := ⟨_, rfl⟩
  have hstands' : HoldsAt (groupBytes epoch block g ++ rest) 0 (encodeRecords epoch g) :=
    ⟨_, by rw [List.drop_zero, groupBytes, List.append_assoc]⟩
  obtain ⟨hheld, hmem⟩ := holdsAt_starts hstands hp
  obtain ⟨hheld', -⟩ := holdsAt_starts hstands' hp
  obtain rfl := Option.some.inj
    ((recordAt_encodeRecord hheld' (hrec r hmem).1 (hrec r hmem).2).symm.trans he)
  exact ⟨hmem, hheld⟩

/-- **The checksum is sound where the magic marks the records only.** If no group has the magic
elsewhere, what matches in the file was written there. -/
theorem Content.crcSound {epoch : UInt32} {block lsn₀ : ℕ} {w : WalT} {log : List LogRecord}
    {groups : List (List LogRecord)} {cur : List LogRecord} {hd : Bytes}
    (h : Content epoch block kSegmentHdrBytes lsn₀ w log groups cur) (hblock : BlockOk block)
    (hhd : hd.length = kSegmentHdrBytes) (hlsn : lsn₀ + log.length < 2 ^ 64) (n : ℕ)
    (hmagic : ∀ g ∈ groups, (groupBytes epoch block g).length ≤ 8 * n ∧
      MagicAtStarts epoch block n g) :
    CrcSound epoch (hd ++ groups.flatMap (groupBytes epoch block)) (w.WrittenAt log epoch) := by
  intro o ho h8 e he
  have hlt := lt_of_recordAt he
  rw [List.length_append] at hlt
  have hin : o - hd.length < (groups.flatMap (groupBytes epoch block)).length := by omega
  obtain ⟨pre, g, post, j, rfl, hj, hjlt⟩ := exists_group hin
  obtain ⟨hn, hstarts⟩ := hmagic g (by simp)
  have hpos := hblock.zero_lt
  have hdvd : 8 ∣ block := hblock.dvd8
  have hpre := hdvd.trans (dvd_length_flatMap_groupBytes hpos epoch pre)
  have hlen : o = (hd ++ pre.flatMap (groupBytes epoch block)).length + j := by
    rw [List.length_append]
    omega
  rw [hlen, List.flatMap_append, List.flatMap_cons, ← List.append_assoc, recordAt_append] at he
  -- the records of the group, in the log
  have hnum := h.numbered
  rw [h.cut, List.flatten_append, List.flatten_cons, List.append_assoc, numbered_append,
    List.append_assoc, numbered_append] at hnum
  have htotal : pre.flatten.length + g.length ≤ log.length := by
    rw [h.cut, List.flatten_append, List.flatten_cons]
    simp only [List.length_append]
    omega
  have hmem : ∀ r ∈ g, r ∈ log := by
    intro r hr
    rw [h.cut]
    simp [hr]
  obtain ⟨hin, hheld⟩ := hstarts.mem_of_recordAt hn (fun r hr => ⟨h.payload r (hmem r hr), by
    have := (hnum.2.1.lsn_bounds hr).2
    omega⟩) (by rw [hlen, List.length_append, hhd] at h8; simp only [kSegmentHdrBytes] at h8; omega)
    (hdvd.trans (dvd_length_groupBytes hpos epoch g)) hjlt he
  -- the request that carries the group
  have hreq : (kSegmentHdrBytes + (pre.flatMap (groupBytes epoch block)).length,
      groupBytes epoch block g, lsn₀ + pre.flatten.length + g.length) ∈
      w.backend.accepted.map WriteRequest.placed := by
    rw [h.requests, layout_append, layout]
    simp
  obtain ⟨q, hq, hplaced⟩ := List.mem_map.mp hreq
  obtain ⟨hoff, hrest⟩ := Prod.mk.inj hplaced
  obtain ⟨hbytes, htoken⟩ := Prod.mk.inj hrest
  rw [List.length_append, hhd] at hlen
  refine ⟨hmem e hin, q, hq, ?_, by omega, ?_⟩
  · have := (hnum.2.1.lsn_bounds hin).2
    omega
  · rw [hbytes, show o - q.offset = j by omega]
    exact hheld

/-- The same for the file of a run on a created segment all of whose writes landed. -/
theorem Created.crcSound {opts : WalOptions} {drawn : UInt32} {w : WalT} {log : List LogRecord}
    {groups : List (List LogRecord)} {cur : List LogRecord}
    (h : Created opts drawn w log groups cur) (hend : w.segOffset ≤ kMaxOff)
    (hlog : log.length < 2 ^ 64) (n : ℕ)
    (hmagic : ∀ g ∈ groups,
      (groupBytes (WalT.epochNext drawn) (effectiveBlock opts.blockSize.toNat) g).length ≤ 8 * n ∧
      MagicAtStarts (WalT.epochNext drawn) (effectiveBlock opts.blockSize.toNat) n g) :
    CrcSound (WalT.epochNext drawn) (createdFile opts drawn 0 (fun _ _ => true) w)
      (w.WrittenAt log (WalT.epochNext drawn)) := by
  rw [h.file_eq hend]
  exact Content.crcSound h (.effectiveBlock _) (SegmentHdr.length_region _) (by omega) n hmagic

/-- An LSN is small next to the offset it is written at. -/
theorem Content.lsn_lt {epoch : UInt32} {block base lsn₀ : ℕ} {w : WalT} {log : List LogRecord}
    {groups : List (List LogRecord)} {cur : List LogRecord}
    (h : Content epoch block base lsn₀ w log groups cur) (hlsn : 32 * lsn₀ ≤ base) {o : ℕ}
    {e : LogRecord} (hw : w.WrittenAt log epoch o e) (ho : o ≤ kMaxOff) :
    e.lsn + 1 < 2 ^ 64 := by
  obtain ⟨-, q, hq, htok, hqo, -⟩ := hw
  have hmem : q.placed ∈ layout epoch block base lsn₀ groups :=
    h.requests ▸ List.mem_map_of_mem hq
  obtain ⟨-, -, h3⟩ := layout_bounds hmem
  have hsmall : q.bytes.length ≤ kMaxGroupBytes := by
    have hall : ∀ (gs : List (List LogRecord)) off lsn,
        (∀ g ∈ gs, (groupBytes epoch block g).length ≤ kMaxGroupBytes) →
        ∀ p ∈ layout epoch block off lsn gs, p.2.1.length ≤ kMaxGroupBytes := by
      intro gs
      induction gs with
      | nil => simp [layout]
      | cons g gs ih =>
        intro off lsn hgs p hp
        obtain rfl | hp := List.mem_cons.mp hp
        · exact hgs g List.mem_cons_self
        · exact ih _ _ (fun g' hg' => hgs g' (List.mem_cons_of_mem g hg')) p hp
    exact hall groups base lsn₀ h.small _ hmem
  simp only [WriteRequest.placed] at h3
  simp only [kMaxOff, kMaxGroupBytes] at ho hsmall
  omega

/-- Of a created segment some blocks of whose writes are kept, the reader returns a beginning of the
log, and at least what the first whole groups hold. -/
theorem Created.torn {opts : WalOptions} {drawn : UInt32} {z : ℕ} {w : WalT} {log : List LogRecord}
    {groups : List (List LogRecord)} {cur : List LogRecord} {keep : ℕ → ℕ → Bool}
    (h : Created opts drawn w log groups cur) (hz : kSegmentHdrBytes + z ≤ kMaxOff)
    (hcrc : CrcSound (WalT.epochNext drawn) (createdFile opts drawn z keep w)
      (w.WrittenAt log (WalT.epochNext drawn))) :
    ∃ r, SegmentReader.open (createdFile opts drawn z keep w) 0 = (.kOk, r) ∧
      r.readAll.1 <+: log ∧
      ∀ k, (∀ q ∈ w.backend.accepted.take k, Intact (createdFile opts drawn z keep w) q) →
        log.filter (fun e => decide (e.lsn ≤ lastToken (w.backend.accepted.take k) 0)) <+:
          r.readAll.1 := by
  have hlen := Created.length_file opts drawn keep w hz
  have hblock : BlockOk (start (createdFile opts drawn z keep w)
      (opts.hdr (WalT.epochNext drawn))).blockSize := .effectiveBlock _
  obtain ⟨rm, hsteps, hnone⟩ := reads_readAll hblock.zero_lt
  refine ⟨_, h.open_eq, ?_, fun k hint => ?_⟩
  · obtain ⟨hnum, hmem⟩ := hsteps.numbered hblock hcrc le_rfl
      (show 8 ∣ kSegmentHdrBytes by decide) (show 1 ≠ 0 by decide)
      fun o e ho hw => h.lsn_lt (by decide) hw (ho.le.trans hlen)
    refine h.numbered.isPrefix hnum fun ev hev => ?_
    obtain ⟨o, hw⟩ := hmem ev hev
    exact hw.1
  · obtain ⟨r', hs, -, -, hbl⟩ := h.steps_take hz hint
    rw [h.filter_take]
    obtain ⟨hevs, -⟩ : _ ∧ _ := Reads.unique ⟨rm, hsteps, hnone⟩
      (hs.reads (reads_readAll (hbl ▸ (BlockOk.effectiveBlock _).zero_lt)))
    rw [hevs]
    exact List.prefix_append _ _

/-- After a crash at any point of a writer on a created segment, every record up to the durable LSN
is read back. -/
theorem mem_readAll_of_durable {sc : Script} {opts : WalOptions} {drawn : UInt32} {z : ℕ} {w : WalT}
    {log : List LogRecord} (hm : WalT.Moves ((WalT.fresh sc).openCreate opts drawn).1 log w)
    (hz : kSegmentHdrBytes + z ≤ kMaxOff) {file : Bytes}
    (hcrash : Crash (effectiveBlock opts.blockSize.toNat) (opts.created drawn z) w.backend file)
    (hcrc : CrcSound (WalT.epochNext drawn) file (w.WrittenAt log (WalT.epochNext drawn))) :
    ∃ r, SegmentReader.open file 0 = (.kOk, r) ∧ r.readAll.1 <+: log ∧
      ∀ ev ∈ log, ev.lsn ≤ w.durableLsn → ev ∈ r.readAll.1 := by
  obtain ⟨groups, cur, h⟩ := Created.moves hm
  obtain ⟨done, queue, hfifo⟩ := (Fifo.ready sc opts (.ofHdr (opts.hdr (WalT.epochNext drawn)))
    kSegmentHdrBytes 0).moves hm
  obtain ⟨keep, rfl, hint⟩ := hcrash
  obtain ⟨r, hopen, hpre, hall⟩ := h.torn hz hcrc
  refine ⟨r, hopen, hpre, fun ev hev hle => ?_⟩
  -- the durable LSN is the last token of the retired requests, and these are intact
  have htake : w.backend.accepted.take ([] ++ done).length = [] ++ done := by
    rw [hfifo.accepted, List.take_left]
  have hprefix := hall ([] ++ done).length fun q hq => by
    rw [htake] at hq
    exact hint q (hfifo.accepted ▸ List.mem_append_left _ hq) (hfifo.retired q hq)
  rw [htake] at hprefix
  rw [WalT.durableLsn, hfifo.durable] at hle
  exact hprefix.subset (List.mem_filter.mpr ⟨hev, decide_eq_true hle⟩)

/-- **A torn tail yields a prefix.** For every run of calls on a created segment and every choice
of the blocks of the writes that reached the disk, under a trusted checksum: the segment opens,
the records read form a prefix of the log, and this prefix has every record of the first `k`
groups whenever those are whole. -/
theorem readAll_isPrefix (sc : Script) (opts : WalOptions) (drawn : UInt32) (ops : List WalOp)
    (z : ℕ) (hz : kSegmentHdrBytes + z ≤ kMaxOff) (keep : ℕ → ℕ → Bool) :
    let w₀ := ((WalT.fresh sc).openCreate opts drawn).1
    let w := (w₀.exec ops).1
    let log := (w₀.exec ops).2
    let file := createdFile opts drawn z keep w
    CrcSound (WalT.epochNext drawn) file (w.WrittenAt log (WalT.epochNext drawn)) →
    ∃ r, SegmentReader.open file 0 = (.kOk, r) ∧ r.readAll.1 <+: log ∧
      ∀ k, (∀ q ∈ w.backend.accepted.take k, Intact file q) →
        log.filter (fun e => decide (e.lsn ≤ lastToken (w.backend.accepted.take k) 0)) <+:
          r.readAll.1 := by
  intro w₀ w log file hcrc
  obtain ⟨groups, cur, h⟩ : ∃ groups cur, Created opts drawn w log groups cur :=
    Created.exec sc opts drawn ops
  exact h.torn hz hcrc

/-- Two groups, of which the second never reached the disk. -/
theorem readAll_isPrefix_second_lost :
    let sc : Script := ⟨fun _ => .kOk, fun _ => []⟩
    let opts : WalOptions := ⟨0, 0, 0, 512⟩
    let w₀ := ((WalT.fresh sc).openCreate opts 7).1
    let ops : List WalOp := [.append 3 [1] 9, .maybeSubmit 9, .append 3 [2] 9, .maybeSubmit 9]
    let file := createdFile opts 7 0 (fun i _ => decide (i = 0)) (w₀.exec ops).1
    ∃ r, SegmentReader.open file 0 = (.kOk, r) ∧ r.readAll.1 <+: (w₀.exec ops).2 ∧
      [⟨1, 9, 3, [1]⟩] <+: r.readAll.1 := by
  intro sc opts w₀ ops file
  have hreqs : (w₀.exec ops).1.backend.accepted =
      [⟨groupBytes 7 512 [⟨1, 9, 3, [1]⟩], 4096, 1, 512, 0, 0⟩,
        ⟨groupBytes 7 512 [⟨2, 9, 3, [2]⟩], 4608, 2, 512, 1, 0⟩] := by decide +kernel
  have hlog : (w₀.exec ops).2 = [⟨1, 9, 3, [1]⟩, ⟨2, 9, 3, [2]⟩] := by decide +kernel
  -- the second write does not land: the file ends behind the first group
  have hfile : file = (opts.hdr 7).region ++ groupBytes 7 512 [⟨1, 9, 3, [1]⟩] := by
    have hlen : ∀ e : LogRecord, e.payload.length = 1 → (groupBytes 7 512 [e]).length = 512 := by
      intro e he
      rw [length_groupBytes (by decide), encodeRecords_cons, encodeRecords_nil, List.append_nil,
        length_encodeRecord, he]
      decide
    have hblk : effectiveBlock opts.blockSize.toNat = 512 := by decide +kernel
    simp only [file, createdFile]
    rw [hblk, hreqs, land, land, land, landWrite_none (by simp),
      landWrite_block (by decide) (by decide) (hlen _ rfl), pwrite,
        if_pos (by rw [hlen _ rfl]; decide), WalOptions.created,
      List.replicate_zero, List.append_nil, show WalT.epochNext 7 = 7 from rfl]
    dsimp only
    rw [writeAt_end (by rw [SegmentHdr.length_region]; rfl)]
  -- what reads as a record behind the header was written where it stands
  have hcrc : CrcSound 7 file ((w₀.exec ops).1.WrittenAt (w₀.exec ops).2 7) := by
    rw [hfile]
    refine crcSound_of_everyEighth 64 (SegmentHdr.length_region _) (by decide +kernel) ?_
    unfold WalT.WrittenAt
    rw [hreqs, hlog]
    decide +kernel
  obtain ⟨r, hopen, hpre, hall⟩ :=
    readAll_isPrefix sc opts 7 ops 0 (by decide) (fun i _ => decide (i = 0)) hcrc
  have hfirst : (w₀.exec ops).2.filter (fun e =>
      decide (e.lsn ≤ lastToken ((w₀.exec ops).1.backend.accepted.take 1) 0)) =
      [⟨1, 9, 3, [1]⟩] := by decide +kernel
  refine ⟨r, hopen, hpre, ?_⟩
  rw [← hfirst]
  refine hall 1 fun q hq => ?_
  rw [hreqs] at hq
  obtain rfl := List.mem_singleton.mp hq
  change HoldsAt file _ _
  rw [hfile, ← List.append_nil (_ ++ _)]
  exact holdsAt_between _ _ [] (SegmentHdr.length_region _)

end MotorRv
