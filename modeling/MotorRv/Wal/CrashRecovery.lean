import MotorRv.Core.Externalised
import MotorRv.Core.ForcedCommit
import MotorRv.Wal.FileNames
import MotorRv.Wal.ReplayOrder

/-!
# Recovery after a crash

A partition applies its records as it appends them; a crash leaves a beginning of its log on the
disk. Recovery from that file, over the state that was initialised or over an image that the
partition saved on the way, ends in the state that the partition had after so many records: no
fewer than were durable, and none but its own.

The file is known from the results on torn writes: what the reader returns is a prefix of the log
with everything durable in it. Recovery applies that prefix past the LSN of the image, and the state
it comes to is compared with the one that the partition had after as many records. For this the
replay must see what the live run saw, which is the result on replay and live runs; here it is
instantiated at both ends, with the image taken at an LSN `j` and the file cut at an LSN `m`
(`applyAll_between`).

The image may be missing, in which case recovery begins with the initialised target, or may have
been saved on the way, behind any number of newer files that are none; `ImagesGive` covers both. A
partition is looked at once and crashes later, at any point of a turn or of a harvest. That it has
not stopped before is assumed, since a record whose answer was fatal stops the replay as well.
-/

namespace MotorRv

open Lib
open SegmentReader (Numbered CrcSound)

/-! ### One segment -/

namespace Replay

/-- The variables after records whose answers are not fatal. -/
def afterAll (v : Replay) (evs : List LogRecord) (sts : List Status)
    (s : PartitionState) : Replay :=
  { v with
    state := s
    report := { v.report with
      recordsApplied := v.report.recordsApplied + sts.countP Status.isOk
      recordsRejected := v.report.recordsRejected + sts.countP fun st => !st.isOk }
    expectedLsn := expectedAfter v.expectedLsn evs }

/-- An answer that is not fatal. -/
theorem answered_of_not_fatal (v : Replay) (r : SegmentReader) (ev : LogRecord) {st : Status}
    (s : PartitionState) (hst : st.isFatal = false) :
    v.answered r ev st s = (false, v.afterAll [ev] [st] s) := by
  have hclass : ¬ classify st = .fatal := by
    unfold classify
    cases st.isOk
    all_goals simp [hst]
  rw [answered, if_neg hclass]
  cases hok : st.isOk
  all_goals simp [afterAll, hok, expectedAfter]

theorem afterAll_afterAll (v : Replay) (ev : LogRecord) (evs : List LogRecord) (st : Status)
    (sts : List Status) (s s' : PartitionState) :
    (v.afterAll [ev] [st] s).afterAll evs sts s' = v.afterAll (ev :: evs) (st :: sts) s' := by
  simp only [afterAll, expectedAfter_cons, List.countP_cons, List.countP_nil]
  congr 2
  all_goals omega

/-- **The loop over a segment.** Where applying the records past the image gives no fatal answer,
the loop applies them all and goes to where the reader stops. -/
theorem readUpTo_eq (n : ℕ) : ∀ {r : SegmentReader} {v : Replay} {sts : List Status}
    {s : PartitionState},
      applyAll v.state ((past v.report.imageLsn (r.readUpTo n).1).map fun ev => (ev, none)) =
        .ok (sts, s) → (∀ st ∈ sts, st.isFatal = false) →
      readUpTo n r v = (past v.report.imageLsn (r.readUpTo n).1,
        .ok (false, (r.readUpTo n).2,
          v.afterAll (past v.report.imageLsn (r.readUpTo n).1) sts s)) := by
  have hnil : ∀ {v : Replay} {sts : List Status} {s : PartitionState},
      applyAll v.state [] = .ok (sts, s) → v = v.afterAll [] sts s := by
    intro v sts s h
    obtain ⟨rfl, rfl⟩ := Prod.mk.inj (Except.ok.inj h)
    rfl
  induction n with
  | zero =>
    intro r v sts s h _
    rw [readUpTo, SegmentReader.readUpTo]
    rw [SegmentReader.readUpTo] at h
    exact congrArg (fun v' => ([], Except.ok (false, r, v'))) (hnil h)
  | succ n ih =>
    intro r v sts s h hok
    rw [readUpTo]
    rw [SegmentReader.readUpTo] at h ⊢
    rcases hnext : r.next with ⟨_ | ev, r'⟩
    · rw [hnext] at h
      exact congrArg (fun v' => ([], Except.ok (false, r', v'))) (hnil h)
    · rw [hnext] at h
      dsimp only at h ⊢
      by_cases hle : ev.lsn ≤ v.report.imageLsn
      · rw [past_cons_of_le hle] at h ⊢
        rw [if_pos hle]
        -- the image has it: skipped here, and not among the records past the image
        exact ih h hok
      · rw [past_cons_of_lt (by omega), List.map_cons] at h
        rw [past_cons_of_lt (by omega), if_neg hle]
        obtain ⟨st, e, sts', happly, hrest, rfl⟩ := applyAll_cons.mp h
        obtain ⟨hst, hok⟩ := List.forall_mem_cons.mp hok
        rw [happly]
        dsimp only
        rw [answered_of_not_fatal v r' ev e.s hst]
        dsimp only
        -- the rest is replayed from the state that this record leaves
        have hrest' := ih (v := v.afterAll [ev] [st] e.s) (r := r') hrest hok
        have himage : (v.afterAll [ev] [st] e.s).report.imageLsn = v.report.imageLsn := rfl
        rw [hrest', himage, afterAll_afterAll]

/-- The variables at the end of a segment, whatever ended it. -/
def ended (v : Replay) (r : SegmentReader) : Replay :=
  if r.stopReason ≠ .clean then (v.close r).stopAt r.stopReason else v.close r

theorem ended_spec (v : Replay) (r : SegmentReader) :
    (v.ended r).state = v.state ∧ (v.ended r).maxValidLsn = max v.maxValidLsn r.lastValidLsn ∧
      (v.ended r).tail =
        ⟨r.firstLsn, r.resumeOffset, r.epoch, lsnNext (max v.maxValidLsn r.lastValidLsn)⟩ ∧
      (v.ended r).report = { v.report with stopReason := (v.ended r).report.stopReason } := by
  have hmax : (if v.maxValidLsn < r.lastValidLsn then r.lastValidLsn else v.maxValidLsn) =
      max v.maxValidLsn r.lastValidLsn := by
    split_ifs
    all_goals omega
  rw [← hmax, ended]
  by_cases hclean : r.stopReason ≠ .clean
  · rw [if_pos hclean]
    exact ⟨rfl, rfl, rfl, rfl⟩
  · rw [if_neg hclean]
    exact ⟨rfl, rfl, rfl, rfl⟩

/-- The replay of a directory with one segment. -/
theorem readSegs_single {mapped : Bytes} {seg : FileItem} {v : Replay} {st : Status}
    {r : SegmentReader} {sts : List Status} {s : PartitionState}
    (hseg : seg.entry.content = some mapped) (hlen : kSegmentHdrBytes ≤ mapped.length)
    (hopen : SegmentReader.open mapped v.expectedLsn = (st, r)) (hok : st.isOk = true)
    (hrun : applyAll v.state ((past v.report.imageLsn r.readAll.1).map fun ev => (ev, none)) =
      .ok (sts, s)) (hst : ∀ st ∈ sts, st.isFatal = false) :
    readSegs [seg] v = ([⟨v.expectedLsn, r, past v.report.imageLsn r.readAll.1⟩],
      .ok ((v.afterAll (past v.report.imageLsn r.readAll.1) sts s).ended r.readAll.2)) := by
  have hread : read r v = (past v.report.imageLsn r.readAll.1, .ok (false, r.readAll.2,
      v.afterAll (past v.report.imageLsn r.readAll.1) sts s)) := readUpTo_eq _ hrun hst
  rw [readSegs, hseg]
  dsimp only
  rw [if_neg (not_lt.mpr hlen), hopen]
  dsimp only
  rw [if_neg (not_not.mpr hok), hread]
  dsimp only
  rw [if_neg Bool.false_ne_true, ended]
  split_ifs
  · rfl
  · rfl

end Replay

/-! ### What the reader notes -/

namespace SegmentReader

/-- Reading keeps what the header said, and notes the LSN of the last record. -/
theorem readUpTo_keeps (n : ℕ) : ∀ {r : SegmentReader}, 0 < r.blockSize →
    (r.readUpTo n).2.firstLsn = r.firstLsn ∧ (r.readUpTo n).2.epoch = r.epoch ∧
      (r.readUpTo n).2.lastValidLsn = ((r.readUpTo n).1.map (·.lsn)).getLastD r.lastValidLsn := by
  induction n with
  | zero => exact fun _ => ⟨rfl, rfl, rfl⟩
  | succ n ih =>
    intro r hb
    rw [readUpTo]
    obtain ⟨o, reason, -, -, hnext⟩ | ⟨o, ev, -, -, -, -, hnext⟩ := next_cases hb
    · rw [hnext]
      exact ⟨rfl, rfl, rfl⟩
    · rw [hnext]
      obtain ⟨hfirst, hepoch, hlast⟩ := ih (r := { r with offset := o }.accept ev) hb
      refine ⟨hfirst, hepoch, hlast.trans ?_⟩
      rw [List.map_cons, List.getLastD_cons]
      rfl

end SegmentReader

/-- The records of a numbered log past one of its numbers. -/
theorem past_of_numbered {evs : List LogRecord} : ∀ {m : ℕ} (j : ℕ), Numbered (m + 1) evs →
    past (m + j) evs = evs.drop j := by
  induction evs with
  | nil => exact fun _ _ => List.drop_nil.symm
  | cons ev evs ih =>
    rintro m (_ | j) ⟨hlsn, hrest⟩
    · rw [Nat.add_zero, past_cons_of_lt (by omega), List.drop_zero]
      have hlt : past m evs = evs := by
        rw [past, List.filter_eq_self]
        intro e he
        have := hrest.lsn_bounds he
        exact decide_eq_true (by omega)
      rw [hlt]
    · rw [past_cons_of_le (by omega), List.drop_succ_cons]
      have := ih j hrest
      rwa [show m + 1 + j = m + (j + 1) by omega] at this

/-- The last of numbered records. -/
theorem getLastD_of_numbered {evs : List LogRecord} : ∀ {m : ℕ}, Numbered (m + 1) evs →
    (evs.map (·.lsn)).getLastD m = m + evs.length := by
  induction evs with
  | nil => exact fun _ => rfl
  | cons ev evs ih =>
    rintro m ⟨hlsn, hrest⟩
    rw [List.map_cons, List.getLastD_cons, hlsn, ih hrest, List.length_cons]
    omega

/-! ### What recovery begins with -/

theorem PartitionState.Sound.agree {s : PartitionState} (hs : s.Sound) : Agree s s := by
  have htable : ∀ {cap : UInt32} {keys : List UInt64} {t : DenseIndex}, TableSound cap keys t →
      t.Same t := fun h =>
    ⟨⟨h.index.wf, h.index.wf, rfl, rfl, fun _ => rfl⟩, h.index.room⟩
  have hset : ∀ {n : ℕ} {t : TwoGenSet}, t.Sound n → t.Equiv t := fun h =>
    { gen0 := ⟨h.gen0.wf, h.gen0.wf, rfl, rfl, fun _ => rfl⟩
      gen1 := ⟨h.gen1.wf, h.gen1.wf, rfl, rfl, fun _ => rfl⟩
      current := rfl
      rotation := rfl
      room0 := (slotCount_eq_some h.gen0.slots).2.2
      room1 := (slotCount_eq_some h.gen1.slots).2.2 }
  refine ⟨⟨s.accountIndex, s.positionIndex, s.instrumentIndex, s.tradeIndex, s.appliedActions,
    s.appliedIncome, s.exceptions⟩, rfl, ?_⟩
  exact
    { accountIndex := htable hs.accounts
      positionIndex := htable hs.positions
      instrumentIndex := htable hs.instruments
      tradeIndex := htable hs.trades
      appliedActions := hset hs.actions
      appliedIncome := hset hs.income
      exceptions := rfl
      exceptionRoom := ⟨hs.exceptions, hs.exceptions⟩ }

/-- What the images give recovery to begin with: the target itself, if there are none; else the
state that an image was saved from, where all newer files are broken. -/
inductive ImagesGive (target : PartitionState) (arena : Arena) : List FileItem →
    PartitionState → Prop
  | none : ImagesGive target arena [] target
  | saved (pre : List FileItem) (snap : FileItem) (rest : List FileItem) (mid : PartitionState)
      (hpre : ∀ x ∈ pre, Broken x.entry) (hsnap : snap.entry.content = some (imageOf mid))
      (hroom : Roomy arena (pre ++ [snap])) : ImagesGive target arena (pre ++ snap :: rest) mid

/-- The image of a state is loaded behind broken files. -/
theorem loadImages_imageOf {mid : PartitionState} (hs : mid.Sound) {snap : FileItem}
    (hsnap : snap.entry.content = some (imageOf mid)) (rest pre : List FileItem) :
    ∀ (i : ℕ) (target : PartitionState) (arena : Arena), (∀ x ∈ pre, Broken x.entry) →
      Roomy arena (pre ++ [snap]) →
      ∃ loaded t arena', loadImages i (pre ++ snap :: rest) target arena =
        .ok (some loaded, t, arena') ∧ Agree mid t := by
  induction pre with
  | nil =>
    intro i target arena _ hroom
    obtain ⟨hempty, -⟩ | ⟨image, hc, -, hcons⟩ := loadImages_cons snap
    · exact absurd (hempty (imageOf mid) hsnap) (imageOf_ne_nil mid)
    · obtain rfl := Option.some.inj (hc.symm.trans hsnap)
      have hcap : (headerOf mid).cap = mid.cap := rfl
      have hfits := (((hcons []).2 arena).mp hroom).1 (headerOf mid) (loadHeader_imageOf hs)
      rw [hcap] at hfits
      obtain ⟨t, arena', hload, hag⟩ := loadStateImage_imageOf hs target hfits
      refine ⟨i, t, arena', ?_, hag⟩
      rw [List.nil_append, (hcons rest).1, hload]
      rfl
  | cons x pre ih =>
    intro i target arena hpre hroom
    obtain ⟨hx, hpre⟩ := List.forall_mem_cons.mp hpre
    obtain ⟨-, hcons⟩ | ⟨image, hc, hne, hcons⟩ := loadImages_cons x
    · obtain ⟨loaded, t, arena', hload, hag⟩ :=
        ih (i + 1) target arena hpre (((hcons _).2 arena).mp hroom)
      exact ⟨loaded, t, arena', ((hcons _).1 i target arena).trans hload, hag⟩
    · obtain ⟨hhas, hroom⟩ := ((hcons _).2 arena).mp hroom
      have hfail := (hx image hc).resolve_left hne
      obtain ⟨st, target', hrun, hok⟩ := hfail.run target hhas
      obtain ⟨loaded, t, arena', hload, hag⟩ := ih (i + 1) target' _ hpre hroom
      refine ⟨loaded, t, arena', ?_, hag⟩
      rw [List.cons_append, (hcons _).1, hrun, ← hload]
      exact if_neg (by simp [hok])

theorem ImagesGive.load {target mid : PartitionState} {arena : Arena} {snaps : List FileItem}
    (h : ImagesGive target arena snaps mid) (hs : mid.Sound) :
    ∃ loaded t arena', loadImages 0 snaps target arena = .ok (loaded, t, arena') ∧ Agree mid t := by
  cases h with
  | none => exact ⟨Option.none, target, arena, rfl, hs.agree⟩
  | saved pre snap rest mid hpre hsnap hroom =>
    obtain ⟨i, t, arena', hload, hag⟩ :=
      loadImages_imageOf hs hsnap rest pre 0 target arena hpre hroom
    exact ⟨some i, t, arena', hload, hag⟩

/-! ### The log of a crash -/

/-- What a crash leaves of a created segment, for recovery: it opens wherever the replay stands, the
records read are the first `n` of the log, no fewer than are durable, and the reader notes the
last. -/
theorem readAll_crashed {sc : Script} {opts : WalOptions} {drawn : UInt32} {z : ℕ} {w : WalT}
    {log : List LogRecord} (hm : WalT.Moves ((WalT.fresh sc).openCreate opts drawn).1 log w)
    (hz : kSegmentHdrBytes + z ≤ kMaxOff) {file : Bytes}
    (hcrash : Crash (effectiveBlock opts.blockSize.toNat) (opts.created drawn z) w.backend file)
    (hcrc : CrcSound (WalT.epochNext drawn) file (w.WrittenAt log (WalT.epochNext drawn))) :
    ∃ r n, (∀ expected, SegmentReader.open file expected = (.kOk, r)) ∧ n ≤ log.length ∧
      w.durableLsn ≤ n ∧ r.readAll.1 = log.take n ∧ Numbered 1 log ∧
      r.readAll.2.lastValidLsn = n ∧ r.readAll.2.firstLsn = 1 ∧
      r.readAll.2.epoch = WalT.epochNext drawn ∧ kSegmentHdrBytes ≤ file.length := by
  obtain ⟨groups, cur, h⟩ := Created.moves hm
  obtain ⟨done, queue, hfifo⟩ := (Fifo.ready sc opts (.ofHdr (opts.hdr (WalT.epochNext drawn)))
    kSegmentHdrBytes 0).moves hm
  obtain ⟨r, hopen, hpre, hall⟩ := mem_readAll_of_durable hm hz hcrash hcrc
  obtain ⟨keep, rfl, -⟩ := hcrash
  have hnum : Numbered 1 log := h.numbered
  obtain rfl : r = _ := (Prod.mk.inj (hopen.symm.trans h.open_eq)).2
  have hn := List.prefix_iff_eq_take.mp hpre
  set n := (SegmentReader.readAll _).1.length with hndef
  have hle : n ≤ log.length := hpre.length_le
  have hblock : 0 < (SegmentReader.start (createdFile opts drawn z keep w)
      (opts.hdr (WalT.epochNext drawn))).blockSize := (BlockOk.effectiveBlock _).zero_lt
  obtain ⟨hfirst, hepoch, hlast⟩ := SegmentReader.readUpTo_keeps _ hblock
  refine ⟨_, n, fun expected => h.open_eq, hle, ?_, hn, hnum, ?_, hfirst, hepoch, ?_⟩
  · -- the record after the last one read is not durable
    by_contra hlt
    have hdurable : w.durableLsn ≤ log.length := by
      have hlast := h.lastLsn
      rw [WalT.durableLsn, hfifo.durable]
      obtain h0 | ⟨q, hq, h0⟩ := lastToken_mem ([] ++ done) 0
      · omega
      · have := (hfifo.bound q (hfifo.accepted ▸ List.mem_append_left _ hq)).2
        omega
    obtain ⟨ev, rest, hdrop⟩ := List.exists_cons_of_ne_nil
      (List.ne_nil_of_length_pos (l := log.drop n) (by rw [List.length_drop]; omega))
    have hsplit : Numbered 1 (log.take n ++ ev :: rest) := by
      rwa [← hdrop, List.take_append_drop]
    obtain ⟨htake, hlsn, -⟩ := SegmentReader.numbered_append.mp hsplit
    rw [List.length_take, Nat.min_eq_left hle] at hlsn
    have hmem : ev ∈ log := List.mem_of_mem_drop (hdrop ▸ List.mem_cons_self)
    have hread := hall ev hmem (by omega)
    rw [hn] at hread
    have := htake.lsn_bounds hread
    rw [List.length_take, Nat.min_eq_left hle] at this
    omega
  · have hnum' : Numbered (0 + 1) (log.take n ++ log.drop n) := by rwa [List.take_append_drop]
    have hcount := getLastD_of_numbered (SegmentReader.numbered_append.mp hnum').1
    rw [← hn] at hcount
    exact hlast.trans (hcount.trans (Nat.zero_add _))
  · refine le_trans ?_ (length_le_land _ _ _)
    rw [WalOptions.created, List.length_append, SegmentHdr.length_region]
    exact Nat.le_add_right _ _

/-! ### Recovery -/

section Live

variable {estado mid s : PartitionState} {log : List LogRecord} {os : List Outbox}
  {sts : List Status} {j : ℕ}

theorem map_fst_live_zip (hos : os.length = log.length) (a b : ℕ) :
    replayed (((log.zip os).take b).drop a) = ((log.take b).drop a).map fun ev => (ev, none) := by
  have hfst : (log.zip os).map Prod.fst = log := List.map_fst_zip hos.ge
  have hcut : (((log.zip os).take b).drop a).map Prod.fst = (log.take b).drop a := by
    rw [List.map_drop, List.map_take, hfst]
  rw [← hcut, replayed, List.map_map]
  rfl

/-- A state reached by the first `j` records of a log has applied the LSN `j`. -/
theorem appliedLsn_of_take (hnum : Numbered 1 log) (hos : os.length = log.length)
    (hfirst : estado.appliedLsn = 0) (hj : j ≤ log.length) (hlsn : log.length + 1 < 2 ^ 64)
    (hmid : applyAll estado (live ((log.zip os).take j)) = .ok (sts, mid)) :
    mid.appliedLsn.toNat = j := by
  have hlast := appliedLsn_applyAll hmid
  have hmap : (live ((log.zip os).take j)).map (fun x => UInt64.ofNat x.1.lsn) =
      (log.take j).map fun r => UInt64.ofNat r.lsn := by
    have hfst : (log.zip os).map Prod.fst = log := List.map_fst_zip hos.ge
    rw [← hfst, ← List.map_take, hfst, live, List.map_map, List.map_map]
    rfl
  rw [hmap, hfirst] at hlast
  rcases Nat.eq_zero_or_pos j with rfl | hpos
  · rw [hlast]
    rfl
  · have hsplit : Numbered (0 + 1) (log.take j ++ log.drop j) := by rwa [List.take_append_drop]
    have hne : log.take j ≠ [] := by
      refine List.ne_nil_of_length_pos ?_
      rw [List.length_take]
      omega
    rw [getLastD_numbered hne (SegmentReader.numbered_append.mp hsplit).1, List.length_take,
      Nat.min_eq_left hj, Nat.zero_add] at hlast
    rw [hlast, UInt64.toNat_ofNat']
    exact Nat.mod_eq_of_lt (by omega)

theorem length_statuses {evs : List (EventView × Option Outbox)} : ∀ {s s' : PartitionState}
    {sts : List Status}, applyAll s evs = .ok (sts, s') → sts.length = evs.length := by
  induction evs with
  | nil =>
    intro s s' sts h
    obtain ⟨rfl, -⟩ := Prod.mk.inj (Except.ok.inj h)
    rfl
  | cons x evs ih =>
    intro s s' sts h
    obtain ⟨st, e, sts', -, hrest, rfl⟩ := applyAll_cons.mp h
    rw [List.length_cons, List.length_cons, ih hrest]

/-- A live run cut at `j` and, no earlier, at `m`. -/
theorem applyAll_between (hlive : applyAll estado (live (log.zip os)) = .ok (sts, s))
    (hos : os.length = log.length) {m : ℕ} (hjm : j ≤ m) (hm : m ≤ log.length)
    (hmid : applyAll estado (live ((log.zip os).take j)) = .ok (sts.take j, mid)) :
    ∃ sₘ, applyAll estado (live ((log.zip os).take m)) = .ok (sts.take m, sₘ) ∧
      applyAll mid (live (((log.zip os).take m).drop j)) = .ok ((sts.take m).drop j, sₘ) := by
  have hlen : (log.zip os).length = log.length := by
    rw [List.length_zip, hos, Nat.min_self]
  have hcut : ∀ (evs : List (EventView × Outbox)) k,
    live evs = live (evs.take k) ++ live (evs.drop k) := by
    intro evs k
    rw [live, live, live, ← List.map_append, List.take_append_drop]
  have hcount : ∀ (evs : List (EventView × Outbox)) k, k ≤ evs.length →
      (live (evs.take k)).length = k := by
    intro evs k hk
    rw [live, List.length_map, List.length_take, Nat.min_eq_left hk]
  rw [hcut _ m] at hlive
  obtain ⟨sₘ, hto, -⟩ := applyAll_append hlive
  rw [hcount _ m (by omega)] at hto
  refine ⟨sₘ, hto, ?_⟩
  rw [hcut _ j] at hto
  obtain ⟨mid', hto', hfrom⟩ := applyAll_append hto
  rw [hcount _ j (by rw [List.length_take]; omega)] at hto' hfrom
  rw [List.take_take, Nat.min_eq_left hjm] at hto'
  obtain ⟨-, rfl⟩ := Prod.mk.inj (Except.ok.inj (hto'.symm.trans hmid))
  exact hfrom

end Live

/-- **Recovery of a log.** A writer on a created segment, with its records applied as they were
appended, none with a fatal answer, is cut short by a crash. Recovery from what is left of the
segment, with no image or with one saved after `j` of the records, ends in the state that the first
`max j n` records lead to, for an `n` no smaller than the durable LSN; it hands on the records from
`j` to `n`, each once, and its tail names the next LSN. -/
theorem recover_crashed {sc : Script} {opts : WalOptions} {drawn : UInt32} {z : ℕ} {w : WalT}
    {log : List LogRecord} (hm : WalT.Moves ((WalT.fresh sc).openCreate opts drawn).1 log w)
    (hz : kSegmentHdrBytes + z ≤ kMaxOff) {file : Bytes}
    (hcrash : Crash (effectiveBlock opts.blockSize.toNat) (opts.created drawn z) w.backend file)
    (hcrc : CrcSound (WalT.epochNext drawn) file (w.WrittenAt log (WalT.epochNext drawn)))
    {estado s mid : PartitionState} (hs : estado.Sound) (hfirst : estado.appliedLsn = 0)
    {os : List Outbox} {sts : List Status} (hos : os.length = log.length)
    (hlive : applyAll estado (live (log.zip os)) = .ok (sts, s))
    (hok : ∀ st ∈ sts, st.isFatal = false) (hlsn : log.length + 1 < 2 ^ 64) {j : ℕ}
    (hj : j ≤ log.length)
    (hmid : applyAll estado (live ((log.zip os).take j)) = .ok (sts.take j, mid))
    {target : PartitionState} {arena : Arena} {dir : List DirEntry} {part : ℕ} {seg : FileItem}
    (himages : ImagesGive target arena (snaps dir part) mid) (hsegs : segs dir part = [seg])
    (hfile : seg.entry.content = some file) :
    ∃ n opened report tail t sₘ, n ≤ log.length ∧ w.durableLsn ≤ n ∧
      recover target arena dir part = (opened, .ok (report, tail, t)) ∧
      handed opened = (log.take n).drop j ∧
      applyAll estado (live ((log.zip os).take (max j n))) = .ok (sts.take (max j n), sₘ) ∧
      SameState sₘ t ∧ report.imageLsn = j ∧ report.lastValidLsn = max j n ∧
      report.recordsApplied + report.recordsRejected = n - j ∧ report.fatalErr = .ok ∧
      tail.segmentFirstLsn = 1 ∧ tail.epoch = WalT.epochNext drawn ∧
        tail.nextLsn = max j n + 1 := by
  obtain ⟨r, n, hopen, hn, hdurable, hread, hnum, hlast, hfirstLsn, hepoch, hlen⟩ :=
    readAll_crashed hm hz hcrash hcrc
  obtain ⟨loaded, t₀, arena', hload, hag⟩ := himages.load (sound_applyAll hs hmid)
  have himage : t₀.appliedLsn.toNat = j := by
    rw [← hag.sameState.appliedLsn]
    exact appliedLsn_of_take hnum hos hfirst hj hlsn hmid
  obtain ⟨sₘ, hto, hfrom⟩ := applyAll_between hlive hos (le_max_left j n) (max_le hj hn) hmid
  obtain ⟨t, hrun, hag'⟩ := hag.applyAll hfrom fun st hst =>
    hok st (List.mem_of_mem_take (List.mem_of_mem_drop hst))
  rw [map_fst_live_zip hos] at hrun
  -- what the replay hands on
  have hcut : (log.take (max j n)).drop j = (log.take n).drop j := by
    rcases le_total j n with hle | hle
    · rw [max_eq_right hle]
    · rw [max_eq_left hle, List.drop_eq_nil_of_le (by rw [List.length_take]; omega),
        List.drop_eq_nil_of_le (by rw [List.length_take]; omega)]
  have hpast : past j r.readAll.1 = (log.take n).drop j := by
    have hsplit : Numbered (0 + 1) (log.take n ++ log.drop n) := by rwa [List.take_append_drop]
    rw [hread]
    have := past_of_numbered j (SegmentReader.numbered_append.mp hsplit).1
    rwa [Nat.zero_add] at this
  set sts' := (sts.take (max j n)).drop j
  have hstart : (Replay.start loaded t₀).report.imageLsn = j := himage
  have hrun' : applyAll (Replay.start loaded t₀).state
      ((past (Replay.start loaded t₀).report.imageLsn r.readAll.1).map fun ev => (ev, none)) =
        .ok (sts', t) := by
    rw [hstart, hpast, ← hcut]
    exact hrun
  have hreplay := Replay.readSegs_single hfile hlen (hopen _) rfl hrun' fun st hst =>
    hok st (List.mem_of_mem_take (List.mem_of_mem_drop hst))
  rw [hstart, hpast] at hreplay
  set v := (Replay.start loaded t₀).afterAll ((log.take n).drop j) sts' t
  have hrecover : recover target arena dir part =
      ([⟨lsnNext t₀.appliedLsn.toNat, r, (log.take n).drop j⟩],
        .ok (v.ended r.readAll.2).result) := by
    rw [recover, recoverFrom, hload, hsegs]
    dsimp only
    rw [hreplay]
    rfl
  obtain ⟨hstate, hmax, htail, hreport⟩ := v.ended_spec r.readAll.2
  have hv : max v.maxValidLsn r.readAll.2.lastValidLsn = max j n := by
    rw [hlast]
    exact congrArg (max · n) himage
  rw [hv] at hmax htail
  have hcount : v.report.recordsApplied + v.report.recordsRejected = n - j := by
    have hlen : sts'.length = n - j := by
      rw [length_statuses hrun, hcut, List.length_map, List.length_drop, List.length_take,
        Nat.min_eq_left hn]
    have hsum := List.length_eq_countP_add_countP Status.isOk (l := sts')
    have hnot : (fun st : Status => decide ¬st.isOk = true) = fun st => !st.isOk := by
      funext st
      cases st.isOk
      all_goals rfl
    rw [hnot] at hsum
    have happlied : v.report.recordsApplied = 0 + sts'.countP Status.isOk := rfl
    have hrejected : v.report.recordsRejected = 0 + sts'.countP fun st => !st.isOk := rfl
    omega
  have hnext : lsnNext (max j n) = max j n + 1 := Nat.mod_eq_of_lt (by omega)
  have himageLsn : v.report.imageLsn = j := himage
  have hrec := congrArg RecoveryReport.imageLsn hreport
  have happ := congrArg RecoveryReport.recordsApplied hreport
  have hrej := congrArg RecoveryReport.recordsRejected hreport
  have herr := congrArg RecoveryReport.fatalErr hreport
  refine ⟨n, _, _, _, _, sₘ, hn, hdurable, hrecover, List.flatMap_singleton _ _, hto, ?_, ?_, hmax,
    ?_, ?_, ?_, ?_, ?_⟩
  · rw [hstate]
    exact hag'.sameState
  · exact hrec.trans himageLsn
  · exact (congrArg₂ (· + ·) happ hrej).trans hcount
  · exact herr
  · rw [htail]
    exact hfirstLsn
  · rw [htail]
    exact hepoch
  · rw [htail]
    exact hnext

/-! ### A partition -/

/-- One run after another. -/
theorem applyAll_trans {evs evs' : List (EventView × Option Outbox)} : ∀ {s mid s' : PartitionState}
    {sts sts' : List Status}, applyAll s evs = .ok (sts, mid) → applyAll mid evs' = .ok (sts', s') →
      applyAll s (evs ++ evs') = .ok (sts ++ sts', s') := by
  induction evs with
  | nil =>
    intro s mid s' sts sts' h h'
    obtain ⟨rfl, rfl⟩ := Prod.mk.inj (Except.ok.inj h)
    exact h'
  | cons x evs ih =>
    intro s mid s' sts sts' h h'
    obtain ⟨st, e, sts₁, happly, hrest, rfl⟩ := applyAll_cons.mp h
    exact applyAll_cons.mpr ⟨st, e, _, happly, ih hrest h', rfl⟩

theorem isFatal_of_classify {st : Status} (h : classify st ≠ .fatal) : st.isFatal = false := by
  by_contra hfatal
  refine h ?_
  have hok : st.isOk = false := by
    by_contra hok
    have hcode : st.code = .ok := by simpa [Status.isOk] using hok
    exact hfatal (by rw [Status.isFatal, hcode]; rfl)
  simp [classify, hok, hfatal]

namespace Partition

/-- A turn that took a frame popped it, or it stopped the partition. -/
theorem length_took (ts : List Turn) :
    (popped ts).length + ts.countP Turn.stops = (took ts).length := by
  induction ts with
  | nil => rfl
  | cons t ts ih =>
    have hsplit : t :: ts = [t] ++ ts := rfl
    rw [hsplit, popped_append, took_append, List.length_append, List.length_append,
      List.countP_append]
    have hone : (popped [t]).length + [t].countP Turn.stops = (took [t]).length := by
      cases t
      all_goals rfl
    omega

/-- While a partition runs, no answer was fatal. -/
theorem Tally.not_fatal {p₀ p : Partition} {arrived : List IngressFrame} {ts : List Turn}
    (h : Tally p₀ arrived ts p) (hrun : p.parado = false) :
    ∀ st ∈ statuses ts, st.isFatal = false := by
  have hnone : ts.countP Turn.stops = 0 := by
    have hcount := length_took ts
    have hlen := congrArg List.length (h.running hrun)
    rw [List.length_map] at hlen
    omega
  intro st hst
  obtain ⟨⟨f, ev, st'⟩, hx, rfl⟩ := List.mem_map.mp hst
  obtain ⟨t, ht, htook⟩ := List.mem_filterMap.mp hx
  have hgoes : t.stops ≠ true := List.countP_eq_zero.mp hnone t ht
  refine isFatal_of_classify (h.accepted f ev st' ?_)
  cases t with
  | consumed f' ev' st'' =>
    cases htook
    exact ht
  | stopped f' ev' st'' => exact absurd rfl hgoes
  | _ => cases htook

/-- A partition that has stopped stays stopped. -/
theorem parado_exec {is : List PartitionInput} : ∀ {p p' : Partition} {rs : List Polled},
    p.parado = true → p.exec is = .ok (rs, p') → p'.parado = true := by
  induction is with
  | nil =>
    intro p p' rs hp h
    cases h
    exact hp
  | cons i is ih =>
    intro p p' rs hp h
    cases i with
    | arrive f =>
      refine ih ?_ h
      unfold Partition.arrive
      split_ifs
      · exact hp
      · exact hp
    | poll nowNs =>
      obtain ⟨⟨r, q⟩, hpoll, h⟩ := except_bind_eq_ok.mp h
      obtain ⟨⟨rs', q'⟩, hrest, h⟩ := except_bind_eq_ok.mp h
      cases h
      refine ih ?_ hrest
      obtain ⟨⟨ts, p₁⟩, hturns, hpoll⟩ := except_bind_eq_ok.mp hpoll
      cases hpoll
      unfold Partition.turns at hturns
      rw [if_pos hp] at hturns
      cases hturns
      exact hp

/-- **Recovery of a partition.** A partition runs over a freshly created segment; it is looked at
once, after the first inputs, and crashes later, between two turns of a `poll`, or while its log
hands over and harvests, without having stopped. Recovery from what the crash leaves of the segment,
with the image saved at the first look, or from the state then if there are no images, ends in the
state that the partition was in after so many of its records: those of the first look at least, and
those that were durable. Where these are all, it is the state at the crash. -/
theorem recovered_of_crash (sc : Script) (opts : WalOptions) (drawn : UInt32)
    {arena₀ arena₁ : Arena} {pid : UInt16} {c : PartitionCapacity} {estado : PartitionState}
    (hinit : PartitionState.blank.init arena₀ pid c = .ok (true, estado, arena₁)) (entrada : Inbox)
    (saida : Outbox) (is₁ is₂ : List PartitionInput) {rs₁ rs₂ : List Polled} {p₁ p₂ q : Partition}
    (hrun₁ : (start estado ((WalT.fresh sc).openCreate opts drawn).1 entrada saida).exec is₁ =
      .ok (rs₁, p₁))
    (hrun₂ : p₁.exec is₂ = .ok (rs₂, p₂)) (hp₂ : p₂.parado = false) {k : ℕ} {ts : List Turn}
    (hturns : p₂.drain k = .ok (ts, q)) (hq : q.parado = false) {w : WalT}
    (hw : WalT.Moves q.diario [] w) {z : ℕ} (hz : kSegmentHdrBytes + z ≤ kMaxOff) {file : Bytes}
    (hcrash : Crash (effectiveBlock opts.blockSize.toNat) (opts.created drawn z) w.backend file)
    (hcrc : CrcSound (WalT.epochNext drawn) file
      (w.WrittenAt (records (turnsOf rs₁ ++ turnsOf rs₂ ++ ts)) (WalT.epochNext drawn)))
    (hlsn : (records (turnsOf rs₁ ++ turnsOf rs₂ ++ ts)).length + 1 < 2 ^ 64)
    {target : PartitionState} {arena : Arena} {dir : List DirEntry} {part : ℕ} {seg : FileItem}
    (himages : ImagesGive target arena (snaps dir part) p₁.estado) (hsegs : segs dir part = [seg])
    (hfile : seg.entry.content = some file) :
    let log := records (turnsOf rs₁ ++ turnsOf rs₂ ++ ts)
    let j := (records (turnsOf rs₁)).length
    ∃ n opened report tail t os sts sₘ, w.durableLsn ≤ n ∧ n ≤ log.length ∧
      recover target arena dir part = (opened, .ok (report, tail, t)) ∧
      handed opened = (log.take n).drop j ∧ report.imageLsn = j ∧ report.lastValidLsn = max j n ∧
      report.recordsApplied + report.recordsRejected = n - j ∧ report.fatalErr = .ok ∧
      tail.segmentFirstLsn = 1 ∧ tail.epoch = WalT.epochNext drawn ∧ tail.nextLsn = max j n + 1 ∧
      os.length = log.length ∧
      applyAll estado (live (log.zip os)) =
        .ok (statuses (turnsOf rs₁ ++ turnsOf rs₂ ++ ts), q.estado) ∧
      applyAll estado (live ((log.zip os).take (max j n))) = .ok (sts, sₘ) ∧ SameState sₘ t ∧
      (max j n = log.length → SameState q.estado t) := by
  intro log j
  have hp₁ : p₁.parado = false := by
    by_contra hp₁
    have := parado_exec (eq_true_of_ne_false hp₁) hrun₂
    rw [hp₂] at this
    cases this
  obtain ⟨arrived₁, -, h₁⟩ := (tally_start (p := start estado _ entrada saida) rfl).exec hrun₁
  obtain ⟨arrived₂, -, hpolled⟩ := (tally_start hp₁).exec hrun₂
  have h₂ := hpolled.drain hp₂ hturns
  rw [List.nil_append, List.nil_append] at h₁
  rw [List.nil_append, List.nil_append] at h₂
  have hlog : log = records (turnsOf rs₁) ++ records (turnsOf rs₂ ++ ts) := by
    rw [← records_append, ← List.append_assoc]
  have hstatuses : statuses (turnsOf rs₁ ++ turnsOf rs₂ ++ ts) =
      statuses (turnsOf rs₁) ++ statuses (turnsOf rs₂ ++ ts) := by
    rw [← statuses_append, ← List.append_assoc]
  have hm := h₁.log.trans (h₂.log.trans hw)
  rw [List.append_nil, ← hlog] at hm
  obtain ⟨os₁, hos₁, happlied₁⟩ := h₁.applied
  obtain ⟨os₂, hos₂, happlied₂⟩ := h₂.applied
  -- the run up to the first look, and the whole run
  have hzip : log.zip (os₁ ++ os₂) =
      (records (turnsOf rs₁)).zip os₁ ++ (records (turnsOf rs₂ ++ ts)).zip os₂ := by
    rw [hlog, List.zip_append hos₁.symm]
  have hlive : applyAll estado (live (log.zip (os₁ ++ os₂))) =
      .ok (statuses (turnsOf rs₁ ++ turnsOf rs₂ ++ ts), q.estado) := by
    rw [hzip, hstatuses, live, List.map_append]
    exact applyAll_trans happlied₁ happlied₂
  have hlen : ((records (turnsOf rs₁)).zip os₁).length = j := by
    rw [List.length_zip, hos₁, Nat.min_self]
  have hmid : applyAll estado (live ((log.zip (os₁ ++ os₂)).take j)) =
      .ok ((statuses (turnsOf rs₁ ++ turnsOf rs₂ ++ ts)).take j, p₁.estado) := by
    have hcount : (statuses (turnsOf rs₁)).length = j := by
      rw [length_statuses happlied₁, live, List.length_map, hlen]
    rw [hzip, List.take_left' hlen, hstatuses, List.take_left' hcount]
    exact happlied₁
  have hos : (os₁ ++ os₂).length = log.length := by
    rw [hlog, List.length_append, List.length_append, hos₁, hos₂]
  have hok : ∀ st ∈ statuses (turnsOf rs₁ ++ turnsOf rs₂ ++ ts), st.isFatal = false := by
    intro st hst
    rw [hstatuses] at hst
    obtain hst | hst := List.mem_append.mp hst
    · exact h₁.not_fatal hp₁ st hst
    · exact h₂.not_fatal hq st hst
  have hj : j ≤ log.length := by
    rw [hlog, List.length_append]
    exact Nat.le_add_right _ _
  have hfirst : estado.appliedLsn = 0 := by
    obtain ⟨-, -, slots, -, rfl⟩ := PartitionState.init_eq_ok hinit
    rfl
  obtain ⟨n, opened, report, tail, t, sₘ, hn, hdurable, hrecover, hhanded, hto, hsame,
    himage, hlast,
      hcount, herr, hfirstLsn, hepoch, hnext⟩ :=
    recover_crashed hm hz hcrash hcrc (PartitionState.sound_init hinit) hfirst hos hlive hok hlsn hj
      hmid himages hsegs hfile
  refine ⟨n, opened, report, tail, t, os₁ ++ os₂, _, sₘ, hdurable, hn, hrecover, hhanded,
    himage, hlast,
    hcount, herr, hfirstLsn, hepoch, hnext, hos, hlive, hto, hsame, fun hall => ?_⟩
  rw [hall, List.take_of_length_le (by rw [List.length_zip, hos, Nat.min_self])] at hto
  obtain ⟨-, rfl⟩ := Prod.mk.inj (Except.ok.inj (hto.symm.trans hlive))
  exact hsame

/-- A day opens, and an image is saved. -/
def dayFrames : List PartitionInput := purchaseArrives.take 2 ++ [.poll 0]

/-- A purchase follows. -/
def tradeFrames : List PartitionInput := purchaseArrives.drop 2 ++ [.poll 0]

/-- The segment and the image. -/
def crashedDir (file image : Bytes) : List DirEntry :=
  [⟨.segment, 0, 1, some file⟩, ⟨.image, 0, 2, some image⟩].map NamedFile.entry

/-- A purchase after the image is replayed. -/
theorem recovered_of_crash_purchase : ∃ s₀ arena₀ rs₁ p₁ rs₂ p₂ file opened report tail t,
    PartitionState.blank.init ⟨2 ^ 16, 0, false, false⟩ 1 ⟨2, 2, 2, 2, 2, 2, 2, 2, 60⟩ =
      .ok (true, s₀, arena₀) ∧
    (overBlocks (.fresh 16 256) s₀).exec dayFrames = .ok (rs₁, p₁) ∧
    p₁.exec tradeFrames = .ok (rs₂, p₂) ∧
    Crash 512 (WalOptions.created ⟨0, 0, 0, 512⟩ 7 0) p₂.diario.backend file ∧
    recover .blank ⟨2 ^ 16, 0, false, false⟩ (crashedDir file (imageOf p₁.estado)) 0 =
      (opened, .ok (report, tail, t)) ∧
    handed opened = [(Event.tradeExecuted boughtOne).record 3] ∧ SameState p₂.estado t := by
  obtain ⟨s₀, arena₀, rs₁, p₁, hinit, hrun₁, hchecked⟩ := @exists_of_checked
    ⟨2, 2, 2, 2, 2, 2, 2, 2, 60⟩ (overBlocks (.fresh 16 256)) dayFrames
    (fun _ _ rs₁ p₁ => decide (p₁.estado.cap.toPartitionCapacity = ⟨2, 2, 2, 2, 2, 2, 2, 2, 60⟩ ∧
      p₁.parado = false ∧ records (turnsOf rs₁) = purchaseRecords.take 2) &&
      decide ((p₁.exec tradeFrames).bind (fun x => .ok (decide (x.2.parado = false ∧
        x.2.diario.backend.accepted.map WriteRequest.token = [2, 3] ∧
        x.2.diario.segOffset = 5120 ∧
        records (turnsOf rs₁ ++ turnsOf x.1 ++ []) = purchaseRecords ∧
        x.2.diario.durableLsn = 3))) = .ok true)) (by decide +kernel)
  obtain ⟨hfirst, hsecond⟩ := Bool.and_eq_true_iff.mp hchecked
  obtain ⟨hcap, hp₁, hrecords₁⟩ := of_decide_eq_true hfirst
  obtain ⟨⟨rs₂, p₂⟩, hrun₂, hchecked₂⟩ := except_bind_eq_ok.mp (of_decide_eq_true hsecond)
  obtain ⟨hp₂, htokens, hoff, hrecords₂, hdurable⟩ :=
    of_decide_eq_true (Except.ok.inj hchecked₂)
  obtain ⟨arrived, -, htally₁⟩ :=
    (tally_start (p := start s₀ _ .empty (.fresh 16 256)) rfl).exec hrun₁
  obtain ⟨os, -, happlied⟩ := htally₁.applied
  have hs : p₁.estado.Sound := sound_applyAll (PartitionState.sound_init hinit) happlied
  -- the two groups of the log, which landed
  obtain ⟨arrived₂, -, htally₂⟩ := (tally_start hp₁).exec hrun₂
  have hmoves : WalT.Moves ((WalT.fresh blockAtATime).openCreate ⟨0, 0, 0, 512⟩ 7).1
      (records (turnsOf rs₁ ++ turnsOf rs₂ ++ [])) p₂.diario := by
    rw [List.append_nil, records_append]
    exact htally₁.log.trans htally₂.log
  rw [hrecords₂] at hmoves
  obtain ⟨groups, cur, hcontent⟩ := Created.moves hmoves
  obtain rfl := hcontent.groups_eq [purchaseRecords.take 2, purchaseRecords.drop 2] []
    rfl htokens
  have hend : p₂.diario.segOffset ≤ kMaxOff := hoff ▸ by decide
  have hcrash := hcontent.crash (z := 0) hend
  have hcrc := hcontent.crcSound hend (by decide) 64
    (List.forall_mem_cons.mpr
      ⟨by decide +kernel, List.forall_mem_singleton.mpr (by decide +kernel)⟩)
  set file := createdFile ⟨0, 0, 0, 512⟩ 7 0 (fun _ _ => true) p₂.diario with hfile
  have himages : ImagesGive .blank ⟨2 ^ 16, 0, false, false⟩
      (snaps (crashedDir file (imageOf p₁.estado)) 0) p₁.estado := by
    have hsnaps : snaps (crashedDir file (imageOf p₁.estado)) 0 =
        [] ++ ⟨2, NamedFile.entry ⟨.image, 0, 2, some (imageOf p₁.estado)⟩⟩ :: [] := by
      rw [snaps, crashedDir, listaArquivos_images (by simp)]
      rfl
    rw [hsnaps]
    refine .saved [] _ [] _ (by simp) rfl ⟨fun h hh => ?_, trivial⟩
    obtain rfl := Except.ok.inj (hh.symm.trans (loadHeader_imageOf hs))
    change ArenaFits _ p₁.estado.cap
    rw [hcap]
    decide
  have hsegs : segs (crashedDir file (imageOf p₁.estado)) 0 =
      [⟨1, NamedFile.entry ⟨.segment, 0, 1, some file⟩⟩] := by
    rw [segs, crashedDir, listaArquivos_segments (by simp)]
    rfl
  obtain ⟨n, opened, report, tail, t, -, -, -, hdurable', hn, hrecover, hhanded, -, -, -,
      -, -, -, -, -, -, -, -, hall⟩ :=
    recovered_of_crash blockAtATime ⟨0, 0, 0, 512⟩ 7 hinit .empty (.fresh 16 256) dayFrames
      tradeFrames hrun₁ hrun₂ hp₂ (k := 0) rfl hp₂ (.refl _) (by decide) hcrash
      (by rw [hrecords₂]; exact hcrc) (by rw [hrecords₂]; decide) himages hsegs rfl
  rw [hrecords₂] at hn hall hhanded
  rw [hrecords₁] at hall hhanded
  obtain rfl : n = 3 := le_antisymm hn (hdurable ▸ hdurable')
  exact ⟨s₀, arena₀, rs₁, p₁, rs₂, p₂, file, opened, report, tail, t, hinit, hrun₁, hrun₂,
    hcrash, hrecover, hhanded, hall rfl⟩

end Partition

end MotorRv
