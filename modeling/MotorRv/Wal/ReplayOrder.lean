import MotorRv.Wal.Recovery
import MotorRv.Wal.RoundTrip

/-!
# The order of a replay

The reader checks that the LSNs of a segment follow one another, and `open` that a segment does not
begin past the LSN expected. Nothing checks that it does not begin before it: a segment that
overlaps the ones read before hands its records to `apply` again.

`InOrder` says of the segment files of a directory that each one the replay comes to begins where
the records before it end. It reads the files with the reader and the answers of `apply`, and does
not look at what a recovery notes. `recover` hands out the LSNs after that of the image, each once
and without a gap, exactly when the files are in order.

The equivalence is proved from the inside out. What a reader returns is `Succeeding`, whatever the
file holds; of one segment it is `handedOn` that reaches `apply`, up to the first answer that stops
the replay; and that is numbered from the LSN expected exactly if the segment begins there
(`numbered_handedOn`). Over the list of segments the LSN expected moves along (`numbered_readSegs`).
`DirInOrder` is the resulting condition, in terms of the files of the directory, the LSN of the
image that loads and the answers of `apply`.

Two wraps are part of the statement: a record after the last LSN has number zero, and a header that
names no first LSN accepts any. The counterexample is an ordinary directory, in which one segment is
there twice.
-/

namespace MotorRv

open Lib
open SegmentReader (Numbered)

/-! ### The LSNs of a segment -/

/-- The LSNs a reader returns from the one it expects on, where zero expects any: it does so after
the last LSN, and when the header names no first one. -/
def Succeeding : ℕ → List LogRecord → Prop
  | _, [] => True
  | n, ev :: evs => (n ≠ 0 → ev.lsn = n) ∧ ev.lsn < 2 ^ 64 ∧ Succeeding (lsnNext ev.lsn) evs

/-- The records past an LSN. -/
def past (base : ℕ) (evs : List LogRecord) : List LogRecord :=
  evs.filter fun ev => base < ev.lsn

section Past

variable {base n m : ℕ} {ev : LogRecord} {evs hs : List LogRecord}

theorem past_cons_of_lt (h : base < ev.lsn) : past base (ev :: evs) = ev :: past base evs :=
  List.filter_cons_of_pos (by simpa using h)

theorem past_cons_of_le (h : ev.lsn ≤ base) : past base (ev :: evs) = past base evs :=
  List.filter_cons_of_neg (by simpa using h)

theorem Succeeding.lsn_lt (h : Succeeding n evs) (hev : ev ∈ evs) : ev.lsn < 2 ^ 64 := by
  induction evs generalizing n with
  | nil => cases hev
  | cons e evs ih =>
    obtain rfl | hev := List.mem_cons.mp hev
    · exact h.2.1
    · exact ih h.2.2 hev

/-- The first record past an LSN is the next one, unless the segment begins later. -/
theorem Succeeding.head_past (h : Succeeding n evs) (hn : n ≠ 0)
    (hpast : past base evs = ev :: hs) :
    ev.lsn = max n (base + 1) := by
  induction evs generalizing n with
  | nil => cases hpast
  | cons e evs ih =>
    obtain ⟨hlsn, hlt, hrest⟩ := h
    have hlsn := hlsn hn
    rcases Nat.lt_or_ge base e.lsn with hb | hb
    · rw [past_cons_of_lt hb] at hpast
      obtain rfl := (List.cons.inj hpast).1
      omega
    · rw [past_cons_of_le hb] at hpast
      -- the last LSN is not skipped, because some record is past `base`
      have hev : ev ∈ past base evs := hpast ▸ List.mem_cons_self
      obtain ⟨hmem, hgt⟩ := List.mem_filter.mp hev
      have hgt : base < ev.lsn := by simpa using hgt
      have := hrest.lsn_lt hmem
      have hnext : lsnNext e.lsn = n + 1 := by
        rw [lsnNext, hlsn]
        exact Nat.mod_eq_of_lt (by omega)
      have := ih (hnext ▸ hrest) (by omega) hpast
      omega

/-- A beginning of the records past an LSN is numbered from `m` on when its first record is `m`,
as long as none follows the last LSN. -/
theorem Succeeding.numbered_iff (h : Succeeding n evs) (hpre : hs <+: past base evs) :
    Numbered m hs ↔ (∀ ev ∈ hs.head?, ev.lsn = m) ∧ ∀ ev ∈ hs.dropLast, ev.lsn + 1 ≠ 2 ^ 64 := by
  induction evs generalizing n m hs with
  | nil =>
    obtain rfl := List.prefix_nil.mp hpre
    simp [Numbered]
  | cons e evs ih =>
    obtain ⟨-, hlt, hrest⟩ := h
    rcases Nat.lt_or_ge base e.lsn with hb | hb
    · rw [past_cons_of_lt hb] at hpre
      cases hs with
      | nil => simp [Numbered]
      | cons ev hs =>
        obtain ⟨rfl, htail⟩ := List.cons_prefix_cons.mp hpre
        rw [Numbered, ih hrest htail]
        cases hs with
        | nil => simp
        | cons ev' hs =>
          obtain ⟨rest, hrest'⟩ := htail
          have hlt' : ev'.lsn < 2 ^ 64 := by
            refine hrest.lsn_lt (List.mem_of_mem_filter (p := fun ev => base < ev.lsn) ?_)
            change ev' ∈ past base evs
            rw [← hrest']
            exact List.mem_cons_self
          -- without a wrap the next record past the image has the next LSN
          have hhead : ev.lsn + 1 ≠ 2 ^ 64 → ev'.lsn = ev.lsn + 1 := by
            intro hne
            have hnext : lsnNext ev.lsn = ev.lsn + 1 := Nat.mod_eq_of_lt (by omega)
            have := (hnext ▸ hrest).head_past (by omega) hrest'.symm
            omega
          simp only [List.head?_cons, Option.mem_some_iff, forall_eq', List.dropLast_cons_cons,
            List.forall_mem_cons]
          constructor
          · rintro ⟨rfl, hev', hall⟩
            exact ⟨rfl, by omega, hall⟩
          · rintro ⟨rfl, hne, hall⟩
            exact ⟨rfl, hhead hne, hall⟩
    · rw [past_cons_of_le hb] at hpre
      exact ih hrest hpre

end Past

namespace SegmentReader

variable {r r' : SegmentReader} {ev : LogRecord}

theorem lsn_lt_of_next (hb : 0 < r.blockSize) (h : r.next = (some ev, r')) : ev.lsn < 2 ^ 64 := by
  obtain ⟨o, reason, -, -, hnext⟩ | ⟨o, ev', -, -, -, hscan, hnext⟩ := next_cases hb
  · rw [hnext] at h
    cases h
  · obtain rfl : ev' = ev := Option.some.inj (Prod.mk.inj (hnext.symm.trans h)).1
    have hrec := (recordAt_of_event hscan).1
    unfold recordAt at hrec
    dsimp only at hrec
    split_ifs at hrec
    obtain rfl := Option.some.inj hrec
    exact UInt64.toNat_lt _

/-- What the reader returns is numbered from the LSN it expects. -/
theorem Steady.succeeding (n : ℕ) : ∀ {r : SegmentReader}, r.Steady →
    Succeeding r.expectedLsn (r.readUpTo n).1 := by
  induction n with
  | zero => exact fun _ => trivial
  | succ n ih =>
    intro r h
    obtain ⟨hsteady, -, -, -, hcall⟩ := h.next
    rcases hnext : r.next with ⟨_ | ev, r'⟩
    · rw [readUpTo, hnext]
      trivial
    · rw [hnext] at hsteady hcall
      rw [readUpTo, hnext]
      refine ⟨hcall.lsn, lsn_lt_of_next h.block.zero_lt hnext, ?_⟩
      have hexp : r'.expectedLsn = lsnNext ev.lsn := hcall.expected
      exact hexp ▸ ih hsteady

end SegmentReader

/-! ### What a replay takes -/

/-- What is handed to `apply` of a list of records: all of them, or those up to the first whose
answer is fatal or never comes; and the state after them, where all were handed on. -/
def handedOn : PartitionState → List LogRecord → List LogRecord × Option PartitionState
  | s, [] => ([], some s)
  | s, ev :: evs =>
    match apply ⟨s, none⟩ ev with
    | .error _ => ([ev], none)
    | .ok (st, e) =>
      if classify st = .fatal then ([ev], none)
      else (ev :: (handedOn e.s evs).1, (handedOn e.s evs).2)

section HandedOn

variable {s t : PartitionState} {ev : LogRecord} {evs : List LogRecord}

theorem handedOn_isPrefix : ∀ (evs : List LogRecord) (s : PartitionState),
    (handedOn s evs).1 <+: evs
  | [], _ => List.nil_prefix
  | ev :: evs, s => by
    rw [handedOn]
    split
    · exact List.prefix_append [ev] evs
    · split_ifs
      · exact List.prefix_append [ev] evs
      · exact List.cons_prefix_cons.mpr ⟨rfl, handedOn_isPrefix evs _⟩

/-- The first record is always handed on. -/
theorem handedOn_ne_nil (h : evs ≠ []) : (handedOn s evs).1 ≠ [] := by
  obtain ⟨ev, evs, rfl⟩ := List.exists_cons_of_ne_nil h
  rw [handedOn]
  split
  · exact List.cons_ne_nil _ _
  · split_ifs
    · exact List.cons_ne_nil _ _
    · exact List.cons_ne_nil _ _

/-- Where the replay goes on, all the records were handed on. -/
theorem handedOn_eq : ∀ {evs : List LogRecord} {s : PartitionState},
    (handedOn s evs).2 = some t → (handedOn s evs).1 = evs
  | [], _, _ => rfl
  | ev :: evs, s, h => by
    rw [handedOn] at h ⊢
    split at h
    · cases h
    · split_ifs at h ⊢
      exact congrArg _ (handedOn_eq h)

end HandedOn

namespace Replay

variable {v v' : Replay} {r r' : SegmentReader} {ev : LogRecord} {st : Status} {s : PartitionState}

/-- The LSN expected after records. -/
def expectedAfter (n : ℕ) (evs : List LogRecord) : ℕ :=
  (evs.getLast?.map fun ev => lsnNext ev.lsn).getD n

theorem expectedAfter_cons (n : ℕ) (ev : LogRecord) (evs : List LogRecord) :
    expectedAfter n (ev :: evs) = expectedAfter (lsnNext ev.lsn) evs := by
  cases evs with
  | nil => rfl
  | cons ev' evs => simp [expectedAfter, List.getLast?_cons]

/-- A fatal answer ends the loop; any other moves the LSN expected on. -/
theorem answered_cases (v : Replay) (r : SegmentReader) (ev : LogRecord) (st : Status)
    (s : PartitionState) :
    (classify st = .fatal ∧ ∃ v', v.answered r ev st s = (true, v')) ∨
      (classify st ≠ .fatal ∧ ∃ v', v.answered r ev st s = (false, v') ∧ v'.state = s ∧
        v'.report.imageLsn = v.report.imageLsn ∧ v'.expectedLsn = lsnNext ev.lsn) := by
  unfold answered
  split_ifs with hfatal hok
  · exact .inl ⟨hfatal, _, rfl⟩
  · exact .inr ⟨hfatal, _, rfl, rfl, rfl, rfl⟩
  · exact .inr ⟨hfatal, _, rfl, rfl, rfl, rfl⟩

/-- How the loop over a segment ends when all records past the image are handed on, and when not. -/
def Ends (v : Replay) (evs : List LogRecord) (r : SegmentReader) (t : Option PartitionState)
    (out : Exec (Bool × SegmentReader × Replay)) : Prop :=
  match t with
  | none => ∀ r' v', out ≠ .ok (false, r', v')
  | some t => ∃ v', out = .ok (false, r, v') ∧ v'.state = t ∧
      v'.report.imageLsn = v.report.imageLsn ∧ v'.expectedLsn = expectedAfter v.expectedLsn evs

/-- **The loop over a segment** hands on what `handedOn` takes of the records past the image. -/
theorem readUpTo_handedOn (n : ℕ) : ∀ (r : SegmentReader) (v : Replay),
    let evs := past v.report.imageLsn (r.readUpTo n).1
    (readUpTo n r v).1 = (handedOn v.state evs).1 ∧
      v.Ends evs (r.readUpTo n).2 (handedOn v.state evs).2 (readUpTo n r v).2 := by
  induction n with
  | zero => exact fun r v => ⟨rfl, v, rfl, rfl, rfl, rfl⟩
  | succ n ih =>
    intro r v
    rcases hnext : r.next with ⟨_ | ev, r'⟩
    · rw [readUpTo, SegmentReader.readUpTo, hnext]
      exact ⟨rfl, v, rfl, rfl, rfl, rfl⟩
    rw [readUpTo, SegmentReader.readUpTo, hnext]
    dsimp only
    split_ifs with hle
    · rw [past_cons_of_le hle]
      exact ih r' v
    rw [past_cons_of_lt (not_le.mp hle), handedOn]
    rcases apply ⟨v.state, none⟩ ev with a | ⟨st, e⟩
    · exact ⟨rfl, fun _ _ h => by cases h⟩
    dsimp only
    obtain ⟨hfatal, v', hans⟩ | ⟨hfatal, v', hans, hstate, himage, hexp⟩ :=
      answered_cases v r' ev st e.s
    · rw [hans, if_pos hfatal]
      exact ⟨rfl, fun _ _ h => by cases h⟩
    -- the answer is not fatal: the rest is replayed from the state it leaves
    · rw [hans, if_neg hfatal]
      obtain ⟨hevs, hends⟩ := ih r' v'
      rw [himage, hstate] at hevs hends
      refine ⟨congrArg (ev :: ·) hevs, ?_⟩
      dsimp only
      unfold Ends at hends ⊢
      split
      · rename_i hnone
        rw [hnone] at hends
        exact hends
      · rename_i t ht
        rw [ht] at hends
        obtain ⟨w, hout, hw, hwi, hwe⟩ := hends
        exact ⟨w, hout, hw, hwi.trans himage, by rw [hwe, hexp, expectedAfter_cons]⟩

/-- A segment hands on its records past the image, up to the first answer that stops the replay. -/
theorem read_handedOn (r : SegmentReader) (v : Replay) :
    let evs := past v.report.imageLsn r.readAll.1
    (read r v).1 = (handedOn v.state evs).1 ∧
      v.Ends evs r.readAll.2 (handedOn v.state evs).2 (read r v).2 :=
  readUpTo_handedOn _ r v

end Replay

/-! ### One segment -/

/-- A segment begins with `next`, as far as it goes past the LSN of the image: the first LSN that
its header names is `next`, or not past it where nothing was replayed before; where the header names
none, the first record past the image carries `next`. -/
structure BeginsAt (base next firstLsn : ℕ) (evs : List LogRecord) : Prop where
  header : firstLsn ≠ 0 → max firstLsn (base + 1) = next
  first : firstLsn = 0 → ∀ ev ∈ evs.head?, ev.lsn = next

/-- The records handed to `apply`. -/
def handed (xs : List OpenedSegment) : List LogRecord := xs.flatMap OpenedSegment.records

/-- The records of the first segment come before those of the others. -/
theorem handed_cons (x : OpenedSegment) (xs : List OpenedSegment) :
    handed (x :: xs) = x.records ++ handed xs :=
  List.flatMap_cons

/-- **One segment.** What it hands on is numbered from `next` on just when it begins with `next` and
no record is handed on after the last LSN there is. -/
theorem numbered_handedOn {base next firstLsn : ℕ} {all : List LogRecord} (s : PartitionState)
    (hsucc : Succeeding firstLsn all) :
    Numbered next (handedOn s (past base all)).1 ↔
      (past base all ≠ [] → BeginsAt base next firstLsn (past base all)) ∧
        ∀ ev ∈ (handedOn s (past base all)).1.dropLast, ev.lsn + 1 ≠ 2 ^ 64 := by
  have hpre := handedOn_isPrefix (past base all) s
  rw [hsucc.numbered_iff hpre]
  refine and_congr_left fun _ => ?_
  by_cases hnil : past base all = []
  · rw [hnil] at hpre ⊢
    rw [List.prefix_nil.mp hpre]
    exact iff_of_true nofun fun h => absurd rfl h
  · obtain ⟨ev, rest, hpast⟩ := List.exists_cons_of_ne_nil hnil
    obtain ⟨ev', taken, htaken⟩ := List.exists_cons_of_ne_nil (handedOn_ne_nil (s := s) hnil)
    obtain rfl : ev' = ev := by
      rw [htaken, hpast] at hpre
      exact (List.cons_prefix_cons.mp hpre).1
    rw [htaken, forall_prop_of_true hnil, hpast]
    simp only [List.head?_cons, Option.mem_some_iff, forall_eq']
    constructor
    · rintro rfl
      exact ⟨fun h0 => (hsucc.head_past h0 hpast).symm, fun _ => by simp⟩
    · intro h
      by_cases h0 : firstLsn = 0
      · exact h.first h0 ev' rfl
      · exact (hsucc.head_past h0 hpast).trans (h.header h0)

/-! ### Segment after segment -/

/-- **The files are in order.** A file that cannot be read or is shorter than a header is passed
over, and one that cannot be opened ends the replay. Any other begins with the LSN that comes `next`
if it has records past the image, and no record is handed on after the last LSN there is. Where all
its records are handed on and it ends cleanly, the files after it are in order too. -/
def InOrder (base : ℕ) : List FileItem → ℕ → ℕ → PartitionState → Prop
  | [], _, _, _ => True
  | seg :: rest, expected, next, s =>
    match seg.entry.content with
    | none => InOrder base rest expected next s
    | some mapped =>
      if mapped.length < kSegmentHdrBytes then InOrder base rest expected next s
      else
        let (st, reader) := SegmentReader.open mapped expected
        let evs := past base reader.readAll.1
        st.isOk = true →
          ((evs ≠ [] → BeginsAt base next reader.firstLsn evs) ∧
            ∀ ev ∈ (handedOn s evs).1.dropLast, ev.lsn + 1 ≠ 2 ^ 64) ∧
          ∀ t, (handedOn s evs).2 = some t → reader.readAll.2.stopReason = .clean →
            InOrder base rest (Replay.expectedAfter expected evs) (next + evs.length) t

/-- A segment that is read to a clean end. -/
theorem readSegs_of_read {mapped : Bytes} {seg : FileItem} {v v' : Replay} {st : Status}
    {r r' : SegmentReader} {evs : List LogRecord} (segs : List FileItem)
    (hseg : seg.entry.content = some mapped) (hlen : kSegmentHdrBytes ≤ mapped.length)
    (hopen : SegmentReader.open mapped v.expectedLsn = (st, r)) (hok : st.isOk = true)
    (hread : Replay.read r v = (evs, .ok (false, r', v'))) (hclean : r'.stopReason = .clean) :
    (Replay.readSegs (seg :: segs) v).1 =
      ⟨v.expectedLsn, r, evs⟩ :: (Replay.readSegs segs (v'.close r')).1 := by
  rw [Replay.readSegs, hseg]
  dsimp only
  rw [if_neg (not_lt.mpr hlen), hopen]
  dsimp only
  rw [if_neg (not_not.mpr hok), hread]
  dsimp only
  rw [if_neg Bool.false_ne_true, if_neg (not_not.mpr hclean)]

/-- A segment that is read, but not to a clean end, is the last. -/
theorem readSegs_of_stop {mapped : Bytes} {seg : FileItem} {v : Replay} {st : Status}
    {r : SegmentReader} (segs : List FileItem) (hseg : seg.entry.content = some mapped)
    (hlen : kSegmentHdrBytes ≤ mapped.length)
    (hopen : SegmentReader.open mapped v.expectedLsn = (st, r)) (hok : st.isOk = true)
    (hstop : ∀ r' v', (Replay.read r v).2 = .ok (false, r', v') → r'.stopReason ≠ .clean) :
    (Replay.readSegs (seg :: segs) v).1 = [⟨v.expectedLsn, r, (Replay.read r v).1⟩] := by
  rw [Replay.readSegs, hseg]
  dsimp only
  rw [if_neg (not_lt.mpr hlen), hopen]
  dsimp only
  rw [if_neg (not_not.mpr hok)]
  rcases hrun : (Replay.read r v).2 with a | ⟨_ | _, r', v'⟩
  · rfl
  · dsimp only
    rw [if_neg Bool.false_ne_true, if_pos (hstop r' v' hrun)]
  · rfl

/-- **The segments.** What is handed on of them is numbered from `next` on just when the files are
in order. -/
theorem numbered_readSegs {base : ℕ} (segs : List FileItem) : ∀ {v : Replay} {next : ℕ},
    v.report.imageLsn = base → (Numbered next (handed (Replay.readSegs segs v).1) ↔
      InOrder base segs v.expectedLsn next v.state) := by
  induction segs with
  | nil => exact fun _ => iff_of_true trivial trivial
  | cons seg segs ih =>
    rintro v next rfl
    rw [InOrder]
    cases hseg : seg.entry.content with
    | none =>
      rw [Replay.readSegs, hseg]
      exact ih rfl
    | some mapped =>
      dsimp only
      by_cases hshort : mapped.length < kSegmentHdrBytes
      · rw [if_pos hshort, Replay.readSegs, hseg]
        dsimp only
        rw [if_pos hshort]
        exact ih rfl
      rw [if_neg hshort]
      obtain ⟨hsteady, -, -, -, hfirst⟩ := SegmentReader.steady_open mapped v.expectedLsn
      rcases hopen : SegmentReader.open mapped v.expectedLsn with ⟨st, r⟩
      rw [hopen] at hsteady hfirst
      dsimp only
      by_cases hok : st.isOk = true
      · rw [imp_iff_right hok]
        have hsucc : Succeeding r.firstLsn r.readAll.1 := (hfirst hok).1 ▸ hsteady.succeeding _
        obtain ⟨hevs, hends⟩ := Replay.read_handedOn r v
        rw [← numbered_handedOn v.state hsucc, ← hevs]
        -- a segment that is the last of the replay hands on its own records
        have hlast (hstop : ∀ r' v', (Replay.read r v).2 = .ok (false, r', v') →
            r'.stopReason ≠ .clean) : Numbered next (handed (Replay.readSegs (seg :: segs) v).1) ↔
              Numbered next (Replay.read r v).1 := by
          rw [readSegs_of_stop segs hseg (not_lt.mp hshort) hopen hok hstop, handed_cons]
          exact iff_of_eq (congrArg (Numbered next) (List.append_nil _))
        cases ht : (handedOn v.state (past v.report.imageLsn r.readAll.1)).2 with
        | none =>
          rw [ht] at hends
          rw [and_iff_left nofun]
          exact hlast fun r' v' hrun => absurd hrun (hends r' v')
        | some t =>
          rw [ht] at hends
          obtain ⟨v', hrun, rfl, himage, hexp⟩ := hends
          by_cases hclean : r.readAll.2.stopReason = .clean
          · have hall := hevs.trans (handedOn_eq ht)
            rw [readSegs_of_read segs hseg (not_lt.mp hshort) hopen hok (Prod.ext hall hrun) hclean,
              handed_cons, SegmentReader.numbered_append, hall]
            refine and_congr_right fun _ => (ih (v := v'.close r.readAll.2) himage).trans ?_
            simp only [Option.some.injEq, forall_eq', hclean, forall_const]
            exact iff_of_eq (congrArg (fun n => InOrder _ segs n _ v'.state) hexp)
          · rw [and_iff_left fun _ _ h => absurd h hclean]
            refine hlast fun r' w hrun' => ?_
            obtain ⟨rfl, -⟩ : _ ∧ _ := by simpa using hrun.symm.trans hrun'
            exact hclean
      · rw [Replay.readSegs, hseg]
        dsimp only
        rw [if_neg hshort, hopen]
        dsimp only
        rw [if_pos hok]
        exact iff_of_true trivial fun h => absurd h hok

/-! ### Recovery -/

/-- The LSN of the image that recovery loads, zero if it loads none. -/
def loadedLsn (s : PartitionState) (arena : Arena) (dir : List DirEntry) (part : ℕ) : ℕ :=
  match loadImages 0 (snaps dir part) s arena with
  | .ok (some _, s', _) => s'.appliedLsn.toNat
  | _ => 0

/-- The segment files of a directory are in order after the image. Without an image the LSN that
comes next is 1, while the files are read from the LSN that the images left in the state. -/
def DirInOrder (s : PartitionState) (arena : Arena) (dir : List DirEntry) (part : ℕ) : Prop :=
  match loadImages 0 (snaps dir part) s arena with
  | .error _ => True
  | .ok (_, s', _) =>
    InOrder s'.appliedLsn.toNat (segs dir part) (lsnNext s'.appliedLsn.toNat)
      (loadedLsn s arena dir part + 1) s'

/-- **When a replay is in order.** Whatever files stand in the directory, the records that recovery
hands to `apply` carry the LSNs after that of the image, each once and without a gap, exactly when
the segment files are in order. -/
theorem replayed_in_order_iff (s : PartitionState) (arena : Arena) (dir : List DirEntry)
    (part : ℕ) :
    Numbered (loadedLsn s arena dir part + 1) (handed (recover s arena dir part).1) ↔
      DirInOrder s arena dir part := by
  rw [DirInOrder, recover, recoverFrom]
  rcases loadImages 0 (snaps dir part) s arena with a | ⟨loaded, s', arena'⟩
  · exact iff_of_true trivial trivial
  · exact numbered_readSegs (segs dir part) (v := .start loaded s') rfl

/-! ### An overlap -/

/-- A header that names a first LSN. -/
def plainHdr (firstLsn : UInt64) : SegmentHdr := ⟨0, 1, firstLsn, 8192, 4096, 2⟩

/-- An empty record of a template that nobody knows. -/
def plainRecord (lsn : ℕ) : LogRecord := ⟨lsn, 0, 0, []⟩

/-- A segment with one record. -/
def plainSegment (firstLsn : UInt64) : Bytes :=
  (plainHdr firstLsn).region ++ encodeRecord 1 (plainRecord firstLsn.toNat)

/-- The segment is a header and one record. -/
theorem length_plainSegment (firstLsn : UInt64) :
    (plainSegment firstLsn).length = kSegmentHdrBytes + recordBytes 0 := by
  rw [plainSegment, List.length_append, SegmentHdr.length_region, length_encodeRecord]
  simp [plainRecord]

/-- The segment opens where its first LSN is not past the one expected. -/
theorem open_plainSegment {firstLsn : UInt64} {expected : ℕ} (h : firstLsn.toNat ≤ expected) :
    SegmentReader.open (plainSegment firstLsn) expected =
      (.kOk, .start (plainSegment firstLsn) (plainHdr firstLsn)) :=
  open_eq_start (List.prefix_append _ _) (.inr h)

/-- The one record of the segment is handed on when it is past the image, and then rejected. -/
theorem read_plainSegment {firstLsn : UInt64} {v : Replay}
    (h : v.report.imageLsn < firstLsn.toNat) :
    ∃ r' v', Replay.read (.start (plainSegment firstLsn) (plainHdr firstLsn)) v =
        ([plainRecord firstLsn.toNat], .ok (false, r', v')) ∧ r'.stopReason = .clean ∧
      v'.report.imageLsn = v.report.imageLsn ∧ v'.expectedLsn = lsnNext firstLsn.toNat := by
  have hlen := length_plainSegment firstLsn
  generalize hr : SegmentReader.start (plainSegment firstLsn) (plainHdr firstLsn) = r
  have hmapped : r.mapped = plainSegment firstLsn := hr ▸ rfl
  have hoff : r.offset = kSegmentHdrBytes := hr ▸ rfl
  have hepoch : r.epoch = 1 := hr ▸ rfl
  have hnext : r.next =
    (some (plainRecord firstLsn.toNat), r.accept (plainRecord firstLsn.toNat)) := by
    refine SegmentReader.next_encodeRecord ?_ (Nat.zero_le _) firstLsn.toNat_lt (hr ▸ rfl)
    rw [hmapped, hoff, hepoch, HoldsAt, plainSegment, List.drop_left' (SegmentHdr.length_region _)]
  -- behind the only record the segment ends
  have hend : (r.accept (plainRecord firstLsn.toNat)).next =
      (none, { r.accept (plainRecord firstLsn.toNat) with stopReason := .clean }) := by
    refine SegmentReader.next_of_end ?_
    simp only [SegmentReader.accept, hmapped, hoff, hlen]
    exact le_rfl
  -- no template has the id of the record: the answer is a rejection
  have happly : apply ⟨v.state, none⟩ (plainRecord firstLsn.toNat) = .ok (.fail .unknownTemplate 0,
      ⟨{ v.state with appliedLsn := UInt64.ofNat firstLsn.toNat }, none⟩) := rfl
  obtain ⟨v', hans, himage, hexp⟩ : ∃ v', v.answered (r.accept (plainRecord firstLsn.toNat))
      (plainRecord firstLsn.toNat) (.fail .unknownTemplate 0)
      { v.state with appliedLsn := UInt64.ofNat firstLsn.toNat } = (false, v') ∧
        v'.report.imageLsn = v.report.imageLsn ∧ v'.expectedLsn = lsnNext firstLsn.toNat :=
    ⟨_, rfl, rfl, rfl⟩
  have hfuel : r.mapped.length - r.offset + 1 = recordBytes 0 - 1 + 2 := by
    rw [hmapped, hoff, hlen, recordBytes, kWalHdrBytes]
    omega
  have hpast : ¬ (plainRecord firstLsn.toNat).lsn ≤ v.report.imageLsn := not_le.mpr h
  rw [Replay.read, hfuel, Replay.readUpTo, hnext]
  dsimp only
  rw [if_neg hpast, happly]
  dsimp only
  rw [hans]
  dsimp only
  rw [Replay.readUpTo, hend]
  exact ⟨_, v', rfl, rfl, himage, hexp⟩

/-- Such a segment is read wherever it does not begin past the LSN expected. -/
theorem handed_plainSegment {firstLsn : UInt64} {v : Replay} {seg : FileItem} (segs : List FileItem)
    (hseg : seg.entry.content = some (plainSegment firstLsn))
    (himage : v.report.imageLsn < firstLsn.toNat) (hexp : firstLsn.toNat ≤ v.expectedLsn) :
    ∃ v' : Replay, handed (Replay.readSegs (seg :: segs) v).1 =
        plainRecord firstLsn.toNat :: handed (Replay.readSegs segs v').1 ∧
      v'.report.imageLsn = v.report.imageLsn ∧ v'.expectedLsn = lsnNext firstLsn.toNat := by
  obtain ⟨r', v', hread, hclean, himage', hexp'⟩ := read_plainSegment himage
  have hlen : kSegmentHdrBytes ≤ (plainSegment firstLsn).length := by
    rw [length_plainSegment]
    omega
  refine ⟨v'.close r', ?_, himage', hexp'⟩
  rw [readSegs_of_read segs hseg hlen (open_plainSegment hexp) rfl hread hclean, handed_cons]
  rfl

/-- Two segments; the second is a copy of the first. -/
def overlappingDir : List DirEntry :=
  [⟨['p', '0', '_', '1', '.', 'w', 'a', 'l'], some (plainSegment 1)⟩,
    ⟨['p', '0', '_', '2', '.', 'w', 'a', 'l'], some (plainSegment 1)⟩]

/-- Overlapping segments are replayed twice: LSN 1 is handed on again where LSN 2 is due. -/
theorem not_replayed_in_order :
    ¬ Numbered (loadedLsn .blank ⟨0, 0, false, false⟩ overlappingDir 0 + 1)
    (handed (recover .blank ⟨0, 0, false, false⟩ overlappingDir 0).1) := by
  have hload : loadImages 0 (snaps overlappingDir 0) .blank ⟨0, 0, false, false⟩ =
      .ok (none, .blank, ⟨0, 0, false, false⟩) := rfl
  have hloaded : loadedLsn .blank ⟨0, 0, false, false⟩ overlappingDir 0 = 0 := by
    rw [loadedLsn, hload]
  obtain ⟨x₁, x₂, hsegs, hx₁, hx₂⟩ : ∃ x₁ x₂ : FileItem, segs overlappingDir 0 = [x₁, x₂] ∧
      x₁.entry.content = some (plainSegment 1) ∧ x₂.entry.content = some (plainSegment 1) :=
    ⟨_, _, rfl, rfl, rfl⟩
  have hone : (1 : UInt64).toNat = 1 := rfl
  have hstart : (Replay.start none .blank).report.imageLsn = 0 ∧
      (Replay.start none .blank).expectedLsn = 1 := ⟨rfl, rfl⟩
  obtain ⟨v₁, h₁, himage₁, hexp₁⟩ := handed_plainSegment [x₂] hx₁
    (hstart.1.trans_lt (by rw [hone]; exact zero_lt_one)) (hstart.2.trans hone.symm).ge
  obtain ⟨v₂, h₂, -, -⟩ := handed_plainSegment [] hx₂
    ((himage₁.trans hstart.1).trans_lt (by rw [hone]; exact zero_lt_one))
    (by rw [hexp₁, hone]; decide)
  have hhanded : handed (recover .blank ⟨0, 0, false, false⟩ overlappingDir 0).1 =
      plainRecord 1 :: plainRecord 1 :: handed (Replay.readSegs [] v₂).1 := by
    rw [recover, recoverFrom, hload, hsegs]
    exact h₁.trans (by rw [h₂]; rfl)
  rw [hloaded, hhanded]
  exact fun hnum => absurd hnum.2.1 (by decide)

end MotorRv
