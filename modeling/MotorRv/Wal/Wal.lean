import MotorRv.Wal.GroupCommit

/-!
# The log writer

`WalT` ties a segment, its group commit and a backend together: it numbers the records, places
the groups in the file and stops for good at the first failure. `open` either creates the segment
or resumes an existing one at the tail that the last recovery returned.

`step` performs one call and `exec` a whole run; `exec` also returns the records that `append`
accepted, in order. The segment file itself is not part of the writer's state: what reaches it is
the backend's affair, and is decided by the crash model of each statement.

The calls are broken into elementary changes (`Move`): a record is pushed, the current group is
handed over or refused, a harvest is collected, the log stops. `step_moves` shows every call to be a
sequence of them, whatever its branches, and `Moves.invariant` passes an invariant of the changes on
to every run. So the modules that follow prove each invariant once for each change and never open a
call.

A log that has halted refuses everything, and so does one that is not open. The random epoch and the
clock of the window are arguments; the wait for durability in real time is left out.
-/

namespace MotorRv

open Lib

/-- An open segment, by its header. -/
structure Segment where
  firstLsn : ℕ
  epoch : UInt32
  capacity : UInt64
  blockSize : UInt32
  deriving DecidableEq

namespace Segment

def ofHdr (h : SegmentHdr) : Segment := ⟨h.firstLsn.toNat, h.epoch, h.segmentBytes, h.blockSize⟩

/-- Validate the header of an existing segment file. -/
def openExisting (file : Bytes) : Except Status Segment :=
  if file.length < kSegmentHdrBytes then .error (.fail .ioError)
  else
    match SegmentHdr.check file with
    | .error e => .error (.fail e)
    | .ok h => .ok (ofHdr h)

end Segment

structure WalOptions where
  partition : UInt32
  windowNs : ℕ
  segmentBytes : UInt64
  blockSize : UInt32

/-- Where a recovered log ends. -/
structure WalTail where
  segmentFirstLsn : ℕ
  resumeOffset : ℕ
  epoch : UInt32
  nextLsn : ℕ
  deriving DecidableEq

/-- The tail before anything has been read. -/
def WalTail.none : WalTail := ⟨0, kSegmentHdrBytes, 0, 0⟩

/-- The fallback block source, as the header records it. -/
def kBlockSourceFallback : UInt8 := 2

/-- The header `open` writes when it creates the segment. -/
def WalOptions.hdr (opts : WalOptions) (epoch : UInt32) : SegmentHdr where
  partition := UInt16.ofNat opts.partition.toNat
  epoch := epoch
  firstLsn := 1
  segmentBytes := opts.segmentBytes
  blockSize := UInt32.ofNat (effectiveBlock opts.blockSize.toNat)
  blockSource := kBlockSourceFallback

structure WalT where
  segment : Option Segment
  group : GroupCommit
  backend : IoBackend
  segOffset : ℕ
  lastLsn : ℕ
  haltedFlag : Bool

namespace WalT

/-- The object as constructed over a backend. -/
def fresh (sc : Script) : WalT where
  segment := none
  group := .fresh
  backend := .start sc
  segOffset := kSegmentHdrBytes
  lastLsn := 0
  haltedFlag := false

def durableLsn (w : WalT) : ℕ := w.group.durableLsn

def halted (w : WalT) : Bool := w.haltedFlag || w.group.halted

/-- `EpochSource::next`: what the source drew, or 1 when it drew 0. -/
def epochNext (drawn : UInt32) : UInt32 := if drawn ≠ 0 then drawn else 1

/-- The writer over an open segment, ready at the given offset after the given LSN. -/
def ready (w : WalT) (opts : WalOptions) (seg : Segment) (segOffset lastLsn : ℕ) : WalT :=
  { w with
    segment := some seg
    group := w.group.init (effectiveBlock opts.blockSize.toNat) opts.windowNs
    segOffset := segOffset
    lastLsn := lastLsn
    haltedFlag := false }

/-- Create the segment: the file is truncated to its header region. -/
def openCreate (w : WalT) (opts : WalOptions) (drawn : UInt32) : WalT × Bytes :=
  let hdr := opts.hdr (epochNext drawn)
  (w.ready opts (.ofHdr hdr) kSegmentHdrBytes 0, hdr.region)

/-- Resume an existing segment at a recovered tail. -/
def openResume (w : WalT) (opts : WalOptions) (tail : WalTail) (file : Bytes) :
    Except Status WalT :=
  match Segment.openExisting file with
  | .error st => .error st
  | .ok seg => .ok (w.ready opts seg tail.resumeOffset (tail.nextLsn - 1))

/-- Open the log: resume when there is a tail with an epoch, create otherwise. The file is that of
the path `open` forms, with its content before and after. -/
def «open» (w : WalT) (opts : WalOptions) (drawn : UInt32) (tail : Option WalTail)
    (file : Option Bytes) : Except Status (WalT × Bytes) :=
  match tail with
  | some t =>
    if t.epoch ≠ 0 then
      match file with
      | none => .error (.fail .ioError)
      | some b => (w.openResume opts t b).map fun w' => (w', b)
    else .ok (w.openCreate opts drawn)
  | none => .ok (w.openCreate opts drawn)

/-- The state after a group of the given padded size was handed to the backend. -/
def afterSubmit (w : WalT) (g : GroupCommit) (be : IoBackend) (padded : ℕ) : WalT :=
  { w with group := g, backend := be, segOffset := w.segOffset + padded }

/-- `append` on an open segment that has not halted. -/
def appendTo (w : WalT) (epoch : UInt32) (tmpl : UInt16) (payload : Bytes) (tsNs : UInt64) :
    Except Status Appended × WalT :=
  let next := w.lastLsn + 1
  match w.group.append tmpl payload tsNs epoch next with
  | (.ok a, g) => (.ok a, { w with group := g, lastLsn := next })
  | (.error st, g) =>
    if st.code = .walFull then
      -- try to hand over the full group to make room
      match g.maybeSubmit w.backend tsNs.toNat w.segOffset 0 true with
      | (.ok padded, g, be) =>
        if 0 < padded then
          let w' := w.afterSubmit g be padded
          match g.append tmpl payload tsNs epoch next with
          | (.ok a, g) => (.ok a, { w' with group := g, lastLsn := next })
          | (.error _, g) => (.error (.fail .walFull), { w' with group := g })
        else (.error (.fail .walFull), { w with group := g, backend := be })
      | (.error _, g, be) => (.error (.fail .walFull), { w with group := g, backend := be })
    else (.error st, { w with group := g })

def append (w : WalT) (tmpl : UInt16) (payload : Bytes) (tsNs : UInt64) :
    Except Status Appended × WalT :=
  match w.segment with
  | none => (.error (.fail .ioError), w)
  | some seg =>
    if w.haltedFlag then (.error (.fail .ioError), w) else w.appendTo seg.epoch tmpl payload tsNs

/-- What `maybe_submit` and `force_commit` share: hand over the current group, or halt. -/
def submitGroup (w : WalT) (nowNs : ℕ) (force : Bool) : Status × WalT :=
  match w.group.maybeSubmit w.backend nowNs w.segOffset 0 force with
  | (.ok padded, g, be) => (.kOk, w.afterSubmit g be padded)
  | (.error st, g, be) => (st, { w with group := g, backend := be, haltedFlag := true })

def maybeSubmit (w : WalT) (nowNs : ℕ) : Status × WalT :=
  if w.haltedFlag ∨ w.segment = none then (.fail .ioError, w)
  else w.submitGroup nowNs false

def reap (w : WalT) : Status × WalT :=
  if w.haltedFlag ∨ w.segment = none then (.fail .ioError, w)
  else
    match w.group.reap w.backend with
    | (st, g, be) =>
      if st.isOk then (.kOk, { w with group := g, backend := be })
      else (st, { w with group := g, backend := be, haltedFlag := true })

def forceCommit (w : WalT) (nowNs : ℕ) : Status × WalT :=
  if w.haltedFlag ∨ w.segment = none then (.fail .ioError, w)
  else
    match w.submitGroup nowNs true with
    | (st, w') => if st.isOk then w'.reap else (st, w')

end WalT

/-! ### Runs -/

/-- A call on an open log. -/
inductive WalOp
  | append (tmpl : UInt16) (payload : Bytes) (tsNs : UInt64)
  | maybeSubmit (nowNs : ℕ)
  | reap
  | forceCommit (nowNs : ℕ)

namespace WalT

/-- One call: its status and the state it leaves. -/
def step (w : WalT) : WalOp → Status × WalT
  | .append tmpl payload tsNs =>
    match w.append tmpl payload tsNs with
    | (.ok _, w') => (.kOk, w')
    | (.error st, w') => (st, w')
  | .maybeSubmit nowNs => w.maybeSubmit nowNs
  | .reap => w.reap
  | .forceCommit nowNs => w.forceCommit nowNs

/-- The record that an answer of `append` acknowledges. -/
def acked (tmpl : UInt16) (tsNs : UInt64) : Except Status Appended → List LogRecord
  | .ok a => [⟨a.lsn, tsNs, tmpl, a.payload⟩]
  | .error _ => []

/-- The record a call adds to the log, if it adds one. -/
def logged (w : WalT) : WalOp → List LogRecord
  | .append tmpl payload tsNs => acked tmpl tsNs (w.append tmpl payload tsNs).1
  | _ => []

/-- A run of calls: the final state and the records appended on the way, in order. -/
def exec (w : WalT) : List WalOp → WalT × List LogRecord
  | [] => (w, [])
  | op :: ops =>
    let (w', rs) := (w.step op).2.exec ops
    (w', w.logged op ++ rs)

/-- The elementary changes that calls are made of, with the records they add. -/
inductive Move (w : WalT) : List LogRecord → WalT → Prop
  | push (seg : Segment) (r : LogRecord) (hseg : w.segment = some seg)
      (hlsn : r.lsn = w.lastLsn + 1) (htakes : w.group.Takes r.payload.length) :
      Move w [r] { w with group := w.group.push seg.epoch r, lastLsn := r.lsn }
  | launch (hsub : w.group.Submits)
      (hok : (w.backend.submit (w.group.request w.segOffset 0)).1.isOk = true) :
      Move w [] (w.afterSubmit w.group.padBuffer.launch
        (w.backend.submit (w.group.request w.segOffset 0)).2
        (padToBlock w.group.curLen w.group.blockSize))
  | refuse (hsub : w.group.Submits)
      (hok : (w.backend.submit (w.group.request w.segOffset 0)).1.isOk = false) :
      Move w [] { w with
        group := w.group.padBuffer
        backend := (w.backend.submit (w.group.request w.segOffset 0)).2 }
  | collect :
      Move w [] { w with
        group := (w.group.reap w.backend).2.1
        backend := (w.group.reap w.backend).2.2 }
  | stop : Move w [] { w with haltedFlag := true }

/-- Moves one after the other. -/
inductive Moves : WalT → List LogRecord → WalT → Prop
  | refl (w : WalT) : Moves w [] w
  | head {w w' w'' : WalT} {rs rs' : List LogRecord} :
      Move w rs w' → Moves w' rs' w'' → Moves w (rs ++ rs') w''

theorem Move.moves {w w' : WalT} {rs : List LogRecord} (h : Move w rs w') : Moves w rs w' := by
  simpa using Moves.head h (.refl w')

theorem Moves.trans {w w' w'' : WalT} {rs rs' : List LogRecord} (h : Moves w rs w')
    (h' : Moves w' rs' w'') : Moves w (rs ++ rs') w'' := by
  induction h with
  | refl w => exact h'
  | head hm _ ih =>
    rw [List.append_assoc]
    exact .head hm (ih h')

/-- Handing over the current group is at most one move. -/
private theorem submit_moves (w : WalT) (nowNs : ℕ) (force : Bool) {res : Except Status ℕ}
    {g : GroupCommit} {be : IoBackend}
    (h : w.group.maybeSubmit w.backend nowNs w.segOffset 0 force = (res, g, be)) :
    (∃ padded, res = .ok padded ∧ Moves w [] (w.afterSubmit g be padded)) ∨
      (∃ st, res = .error st ∧ st.isOk = false ∧
        Moves w [] { w with group := g, backend := be }) := by
  obtain h' | ⟨st, hst, h'⟩ | ⟨hs, hok, h'⟩ | ⟨hs, hok, h'⟩ :=
    w.group.maybeSubmit_cases w.backend nowNs w.segOffset 0 force
  all_goals
    rw [h'] at h
    obtain ⟨rfl, rfl, rfl⟩ : _ ∧ _ ∧ _ := by simpa using h
  · exact .inl ⟨0, rfl, .refl w⟩
  · exact .inr ⟨st, rfl, hst, .refl w⟩
  · exact .inl ⟨_, rfl, (Move.launch hs hok).moves⟩
  · exact .inr ⟨_, rfl, hok, (Move.refuse hs hok).moves⟩

theorem appendTo_moves (w : WalT) {seg : Segment} (hseg : w.segment = some seg) (tmpl : UInt16)
    (payload : Bytes) (tsNs : UInt64) :
    Moves w (acked tmpl tsNs (w.appendTo seg.epoch tmpl payload tsNs).1)
      (w.appendTo seg.epoch tmpl payload tsNs).2 := by
  dsimp only [appendTo]
  obtain ⟨st, h, -⟩ | ⟨ht, h⟩ := w.group.append_cases tmpl payload tsNs seg.epoch (w.lastLsn + 1)
  · rw [h]
    dsimp only
    split_ifs with hfull
    · -- the retry after a forced submit
      rcases hsub : w.group.maybeSubmit w.backend tsNs.toNat w.segOffset 0 true with ⟨res, g, be⟩
      obtain ⟨padded, rfl, hm⟩ | ⟨st', rfl, -, hm⟩ := w.submit_moves _ _ hsub
      · dsimp only
        split_ifs with hpos
        · obtain ⟨st', h', -⟩ | ⟨ht', h'⟩ :=
            g.append_cases tmpl payload tsNs seg.epoch (w.lastLsn + 1)
          · rw [h']
            exact hm
          · rw [h']
            exact hm.trans (Move.push (w := w.afterSubmit g be padded) seg
              ⟨w.lastLsn + 1, tsNs, tmpl, payload⟩ hseg rfl ht').moves
        · obtain rfl : padded = 0 := by omega
          exact hm
      · exact hm
    · exact .refl w
  · rw [h]
    exact (Move.push seg ⟨w.lastLsn + 1, tsNs, tmpl, payload⟩ hseg rfl ht).moves

/-- What `append` does: it adds the record it acknowledges, or none. -/
theorem append_moves (w : WalT) (tmpl : UInt16) (payload : Bytes) (tsNs : UInt64) :
    Moves w (acked tmpl tsNs (w.append tmpl payload tsNs).1) (w.append tmpl payload tsNs).2 := by
  unfold append
  split
  · exact .refl w
  · split_ifs
    · exact .refl w
    · exact w.appendTo_moves ‹_› tmpl payload tsNs

theorem submitGroup_moves (w : WalT) (nowNs : ℕ) (force : Bool) :
    Moves w [] (w.submitGroup nowNs force).2 := by
  unfold submitGroup
  rcases hsub : w.group.maybeSubmit w.backend nowNs w.segOffset 0 force with ⟨res, g, be⟩
  obtain ⟨padded, rfl, hm⟩ | ⟨st', rfl, -, hm⟩ := w.submit_moves _ _ hsub
  · exact hm
  · exact hm.trans (Move.stop).moves

theorem reap_moves (w : WalT) : Moves w [] w.reap.2 := by
  unfold reap
  split_ifs
  · exact .refl w
  · dsimp only
    split_ifs
    · exact (Move.collect).moves
    · exact (Move.collect (w := w)).moves.trans (Move.stop).moves

/-- Every call is made of elementary changes. -/
theorem step_moves (w : WalT) (op : WalOp) : Moves w (w.logged op) (w.step op).2 := by
  cases op with
  | append tmpl payload tsNs =>
    have h := w.append_moves tmpl payload tsNs
    simp only [step, logged]
    rcases hw : w.append tmpl payload tsNs with ⟨_ | a, w'⟩ <;> simpa [hw] using h
  | maybeSubmit nowNs =>
    simp only [step, maybeSubmit, logged]
    split_ifs
    · exact .refl w
    · exact w.submitGroup_moves nowNs false
  | reap => exact w.reap_moves
  | forceCommit nowNs =>
    have hm := w.submitGroup_moves nowNs true
    simp only [step, forceCommit, logged]
    split_ifs
    · exact .refl w
    · exact hm.trans (reap_moves _)
    · exact hm

/-- So is every run. -/
theorem exec_moves (w : WalT) (ops : List WalOp) : Moves w (w.exec ops).2 (w.exec ops).1 := by
  induction ops generalizing w with
  | nil => exact .refl w
  | cons op ops ih => exact (w.step_moves op).trans (ih _)

/-- An invariant of the elementary changes holds along every run. -/
theorem Moves.invariant {P : WalT → List LogRecord → Prop}
    (hstep : ∀ {w w' log rs}, P w log → Move w rs w' → P w' (log ++ rs)) {w w' : WalT}
    {log rs : List LogRecord} (h : Moves w rs w') (h0 : P w log) : P w' (log ++ rs) := by
  induction h generalizing log with
  | refl w => simpa using h0
  | head hm _ ih =>
    rw [← List.append_assoc]
    exact ih (hstep h0 hm)

/-- What no call changes, and how far the numbering moves. -/
theorem Moves.keeps {w w' : WalT} {rs : List LogRecord} (h : Moves w rs w') :
    w'.segment = w.segment ∧ w'.group.initialized = w.group.initialized ∧
      w'.lastLsn = w.lastLsn + rs.length := by
  induction h with
  | refl w => exact ⟨rfl, rfl, rfl⟩
  | head hm _ ih =>
    obtain ⟨hseg, hinit, hlsn⟩ := ih
    rw [hseg, hinit, hlsn, List.length_append, ← Nat.add_assoc]
    cases hm with
    | push seg r _ hr _ => exact ⟨rfl, rfl, congrArg (· + _) hr⟩
    | launch _ _ => exact ⟨rfl, rfl, rfl⟩
    | refuse _ _ => exact ⟨rfl, rfl, rfl⟩
    | collect => exact ⟨rfl, (SameGroup.reap _ _).initialized, rfl⟩
    | stop => exact ⟨rfl, rfl, rfl⟩

end WalT

end MotorRv
