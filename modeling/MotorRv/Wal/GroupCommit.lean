import MotorRv.Lib.Ring
import MotorRv.Wal.IoBackend

/-!
# Group commit

The writer's buffers, the group being filled, the circular table of groups in flight, and the
operations `append`, `maybeSubmit` and `reap` on them. LSNs and offsets are natural numbers: both
are counters that start low and move by one record or one group at a time.

Each operation comes with a lemma that lists its outcomes: `append_cases`, `maybeSubmit_cases` and
`reap_state`. The outcomes are named state changes (`push`, `padBuffer`, `launch`, `noteCompletion`,
`retire`), and every invariant of the writer is proved for these rather than for the operations, so
that the branches of the code are gone through once.

A harvest leaves the group that is being filled alone, and `SameGroup` says so; what it does to the
table and to the durable LSN is the subject of the module on the durable LSN.
-/

namespace MotorRv

open Lib

def kMaxBuffers : ℕ := 8

/-- One slot of the table of groups in flight. -/
structure InflightGroup where
  token : ℕ
  bufIdx : ℕ
  len : ℕ
  inUse : Bool
  completed : Bool
  ok : Bool
  deriving DecidableEq, Inhabited

/-- The slot before its first use. -/
def InflightGroup.blank : InflightGroup := ⟨0, 0, 0, false, false, false⟩

structure GroupCommit where
  buffers : List Bytes
  bufFree : List Bool
  blockSize : ℕ
  windowNs : ℕ
  curBufIdx : ℕ
  curLen : ℕ
  curDeadlineNs : ℕ
  curFirstLsn : ℕ
  curLastLsn : ℕ
  inflight : List InflightGroup
  head : ℕ
  tail : ℕ
  inflightCount : ℕ
  durableLsn : ℕ
  halted : Bool
  initialized : Bool

/-- What `append` hands back: the LSN and the payload in the commit buffer. -/
structure Appended where
  lsn : ℕ
  payload : Bytes

namespace GroupCommit

/-- The object as constructed, before `init`. -/
def fresh : GroupCommit where
  buffers := List.replicate kMaxBuffers []
  bufFree := List.replicate kMaxBuffers false
  blockSize := kFallbackBlock
  windowNs := 100000
  curBufIdx := 0
  curLen := 0
  curDeadlineNs := 0
  curFirstLsn := 0
  curLastLsn := 0
  inflight := List.replicate kMaxInflight .blank
  head := 0
  tail := 0
  inflightCount := 0
  durableLsn := 0
  halted := false
  initialized := false

/-- `init`, with the buffers allocated and registered. The table of groups in flight keeps
whatever it held: only its indices are reset. -/
def init (g : GroupCommit) (blockSize windowNs : ℕ) : GroupCommit :=
  { g with
    buffers := List.replicate kMaxBuffers (List.replicate kMaxGroupBytes 0)
    bufFree := List.replicate kMaxBuffers true
    blockSize := blockSize
    windowNs := windowNs
    curBufIdx := 0
    curLen := 0
    curDeadlineNs := 0
    curFirstLsn := 0
    curLastLsn := 0
    head := 0
    tail := 0
    inflightCount := 0
    durableLsn := 0
    halted := false
    initialized := true }

/-- The current commit buffer. -/
def curBuffer (g : GroupCommit) : Bytes := g.buffers.getD g.curBufIdx []

/-- The state after a record has been copied into the current buffer. -/
def push (g : GroupCommit) (epoch : UInt32) (r : LogRecord) : GroupCommit :=
  { g with
    buffers := g.buffers.set g.curBufIdx (writeAt g.curBuffer g.curLen (encodeRecord epoch r))
    -- the first record of a group opens its window
    curFirstLsn := if g.curLen = 0 then r.lsn else g.curFirstLsn
    curDeadlineNs :=
      if g.curLen = 0 then (r.tsNs.toNat + g.windowNs) % 2 ^ 64 else g.curDeadlineNs
    curLen := g.curLen + recordBytes r.payload.length
    curLastLsn := r.lsn }

def append (g : GroupCommit) (tmpl : UInt16) (payload : Bytes) (tsNs : UInt64) (epoch : UInt32)
    (lsn : ℕ) : Except Status Appended × GroupCommit :=
  if g.halted then (.error (.fail .ioError), g)
  else if !g.initialized then (.error (.fail .invalidArgument), g)
  else if kMaxPayload < payload.length then (.error (.fail .outOfRange), g)
  else if kMaxGroupBytes < recordBytes payload.length then (.error (.fail .outOfRange), g)
  else if kMaxBuffers ≤ g.curBufIdx then (.error (.fail .walFull), g)
  else if 0 < g.curLen ∧ kMaxGroupBytes < g.curLen + recordBytes payload.length then
    (.error (.fail .walFull), g)
  else (.ok ⟨lsn, payload⟩, g.push epoch ⟨lsn, tsNs, tmpl, payload⟩)

/-- The current buffer takes a record with a payload of this length. -/
structure Takes (g : GroupCommit) (len : ℕ) : Prop where
  running : g.halted = false
  payload : len ≤ kMaxPayload
  buffer : g.curBufIdx < kMaxBuffers
  room : g.curLen + recordBytes len ≤ kMaxGroupBytes

/-- `append` changes nothing, or it copies the record in. -/
theorem append_cases (g : GroupCommit) (tmpl : UInt16) (payload : Bytes) (tsNs : UInt64)
    (epoch : UInt32) (lsn : ℕ) :
    (∃ st, g.append tmpl payload tsNs epoch lsn = (.error st, g) ∧ st.isOk = false) ∨
      (g.Takes payload.length ∧ g.append tmpl payload tsNs epoch lsn =
        (.ok ⟨lsn, payload⟩, g.push epoch ⟨lsn, tsNs, tmpl, payload⟩)) := by
  unfold append
  split_ifs with h1 h2 h3 h4 h5 h6
  · exact .inl ⟨_, rfl, rfl⟩
  · exact .inl ⟨_, rfl, rfl⟩
  · exact .inl ⟨_, rfl, rfl⟩
  · exact .inl ⟨_, rfl, rfl⟩
  · exact .inl ⟨_, rfl, rfl⟩
  · exact .inl ⟨_, rfl, rfl⟩
  · refine .inr ⟨⟨by simpa using h1, by omega, by omega, ?_⟩, rfl⟩
    by_contra hroom
    exact h6 ⟨by omega, by omega⟩

/-- The bytes to write: the current group, zero-filled up to the block. -/
def sealedBytes (g : GroupCommit) : Bytes :=
  g.curBuffer.take g.curLen ++
    List.replicate (padToBlock g.curLen g.blockSize - g.curLen) 0

/-- The write request of the current group. -/
def request (g : GroupCommit) (fileOffset fileIdx : ℕ) : WriteRequest where
  bytes := g.sealedBytes
  offset := fileOffset
  token := g.curLastLsn
  len := padToBlock g.curLen g.blockSize
  bufIdx := g.curBufIdx
  fileIdx := fileIdx

/-- The padding `maybeSubmit` leaves in the current buffer. -/
def padBuffer (g : GroupCommit) : GroupCommit :=
  { g with
    buffers := g.buffers.set g.curBufIdx (writeAt g.curBuffer g.curLen
      (List.replicate (padToBlock g.curLen g.blockSize - g.curLen) 0)) }

/-- The state after the backend took the current group. -/
def launch (g : GroupCommit) : GroupCommit :=
  let bufFree := g.bufFree.set g.curBufIdx false
  { g with
    inflight := g.inflight.set g.tail
      ⟨g.curLastLsn, g.curBufIdx, padToBlock g.curLen g.blockSize, true, false, false⟩
    tail := (g.tail + 1) % kMaxInflight
    inflightCount := g.inflightCount + 1
    bufFree := bufFree
    -- the first free buffer, or `kMaxBuffers` when there is none
    curBufIdx := bufFree.findIdx id
    curLen := 0
    curFirstLsn := 0
    curLastLsn := 0
    curDeadlineNs := 0 }

def maybeSubmit (g : GroupCommit) (be : IoBackend) (nowNs fileOffset fileIdx : ℕ) (force : Bool) :
    Except Status ℕ × GroupCommit × IoBackend :=
  if g.halted then (.error (.fail .ioError), g, be)
  else if !g.initialized then (.error (.fail .invalidArgument), g, be)
  else if g.curLen = 0 then (.ok 0, g, be)
  else if !force ∧ nowNs < g.curDeadlineNs ∧ g.curLen < kMaxGroupBytes then (.ok 0, g, be)
  else if kMaxInflight ≤ g.inflightCount then (.error (.fail .walFull), g, be)
  else
    match be.submit (g.request fileOffset fileIdx) with
    | (st, be') =>
      if st.isOk then (.ok (padToBlock g.curLen g.blockSize), g.padBuffer.launch, be')
      else (.error st, g.padBuffer, be')

/-- There is a group to hand over and a slot for it. -/
structure Submits (g : GroupCommit) : Prop where
  running : g.halted = false
  filled : 0 < g.curLen
  slot : g.inflightCount < kMaxInflight

/-- `maybeSubmit` changes nothing, or the backend takes the current group, or it refuses it. -/
theorem maybeSubmit_cases (g : GroupCommit) (be : IoBackend) (nowNs fileOffset fileIdx : ℕ)
    (force : Bool) :
    g.maybeSubmit be nowNs fileOffset fileIdx force = (.ok 0, g, be) ∨
    (∃ st, st.isOk = false ∧
      g.maybeSubmit be nowNs fileOffset fileIdx force = (.error st, g, be)) ∨
    (g.Submits ∧ (be.submit (g.request fileOffset fileIdx)).1.isOk = true ∧
      g.maybeSubmit be nowNs fileOffset fileIdx force =
        (.ok (padToBlock g.curLen g.blockSize), g.padBuffer.launch,
          (be.submit (g.request fileOffset fileIdx)).2)) ∨
    (g.Submits ∧ (be.submit (g.request fileOffset fileIdx)).1.isOk = false ∧
      g.maybeSubmit be nowNs fileOffset fileIdx force =
        (.error (be.submit (g.request fileOffset fileIdx)).1, g.padBuffer,
          (be.submit (g.request fileOffset fileIdx)).2)) := by
  unfold maybeSubmit
  split_ifs with h1 h2 h3 h4 h5
  · exact .inr (.inl ⟨_, rfl, rfl⟩)
  · exact .inr (.inl ⟨_, rfl, rfl⟩)
  · exact .inl rfl
  · exact .inl rfl
  · exact .inr (.inl ⟨_, rfl, rfl⟩)
  · have hs : g.Submits := ⟨by simpa using h1, by omega, by omega⟩
    cases hst : (be.submit (g.request fileOffset fileIdx)).1.isOk with
    | true => exact .inr (.inr (.inl ⟨hs, rfl, by simp [hst]⟩))
    | false => exact .inr (.inr (.inr ⟨hs, rfl, by simp [hst]⟩))

/-- Record one completion in the slot of its group, if there is one; a failure halts. -/
def noteCompletion (g : GroupCommit) (c : Completion) : GroupCommit :=
  match g.inflight.findIdx? fun f => f.inUse && decide (f.token = c.token) with
  | none => g
  | some j =>
    { g with
      inflight := g.inflight.set j
        { g.inflight.getD j .blank with completed := true, ok := c.ok }
      halted := if c.ok then g.halted else true }

/-- The state after the oldest group in flight is retired as durable. -/
def retire (g : GroupCommit) (f : InflightGroup) : GroupCommit :=
  { g with
    durableLsn := f.token
    bufFree := g.bufFree.set f.bufIdx true
    curBufIdx := if kMaxBuffers ≤ g.curBufIdx then f.bufIdx else g.curBufIdx
    inflight := g.inflight.set g.head { f with inUse := false }
    head := (g.head + 1) % kMaxInflight
    inflightCount := g.inflightCount - 1 }

/-- The strictly FIFO advance: retire completed groups from the head on, stop at the first that is
not completed, halt at the first that failed. The fuel is the number of groups in flight. -/
def advance : ℕ → GroupCommit → Bool × GroupCommit
  | 0, g => (true, g)
  | n + 1, g =>
    let f := g.inflight.getD g.head .blank
    if 0 < g.inflightCount ∧ f.completed then
      if f.ok then advance n (g.retire f) else (false, { g with halted := true })
    else (true, g)

def reap (g : GroupCommit) (be : IoBackend) : Status × GroupCommit × IoBackend :=
  if !g.initialized then (.fail .invalidArgument, g, be)
  else
    match be.reap kMaxInflight with
    | (cs, be') =>
      let g := cs.foldl noteCompletion g
      match advance g.inflightCount g with
      | (true, g) => (if g.halted then .fail .ioError else .kOk, g, be')
      | (false, g) => (.fail .ioError, g, be')

/-- The state `reap` leaves: the harvest recorded, then the landed prefix retired. -/
theorem reap_state {g : GroupCommit} (hinit : g.initialized = true) (be : IoBackend) :
    let g₁ := (be.reap kMaxInflight).1.foldl noteCompletion g
    (g.reap be).2 = ((advance g₁.inflightCount g₁).2, (be.reap kMaxInflight).2) := by
  unfold reap
  rw [if_neg (by simp [hinit])]
  dsimp only
  rcases advance _ _ with ⟨_ | _, g'⟩ <;> rfl

end GroupCommit

/-! ### What a harvest leaves alone -/

/-- Everything but the table, the halting flag, the durable LSN and the buffers in use is left
alone by a harvest. -/
structure SameGroup (g g' : GroupCommit) : Prop where
  buffers : g'.buffers = g.buffers
  blockSize : g'.blockSize = g.blockSize
  windowNs : g'.windowNs = g.windowNs
  curLen : g'.curLen = g.curLen
  curLastLsn : g'.curLastLsn = g.curLastLsn
  curBufIdx : g.curBufIdx < kMaxBuffers → g'.curBufIdx = g.curBufIdx
  initialized : g'.initialized = g.initialized
  halted : g.halted = true → g'.halted = true

theorem SameGroup.refl (g : GroupCommit) : SameGroup g g :=
  ⟨rfl, rfl, rfl, rfl, rfl, fun _ => rfl, rfl, id⟩

theorem SameGroup.trans {g g' g'' : GroupCommit} (h : SameGroup g g') (h' : SameGroup g' g'') :
    SameGroup g g'' where
  buffers := h'.buffers.trans h.buffers
  blockSize := h'.blockSize.trans h.blockSize
  windowNs := h'.windowNs.trans h.windowNs
  curLen := h'.curLen.trans h.curLen
  curLastLsn := h'.curLastLsn.trans h.curLastLsn
  curBufIdx hb := (h'.curBufIdx (h.curBufIdx hb ▸ hb)).trans (h.curBufIdx hb)
  initialized := h'.initialized.trans h.initialized
  halted := h'.halted ∘ h.halted

theorem SameGroup.noteCompletion (g : GroupCommit) (c : Completion) :
    SameGroup g (g.noteCompletion c) := by
  unfold GroupCommit.noteCompletion
  split
  · exact .refl g
  · exact ⟨rfl, rfl, rfl, rfl, rfl, fun _ => rfl, rfl, fun hg => by simp [hg]⟩

theorem SameGroup.foldl_note (cs : List Completion) (g : GroupCommit) :
    SameGroup g (cs.foldl GroupCommit.noteCompletion g) := by
  induction cs generalizing g with
  | nil => exact .refl g
  | cons c cs ih => exact (SameGroup.noteCompletion g c).trans (ih _)

theorem SameGroup.advance (n : ℕ) (g : GroupCommit) : SameGroup g (GroupCommit.advance n g).2 := by
  induction n generalizing g with
  | zero => exact .refl g
  | succ n ih =>
    unfold GroupCommit.advance
    dsimp only
    split_ifs
    · have hretire : SameGroup g (g.retire (g.inflight.getD g.head .blank)) :=
        ⟨rfl, rfl, rfl, rfl, rfl, fun hb => if_neg (by omega), rfl, id⟩
      exact hretire.trans (ih _)
    · exact ⟨rfl, rfl, rfl, rfl, rfl, fun _ => rfl, rfl, fun _ => rfl⟩
    · exact .refl g

theorem SameGroup.reap (g : GroupCommit) (be : IoBackend) : SameGroup g (g.reap be).2.1 := by
  cases hinit : g.initialized with
  | false =>
    rw [GroupCommit.reap, if_pos (by simp [hinit])]
    exact .refl g
  | true =>
    rw [GroupCommit.reap_state hinit be]
    exact (SameGroup.foldl_note _ g).trans (SameGroup.advance _ _)

end MotorRv
