import MotorRv.Wal.Content
import MotorRv.Wal.Durable

/-!
# The buffers of the groups in flight

Which buffer belongs to whom is kept in three places: a flag for each buffer, the index of the
current one, and the table of the groups in flight. They agree: the buffers of the groups in flight
are taken, one each, and the current buffer is free. What the writer copies and pads is therefore
never a buffer that the backend is still reading from.

Each group is placed where the one before it ends. The offsets are multiples of the block when the
first one is. `open` takes the offset to resume at from the tail and the block from its options, and
checks neither against the other.

`BuffersKept` joins three invariants: the content of the log (`Content`), the queue of the writes in
flight (`Fifo`) and the ownership of the buffers (`Owned`); together they are kept by every
elementary change, of which every call is a sequence. What a single call writes is read off them
afterwards (`WritesCurrent`): padding and copying touch the current buffer only.

`WalT.groupsKept_iff` is an equivalence. When the offset at which a log starts or resumes is a
multiple of its block, `GroupsKept` holds in every state of every run over every backend; when it is
not, the first group already goes to an offset that is none (`accepted_first`). A created log starts
at the header region, which is a multiple of every valid block, so the question arises for a resumed
log only.
-/

namespace MotorRv

open Lib

/-! ### Who owns a buffer -/

/-- The buffers of the queued requests are taken, one each, and hold what was handed over; the
current buffer, if there is one, is free. -/
structure Owned (g : GroupCommit) (queue : List WriteRequest) : Prop where
  flags : g.bufFree.length = kMaxBuffers
  taken : ∀ r ∈ queue, g.bufFree[r.bufIdx]? = some false
  nodup : (queue.map (·.bufIdx)).Nodup
  current : g.curBufIdx < kMaxBuffers → g.bufFree[g.curBufIdx]? = some true
  intact : ∀ r ∈ queue, (g.buffers.getD r.bufIdx []).take r.len = r.bytes

namespace Owned

variable {g g' : GroupCommit} {queue : List WriteRequest}

/-- Before the first write no buffer is owned. -/
theorem ready (g : GroupCommit) (blockSize windowNs : ℕ) :
    Owned (g.init blockSize windowNs) [] where
  flags := List.length_replicate
  taken := by simp
  nodup := List.nodup_nil
  current _ := rfl
  intact := by simp

/-- Only the flags, the current index and the buffers count. -/
theorem congr (h : Owned g queue) (hfree : g'.bufFree = g.bufFree)
    (hcur : g'.curBufIdx = g.curBufIdx) (hbuf : g'.buffers = g.buffers) : Owned g' queue where
  flags := hfree ▸ h.flags
  taken r hr := hfree ▸ h.taken r hr
  nodup := h.nodup
  current hlt := by
    rw [hfree, hcur]
    exact h.current (hcur ▸ hlt)
  intact r hr := hbuf ▸ h.intact r hr

/-- The buffer that is filled is in no write of the queue. -/
theorem ne_current (h : Owned g queue) {r : WriteRequest} (hr : r ∈ queue)
    (hcur : g.curBufIdx < kMaxBuffers) : r.bufIdx ≠ g.curBufIdx := by
  intro heq
  have htaken := h.taken r hr
  rw [heq, h.current hcur] at htaken
  cases htaken

/-- Writing the current buffer leaves the others. -/
theorem setBuffer (h : Owned g queue) (hcur : g.curBufIdx < kMaxBuffers) {b : Bytes}
    (hfree : g'.bufFree = g.bufFree) (hidx : g'.curBufIdx = g.curBufIdx)
    (hbuf : g'.buffers = g.buffers.set g.curBufIdx b) : Owned g' queue where
  flags := hfree ▸ h.flags
  taken r hr := hfree ▸ h.taken r hr
  nodup := h.nodup
  current hlt := by
    rw [hfree, hidx]
    exact h.current (hidx ▸ hlt)
  intact r hr := by
    rw [hbuf, List.getD_eq_getElem?_getD, List.getElem?_set_ne (h.ne_current hr hcur).symm,
      ← List.getD_eq_getElem?_getD]
    exact h.intact r hr

/-- Handing over the current group: its buffer is taken, and the first free one becomes current. -/
theorem launch (h : Owned g queue) (hcur : g.curBufIdx < kMaxBuffers) {r : WriteRequest}
    (hidx : r.bufIdx = g.curBufIdx) (hholds : g.curBuffer.take r.len = r.bytes) :
    Owned g.launch (queue ++ [r]) where
  flags := by simpa [GroupCommit.launch] using h.flags
  taken r' hr' := by
    show (g.bufFree.set g.curBufIdx false)[r'.bufIdx]? = _
    obtain hr' | hr' := List.mem_append.mp hr'
    · rw [List.getElem?_set_ne (h.ne_current hr' hcur).symm]
      exact h.taken r' hr'
    · rw [List.mem_singleton.mp hr', hidx]
      exact List.getElem?_set_self (h.flags ▸ hcur)
  nodup := by
    rw [List.map_append, List.nodup_append]
    refine ⟨h.nodup, List.nodup_singleton _, ?_⟩
    intro i hi j hj
    obtain ⟨r', hr', rfl⟩ := List.mem_map.mp hi
    obtain rfl : j = r.bufIdx := by simpa using hj
    rw [hidx]
    exact h.ne_current hr' hcur
  current hlt := by
    have hflags : (g.bufFree.set g.curBufIdx false).length = kMaxBuffers := by
      rw [List.length_set, h.flags]
    have hlt' : (g.bufFree.set g.curBufIdx false).findIdx id <
        (g.bufFree.set g.curBufIdx false).length := hflags ▸ hlt
    show (g.bufFree.set g.curBufIdx false)[(g.bufFree.set g.curBufIdx false).findIdx id]? = _
    rw [List.getElem?_eq_getElem hlt']
    exact congrArg some (List.findIdx_getElem (p := id) (w := hlt'))
  intact r' hr' := by
    obtain hr' | hr' := List.mem_append.mp hr'
    · exact h.intact r' hr'
    · rw [List.mem_singleton.mp hr', hidx]
      exact hholds

/-- Retiring the oldest group frees its buffer. -/
theorem retire {r : WriteRequest} (h : Owned g (r :: queue)) {f : InflightGroup}
    (hf : f.bufIdx = r.bufIdx) : Owned (g.retire f) queue := by
  have hlt : r.bufIdx < g.bufFree.length :=
    (List.getElem?_eq_some_iff.mp (h.taken r List.mem_cons_self)).1
  have hnd := List.nodup_cons.mp (List.map_cons ▸ h.nodup)
  refine ⟨?_, ?_, hnd.2, ?_, fun r' hr' => h.intact r' (List.mem_cons_of_mem r hr')⟩
  · simpa [GroupCommit.retire] using h.flags
  · intro r' hr'
    show (g.bufFree.set f.bufIdx true)[r'.bufIdx]? = _
    have hne : r.bufIdx ≠ r'.bufIdx := fun heq => hnd.1 (heq ▸ List.mem_map_of_mem hr')
    rw [hf, List.getElem?_set_ne hne]
    exact h.taken r' (List.mem_cons_of_mem r hr')
  · intro hcur
    show (g.bufFree.set f.bufIdx true)[if kMaxBuffers ≤ g.curBufIdx then f.bufIdx
      else g.curBufIdx]? = _
    rw [hf]
    split_ifs with hnone
    · exact List.getElem?_set_self hlt
    · rw [List.getElem?_set_ne (h.ne_current List.mem_cons_self (by omega))]
      exact h.current (by omega)

/-- Recording completions moves no buffer. -/
theorem foldl_note (h : Owned g queue) (cs : List Completion) :
    Owned (cs.foldl GroupCommit.noteCompletion g) queue := by
  induction cs generalizing g with
  | nil => exact h
  | cons c cs ih =>
    refine ih ?_
    unfold GroupCommit.noteCompletion
    split
    · exact h
    · exact h.congr rfl rfl rfl

/-- The advance frees the buffers of the landed prefix. -/
theorem advance {D : List Completion} : ∀ (queue : List WriteRequest) {g : GroupCommit},
    Table g D queue → Owned g queue →
      Owned (GroupCommit.advance queue.length g).2 (queue.dropWhile (landed D))
  | [], _, _, h => h
  | r :: queue, g, ht, h => by
    have hcount : 0 < g.inflightCount := by rw [ht.count]; simp
    rw [List.length_cons, GroupCommit.advance, ht.getD_head]
    by_cases hland : landed D r = true
    · -- the oldest group landed: it is retired and the scan goes on
      rw [if_pos ⟨hcount, completed_of_landed hland⟩, if_pos (show (slotOf D r).ok = true from hland),
        List.dropWhile_cons_of_pos hland]
      exact advance queue ht.retire (h.retire rfl)
    · rw [List.dropWhile_cons_of_neg hland,
        if_neg (show ¬ (slotOf D r).ok = true from hland)]
      split_ifs
      · exact h.congr rfl rfl rfl
      · exact h

end Owned

/-! ### Where the groups go -/

/-- Each request starts where the one before it ends. -/
def Contiguous : ℕ → List WriteRequest → Prop
  | _, [] => True
  | off, r :: rs => r.offset = off ∧ Contiguous (off + r.len) rs

/-- Where the requests end. -/
def endOf (off : ℕ) (rs : List WriteRequest) : ℕ := off + (rs.map (·.len)).sum

/-- One more write goes on where the others end. -/
theorem contiguous_append {off : ℕ} {rs : List WriteRequest} {r : WriteRequest} :
    Contiguous off (rs ++ [r]) ↔ Contiguous off rs ∧ r.offset = endOf off rs := by
  induction rs generalizing off with
  | nil => simp [Contiguous, endOf]
  | cons s rs ih => simp [Contiguous, ih, endOf, Nat.add_assoc, and_assoc]

/-- Contiguous writes begin at the offset of the first or behind it. -/
theorem Contiguous.le {off : ℕ} {rs : List WriteRequest} (h : Contiguous off rs) :
    ∀ r ∈ rs, off ≤ r.offset := by
  induction rs generalizing off with
  | nil => simp
  | cons s rs ih =>
    intro r hr
    obtain rfl | hr := List.mem_cons.mp hr
    · exact h.1.ge
    · exact (Nat.le_add_right _ _).trans (ih h.2 r hr)

/-- Contiguous ranges are disjoint. -/
theorem Contiguous.disjoint {off : ℕ} {rs : List WriteRequest} (h : Contiguous off rs) :
    rs.Pairwise fun r r' => r.offset + r.len ≤ r'.offset := by
  induction rs generalizing off with
  | nil => exact .nil
  | cons s rs ih =>
    refine List.pairwise_cons.mpr ⟨fun r hr => ?_, ih h.2⟩
    rw [h.1]
    exact h.2.le r hr

/-- From a multiple of the block on, every range is one. -/
theorem Contiguous.dvd {block off : ℕ} {rs : List WriteRequest} (h : Contiguous off rs)
    (hoff : block ∣ off) (hlen : ∀ r ∈ rs, block ∣ r.len) : ∀ r ∈ rs, block ∣ r.offset := by
  induction rs generalizing off with
  | nil => simp
  | cons s rs ih =>
    intro r hr
    obtain rfl | hr := List.mem_cons.mp hr
    · exact h.1 ▸ hoff
    · exact ih h.2 (dvd_add hoff (hlen s List.mem_cons_self))
        (fun r hr => hlen r (List.mem_cons_of_mem s hr)) r hr

/-- The accepted requests lie one after the other, in whole blocks, and the next one is due where
they end; the backend holds no request that it did not accept. -/
structure WritesPlaced (block base : ℕ) (w : WalT) : Prop where
  ranges : Contiguous base w.backend.accepted
  next : w.segOffset = endOf base w.backend.accepted
  whole : ∀ r ∈ w.backend.accepted, 0 < r.len ∧ block ∣ r.len
  pending : ∀ r ∈ w.backend.pending, r ∈ w.backend.accepted

/-! ### Runs -/

section Runs

variable {epoch : UInt32} {block base lsn₀ : ℕ} {w : WalT} {log : List LogRecord}
  {groups : List (List LogRecord)} {cur : List LogRecord} {done queue : List WriteRequest}

/-- What is left to do was there before. -/
theorem IoBackend.harvest_subset (picks : List (ℕ × ℤ)) (pending : List WriteRequest) :
    ∀ r ∈ (harvest picks pending).2, r ∈ pending := by
  induction picks generalizing pending with
  | nil => exact fun r hr => hr
  | cons pick picks ih =>
    obtain ⟨i, res⟩ := pick
    rw [harvest]
    cases hi : pending[i]? with
    | none => exact ih pending
    | some req => exact fun r hr => List.mem_of_mem_eraseIdx (ih _ r hr)

/-- What holds of a writer at any time. -/
structure BuffersKept (epoch : UInt32) (block base lsn₀ : ℕ) (w : WalT)
    (log : List LogRecord) : Prop where
  all : ∃ groups cur done queue, Content epoch block base lsn₀ w log groups cur ∧
    Fifo w done queue ∧ Owned w.group queue ∧ WritesPlaced block base w

/-- A group that is submitted has whole blocks, one at least. -/
theorem Content.request_len (h : Content epoch block base lsn₀ w log groups cur)
    (hblock : BlockOk block) (hsub : w.group.Submits) :
    0 < (w.group.request w.segOffset 0).len ∧ block ∣ (w.group.request w.segOffset 0).len := by
  have hlen : (w.group.request w.segOffset 0).len = padToBlock w.group.curLen block := by
    rw [GroupCommit.request, h.blockSize]
  rw [hlen]
  exact ⟨padToBlock_pos hblock.zero_lt hsub.filled, padToBlock_dvd _ _⟩

/-- A group that is submitted stands in a buffer. -/
theorem Content.lt_of_submits (h : Content epoch block base lsn₀ w log groups cur)
    (hsub : w.group.Submits) : w.group.curBufIdx < kMaxBuffers := by
  refine h.curBuf ?_
  rintro rfl
  have hlen := h.curLen
  have hpos := hsub.filled
  rw [hlen] at hpos
  exact absurd hpos (Nat.lt_irrefl 0)

/-- After the padding, the current buffer starts with what is handed over. -/
theorem Content.padded (h : Content epoch block base lsn₀ w log groups cur)
    (hblock : BlockOk block) (hsub : w.group.Submits) :
    w.group.padBuffer.curBuffer.take (w.group.request w.segOffset 0).len =
      (w.group.request w.segOffset 0).bytes := by
  have hcur := h.lt_of_submits hsub
  have hlen := h.length_curBuffer hcur
  have hpad := le_padToBlock hblock.zero_lt w.group.curLen
  have htake := take_writeAt (List.replicate
    (padToBlock w.group.curLen w.group.blockSize - w.group.curLen) 0)
    (show w.group.curLen ≤ w.group.curBuffer.length by rw [hlen]; exact h.room)
  rw [List.length_replicate, h.blockSize, Nat.add_sub_cancel' hpad] at htake
  rw [GroupCommit.request, GroupCommit.sealedBytes, h.blockSize]
  show (((w.group.buffers.set w.group.curBufIdx _).getD w.group.curBufIdx []).take _) = _
  rw [h.curBuffer_set hcur, h.blockSize]
  exact htake

/-- A record goes into the buffer that is filled. -/
theorem Owned.push (h : Owned w.group queue) {r : LogRecord}
    (htakes : w.group.Takes r.payload.length) : Owned (w.group.push epoch r) queue :=
  h.setBuffer htakes.buffer rfl rfl rfl

/-- Padding goes into the buffer that is filled. -/
theorem Owned.padBuffer (h : Owned w.group queue)
    (hc : Content epoch block base lsn₀ w log groups cur) (hsub : w.group.Submits) :
    Owned w.group.padBuffer queue :=
  h.setBuffer (hc.lt_of_submits hsub) rfl rfl rfl

/-- A group that is handed over owns its buffer from then on. -/
theorem Owned.handOver (h : Owned w.group queue)
    (hc : Content epoch block base lsn₀ w log groups cur) (hblock : BlockOk block)
    (hsub : w.group.Submits) :
    Owned w.group.padBuffer.launch (queue ++ [w.group.request w.segOffset 0]) :=
  (h.padBuffer hc hsub).launch (hc.lt_of_submits hsub) rfl (hc.padded hblock hsub)

/-- Every elementary change keeps what holds of the writer. -/
theorem BuffersKept.move (h : BuffersKept epoch block base lsn₀ w log) (hblock : BlockOk block)
    {rs : List LogRecord} {w' : WalT} (hm : WalT.Move w rs w') :
    BuffersKept epoch block base lsn₀ w' (log ++ rs) := by
  obtain ⟨groups, cur, done, queue, hc, hf, ho, hp⟩ := h.all
  obtain ⟨fin, cur', hc'⟩ := hc.move hblock hm
  cases hm with
  | push seg r hseg hlsn htakes =>
    exact ⟨_, _, done, queue, hc', hf.push hlsn, ho.push htakes,
      ⟨hp.ranges, hp.next, hp.whole, hp.pending⟩⟩
  | launch hsub hok =>
    refine ⟨_, _, done, _, hc', hf.launch hsub hok, ho.handOver hc hblock hsub, ?_⟩
    have hlen := hc.request_len hblock hsub
    rw [IoBackend.submit_of_isOk hok]
    -- the new write begins where the last one ends
    refine ⟨contiguous_append.mpr ⟨hp.ranges, hp.next⟩, ?_, ?_, ?_⟩
    · show w.segOffset + _ = endOf base (w.backend.accepted ++ [w.group.request w.segOffset 0])
      rw [hp.next, endOf, endOf, List.map_append, List.sum_append, Nat.add_assoc]
      rfl
    · intro r hr
      obtain hr | hr := List.mem_append.mp hr
      · exact hp.whole r hr
      · exact List.mem_singleton.mp hr ▸ hlen
    · intro r hr
      obtain hr | hr := List.mem_append.mp hr
      · exact List.mem_append_left _ (hp.pending r hr)
      · exact List.mem_append_right _ hr
  | refuse hsub hok =>
    -- the buffer is padded, but nothing is handed over
    refine ⟨_, _, done, queue, hc', hf.refuse hok, ho.padBuffer hc hsub, ?_⟩
    rw [IoBackend.submit_of_not_isOk hok]
    exact ⟨hp.ranges, hp.next, hp.whole, hp.pending⟩
  | collect =>
    refine ⟨_, _, _, _, hc', (hf.collect rfl).1, ?_, ?_⟩
    · have htab := hf.noted.1
      rw [GroupCommit.reap_state hf.initialized]
      dsimp only
      rw [htab.count]
      exact Owned.advance queue htab (ho.foldl_note _)
    · rw [GroupCommit.reap_state hf.initialized]
      exact ⟨hp.ranges, hp.next, hp.whole, fun r hr =>
        hp.pending r (IoBackend.harvest_subset _ _ r hr)⟩
  | stop =>
    exact ⟨_, _, done, queue, hc', ⟨hf.segment, hf.initialized, hf.accepted, hf.table, hf.retired,
      hf.durable, hf.sorted, hf.tokens, hf.failed, hf.bound, hf.current⟩, ho,
      ⟨hp.ranges, hp.next, hp.whole, hp.pending⟩⟩

/-- The buffers are kept through every run of the log. -/
theorem BuffersKept.moves (h : BuffersKept epoch block base lsn₀ w log) (hblock : BlockOk block)
    {rs : List LogRecord} {w' : WalT} (hm : WalT.Moves w rs w') :
    BuffersKept epoch block base lsn₀ w' (log ++ rs) :=
  WalT.Moves.invariant (P := fun w log => BuffersKept epoch block base lsn₀ w log)
    (fun hk hm => hk.move hblock hm) hm h

/-- The buffers are kept by a log just opened. -/
theorem BuffersKept.ready (sc : Script) (opts : WalOptions) (seg : Segment)
    (segOffset lastLsn : ℕ) :
    BuffersKept seg.epoch (effectiveBlock opts.blockSize.toNat) segOffset lastLsn
      ((WalT.fresh sc).ready opts seg segOffset lastLsn) [] :=
  ⟨[], [], [], [], Content.ready sc opts seg segOffset lastLsn,
    Fifo.ready sc opts seg segOffset lastLsn, Owned.ready _ _ _,
    ⟨trivial, rfl, by simp [WalT.ready, WalT.fresh, IoBackend.start],
      by simp [WalT.ready, WalT.fresh, IoBackend.start]⟩⟩

end Runs

/-! ### What a call writes -/

/-- The slot is that of a group in flight. -/
def GroupCommit.InFlight (g : GroupCommit) (f : InflightGroup) : Prop :=
  f ∈ g.inflight ∧ f.inUse = true

/-- From `g` to `g'` only the current buffer is written, of `g` or of `g'`, and none of the groups
in flight in `g`. -/
structure WritesCurrent (g g' : GroupCommit) : Prop where
  inside : ∀ i, g'.buffers[i]? ≠ g.buffers[i]? → i = g.curBufIdx ∨ i = g'.curBufIdx
  apart : ∀ f, g.InFlight f → g'.buffers[f.bufIdx]? = g.buffers[f.bufIdx]?

section Writes

variable {g g' : GroupCommit} {D : List Completion} {epoch : UInt32} {block base lsn₀ : ℕ}
  {w : WalT} {log : List LogRecord} {groups : List (List LogRecord)} {cur : List LogRecord}
  {done queue : List WriteRequest}

/-- The groups in flight are those of the queued requests. -/
theorem Table.inFlight_iff (h : Table g D queue) {f : InflightGroup} :
    g.InFlight f ↔ ∃ r ∈ queue, f = slotOf D r := by
  obtain ⟨idle, hview, hidle⟩ := h.view
  have hmem : f ∈ g.inflight ↔ f ∈ queue.map (slotOf D) ∨ f ∈ idle := by
    rw [← List.mem_rotate (n := g.head), hview, List.mem_append]
  rw [GroupCommit.InFlight, hmem]
  constructor
  · rintro ⟨hf | hf, huse⟩
    · obtain ⟨r, hr, rfl⟩ := List.mem_map.mp hf
      exact ⟨r, hr, rfl⟩
    · rw [hidle f hf] at huse
      cases huse
  · rintro ⟨r, hr, rfl⟩
    exact ⟨.inl (List.mem_map_of_mem hr), rfl⟩

/-- The entries in use are the writes that were not answered. -/
theorem Table.inUse_perm (h : Table g D queue) :
    (g.inflight.filter (·.inUse)).Perm (queue.map (slotOf D)) := by
  obtain ⟨idle, hview, hidle⟩ := h.view
  have hslots : (queue.map (slotOf D)).filter (·.inUse) = queue.map (slotOf D) := by
    refine List.filter_eq_self.mpr fun f hf => ?_
    obtain ⟨r, -, rfl⟩ := List.mem_map.mp hf
    rfl
  have hrest : idle.filter (·.inUse) = [] :=
    List.filter_eq_nil_iff.mpr fun f hf => by simp [hidle f hf]
  have hperm := (List.rotate_perm g.inflight g.head).symm.filter (·.inUse)
  rwa [hview, List.filter_append, hslots, hrest, List.append_nil] at hperm

/-- The buffer that is filled is in no write in flight. -/
theorem Owned.ne_of_inFlight (h : Owned g queue) (ht : Table g D queue) {f : InflightGroup}
    (hf : g.InFlight f) (hcur : g.curBufIdx < kMaxBuffers) : f.bufIdx ≠ g.curBufIdx := by
  obtain ⟨r, hr, rfl⟩ := ht.inFlight_iff.mp hf
  exact h.ne_current hr hcur

/-- At most the current buffer is written. -/
def OneWrite (g g' : GroupCommit) : Prop :=
  g'.buffers = g.buffers ∨
    g.curBufIdx < kMaxBuffers ∧ ∃ b, g'.buffers = g.buffers.set g.curBufIdx b

/-- A step that fills the buffer touches none in flight. -/
theorem OneWrite.writesCurrent (h : OneWrite g g')
    (hapart : g.curBufIdx < kMaxBuffers → ∀ f, g.InFlight f → f.bufIdx ≠ g.curBufIdx) :
    WritesCurrent g g' := by
  obtain heq | ⟨hcur, b, heq⟩ := h
  · exact ⟨fun i hi => absurd (by rw [heq]) hi, fun f _ => by rw [heq]⟩
  · refine ⟨fun i hi => .inl ?_, fun f hf => ?_⟩
    · by_contra hne
      exact hi (by rw [heq, List.getElem?_set_ne (Ne.symm hne)])
    · rw [heq, List.getElem?_set_ne (hapart hcur f hf).symm]

/-- Handing over, or trying to, writes at most the padding. -/
theorem Content.oneWrite_maybeSubmit (h : Content epoch block base lsn₀ w log groups cur)
    (now : ℕ) (force : Bool) :
    OneWrite w.group (w.group.maybeSubmit w.backend now w.segOffset 0 force).2.1 := by
  obtain h' | ⟨st, -, h'⟩ | ⟨hs, -, h'⟩ | ⟨hs, -, h'⟩ :=
    w.group.maybeSubmit_cases w.backend now w.segOffset 0 force
  · exact .inl (by rw [h'])
  · exact .inl (by rw [h'])
  · exact .inr ⟨h.lt_of_submits hs, _, by rw [h']; rfl⟩
  · exact .inr ⟨h.lt_of_submits hs, _, by rw [h']; rfl⟩

/-- Submitting a group writes to the buffer that is filled only. -/
theorem oneWrite_submitGroup (h : Content epoch block base lsn₀ w log groups cur) (now : ℕ)
    (force : Bool) : OneWrite w.group (w.submitGroup now force).2.group := by
  have hone := h.oneWrite_maybeSubmit now force
  unfold WalT.submitGroup
  generalize w.group.maybeSubmit w.backend now w.segOffset 0 force = res at hone ⊢
  obtain ⟨_ | padded, g, be⟩ := res
  · exact hone
  · exact hone

/-- Reaping writes to no buffer. -/
theorem buffers_reap (w : WalT) : w.reap.2.group.buffers = w.group.buffers := by
  unfold WalT.reap
  split_ifs
  · rfl
  · dsimp only
    split_ifs
    · exact (SameGroup.reap _ _).buffers
    · exact (SameGroup.reap _ _).buffers

/-- `append` copies into the current buffer, which is another one after a forced hand-over. -/
theorem writesCurrent_appendTo (hc : Content epoch block base lsn₀ w log groups cur)
    (hf : Fifo w done queue) (ho : Owned w.group queue) (hblock : BlockOk block) (seg : Segment)
    (tmpl : UInt16) (payload : Bytes) (tsNs : UInt64) :
    WritesCurrent w.group (w.appendTo seg.epoch tmpl payload tsNs).2.group := by
  have hapart : w.group.curBufIdx < kMaxBuffers → ∀ f, w.group.InFlight f →
      f.bufIdx ≠ w.group.curBufIdx := fun hcur f hin => ho.ne_of_inFlight hf.table hin hcur
  have hsame : WritesCurrent w.group w.group := OneWrite.writesCurrent (.inl rfl) hapart
  dsimp only [WalT.appendTo]
  obtain ⟨st, h, -⟩ | ⟨ht, h⟩ := w.group.append_cases tmpl payload tsNs seg.epoch (w.lastLsn + 1)
  · rw [h]
    dsimp only
    split_ifs with hfull
    · have hone := hc.oneWrite_maybeSubmit tsNs.toNat true
      obtain hsub | ⟨st', -, hsub⟩ | ⟨hs, hok, hsub⟩ | ⟨hs, hok, hsub⟩ :=
        w.group.maybeSubmit_cases w.backend tsNs.toNat w.segOffset 0 true
      · rw [hsub]
        exact hsame
      · rw [hsub]
        exact hsame
      · rw [hsub] at hone ⊢
        dsimp only at hone ⊢
        rw [if_pos (padToBlock_pos (hc.blockSize ▸ hblock.zero_lt) hs.filled)]
        set g₁ := w.group.padBuffer.launch with hg₁
        obtain ⟨st', happ, -⟩ | ⟨ht', happ⟩ :=
          g₁.append_cases tmpl payload tsNs seg.epoch (w.lastLsn + 1)
        · rw [happ]
          exact hone.writesCurrent hapart
        · -- the record goes into the buffer that became current
          rw [happ]
          have ho₁ := ho.handOver hc hblock hs
          have hfirst := hone.writesCurrent hapart
          have hnew : ∀ f, w.group.InFlight f → f.bufIdx ≠ g₁.curBufIdx := by
            intro f hin
            obtain ⟨r, hr, rfl⟩ := hf.table.inFlight_iff.mp hin
            exact ho₁.ne_current (List.mem_append_left _ hr) ht'.buffer
          refine ⟨fun i hi => ?_, fun f hin => ?_⟩
          · by_contra hne
            obtain ⟨hne₀, hne₁⟩ := not_or.mp hne
            refine hi ((List.getElem?_set_ne (Ne.symm hne₁)).trans ?_)
            by_contra hch
            obtain ⟨-, b, hset⟩ := hone.resolve_left fun heq => hch (by rw [heq])
            exact hch (by rw [hset, List.getElem?_set_ne (Ne.symm hne₀)])
          · exact (List.getElem?_set_ne (hnew f hin).symm).trans (hfirst.apart f hin)
      · rw [hsub] at hone ⊢
        exact hone.writesCurrent hapart
    · exact hsame
  · rw [h]
    exact OneWrite.writesCurrent (.inr ⟨ht.buffer, _, rfl⟩) hapart

/-- Whatever is called writes the current buffer only. -/
theorem BuffersKept.writes (h : BuffersKept epoch block base lsn₀ w log) (hblock : BlockOk block)
    (op : WalOp) :
    WritesCurrent w.group (w.step op).2.group := by
  obtain ⟨groups, cur, done, queue, hc, hf, ho, -⟩ := h.all
  have hapart : w.group.curBufIdx < kMaxBuffers → ∀ f, w.group.InFlight f →
      f.bufIdx ≠ w.group.curBufIdx := fun hcur f hin => ho.ne_of_inFlight hf.table hin hcur
  have hsame : WritesCurrent w.group w.group := OneWrite.writesCurrent (.inl rfl) hapart
  cases op with
  | append tmpl payload tsNs =>
    have happend : WritesCurrent w.group (w.append tmpl payload tsNs).2.group := by
      unfold WalT.append
      split
      · exact hsame
      · split_ifs
        · exact hsame
        · exact writesCurrent_appendTo hc hf ho hblock _ tmpl payload tsNs
    simp only [WalT.step]
    rcases hw : w.append tmpl payload tsNs with ⟨_ | a, w'⟩ <;> rwa [hw] at happend
  | maybeSubmit now =>
    simp only [WalT.step, WalT.maybeSubmit]
    split_ifs
    · exact hsame
    · exact (oneWrite_submitGroup hc now false).writesCurrent hapart
  | reap => exact OneWrite.writesCurrent (.inl (buffers_reap w)) hapart
  | forceCommit now =>
    have hone := oneWrite_submitGroup hc now true
    simp only [WalT.step, WalT.forceCommit]
    split_ifs
    · exact hsame
    · refine OneWrite.writesCurrent ?_ hapart
      rw [OneWrite, buffers_reap]
      exact hone
    · exact hone.writesCurrent hapart

end Writes

/-! ### The whole run -/

/-- The buffers and the ranges of a writer over blocks of `block` bytes that started at `base`. -/
structure GroupsKept (block base : ℕ) (w : WalT) : Prop where
  distinct : ((w.group.inflight.filter (·.inUse)).map (·.bufIdx)).Nodup
  apart : ∀ f, w.group.InFlight f → f.bufIdx ≠ w.group.curBufIdx
  pending : ∀ r ∈ w.backend.pending, ∃ f, w.group.InFlight f ∧ f.token = r.token ∧
    f.bufIdx = r.bufIdx ∧ f.len = r.len
  intact : ∀ r ∈ w.backend.accepted, ∀ f, w.group.InFlight f → f.token = r.token →
    (w.group.buffers.getD f.bufIdx []).take r.len = r.bytes
  size : w.group.buffers.length = kMaxBuffers ∧ ∀ b ∈ w.group.buffers, b.length = kMaxGroupBytes
  writes : ∀ op, WritesCurrent w.group (w.step op).2.group
  contiguous : Contiguous base w.backend.accepted
  disjoint : w.backend.accepted.Pairwise fun r r' => r.offset + r.len ≤ r'.offset
  aligned : ∀ r ∈ w.backend.accepted, 0 < r.len ∧ block ∣ r.len ∧ block ∣ r.offset

/-- Where the resume offset is a multiple of the block, every group keeps its place and its
bytes. -/
theorem BuffersKept.groupsKept {epoch : UInt32} {block base lsn₀ : ℕ} {w : WalT}
    {log : List LogRecord}
    (h : BuffersKept epoch block base lsn₀ w log) (hblock : BlockOk block) (hbase : block ∣ base) :
    GroupsKept block base w := by
  have hwrites := h.writes hblock
  obtain ⟨groups, cur, done, queue, hc, hf, ho, hp⟩ := h.all
  have hnodup : (w.backend.accepted.map (·.token)).Nodup := hf.sorted.imp fun hlt => hlt.ne
  refine ⟨?_, ?_, ?_, ?_, ⟨hc.buffers, hc.bufLen⟩, hwrites, hp.ranges, hp.ranges.disjoint, ?_⟩
  · have hperm := (hf.table.inUse_perm.map (·.bufIdx))
    rw [List.map_map] at hperm
    exact hperm.nodup_iff.mpr ho.nodup
  · intro f hin
    rcases Nat.lt_or_ge w.group.curBufIdx kMaxBuffers with hcur | hnone
    · exact ho.ne_of_inFlight hf.table hin hcur
    · obtain ⟨r, hr, rfl⟩ := hf.table.inFlight_iff.mp hin
      have hlt := (List.getElem?_eq_some_iff.mp (ho.taken r hr)).1
      rw [ho.flags] at hlt
      exact (lt_of_lt_of_le hlt hnone).ne
  · intro r hr
    have hacc := hp.pending r hr
    rw [hf.accepted] at hacc
    obtain hdone | hq := List.mem_append.mp hacc
    · -- a retired request was delivered, and a token is delivered or pending
      obtain ⟨c, hcd, hct, -⟩ := exists_of_landed (hf.retired r hdone)
      have hnd := (hf.tokens.nodup_iff).mpr hnodup
      rw [List.nodup_append] at hnd
      exact absurd hct (hnd.2.2 _ (List.mem_map_of_mem hcd) _ (List.mem_map_of_mem hr))
    · exact ⟨slotOf _ r, hf.table.inFlight_iff.mpr ⟨r, hq, rfl⟩, rfl, rfl, rfl⟩
  · intro r hr f hin htok
    obtain ⟨r', hr', rfl⟩ := hf.table.inFlight_iff.mp hin
    have hacc : r' ∈ w.backend.accepted := hf.accepted ▸ List.mem_append_right _ hr'
    obtain rfl := List.inj_on_of_nodup_map hnodup hacc hr htok
    exact ho.intact r' hr'
  · intro r hr
    have hlen := hp.whole r hr
    exact ⟨hlen.1, hlen.2, hp.ranges.dvd hbase (fun s hs => (hp.whole s hs).2) r hr⟩

/-- The offset that a log starts or resumes at. -/
def startOffset : Option WalTail → ℕ
  | some t => if t.epoch ≠ 0 then t.resumeOffset else kSegmentHdrBytes
  | none => kSegmentHdrBytes

/-- Whatever the backend does, opening gives the same writer over it. -/
theorem open_ready {sc : Script} {opts : WalOptions} {drawn : UInt32} {tail : Option WalTail}
    {file : Option Bytes} {w : WalT} {b : Bytes}
    (h : (WalT.fresh sc).open opts drawn tail file = .ok (w, b)) :
    ∃ seg lastLsn, ∀ sc', (WalT.fresh sc').open opts drawn tail file =
      .ok ((WalT.fresh sc').ready opts seg (startOffset tail) lastLsn, b) := by
  unfold WalT.open at h ⊢
  rcases tail with _ | t
  · obtain ⟨-, rfl⟩ := Prod.mk.inj (Except.ok.inj h)
    exact ⟨_, _, fun _ => rfl⟩
  · dsimp only [startOffset] at h ⊢
    split_ifs at h ⊢ with hepoch
    · rcases file with _ | file
      · cases h
      · dsimp only [WalT.openResume] at h ⊢
        generalize Segment.openExisting file = res at h ⊢
        rcases res with st | seg
        · cases h
        · obtain ⟨-, rfl⟩ := Prod.mk.inj (Except.ok.inj h)
          exact ⟨seg, _, fun _ => rfl⟩
    · obtain ⟨-, rfl⟩ := Prod.mk.inj (Except.ok.inj h)
      exact ⟨_, _, fun _ => rfl⟩

/-- A backend that accepts everything and completes nothing. -/
def accepting : Script := ⟨fun _ => .kOk, fun _ => []⟩

/-- The first group is due at the start. -/
theorem accepted_first (opts : WalOptions) (seg : Segment) (off lastLsn : ℕ) :
    ∃ r ∈ (((WalT.fresh accepting).ready opts seg off lastLsn).exec
      [.append 1 [] 0, .forceCommit 0]).1.backend.accepted, r.offset = off := by
  have hoffsets : (((WalT.fresh accepting).ready opts seg off lastLsn).exec
      [.append 1 [] 0, .forceCommit 0]).1.backend.accepted.map (·.offset) = [off] := by
    with_unfolding_all rfl
  exact List.mem_map.mp (hoffsets ▸ List.mem_singleton_self off)

/-- **Group buffers.** Whatever the backend does and whatever is called, in every state of a log
opened with these options and this tail: the groups in flight have buffers of their own, which hold
what was handed over and are not written; and the groups lie one after the other in whole blocks. -/
theorem WalT.groupsKept_iff {sc : Script} {opts : WalOptions} {drawn : UInt32}
    {tail : Option WalTail} {file : Option Bytes} {w : WalT} {b : Bytes}
    (hopen : (WalT.fresh sc).open opts drawn tail file = .ok (w, b)) :
    (∀ (sc' : Script) (w₀ : WalT) (b' : Bytes),
      (WalT.fresh sc').open opts drawn tail file = .ok (w₀, b') → ∀ ops : List WalOp,
        GroupsKept (effectiveBlock opts.blockSize.toNat) (startOffset tail) (w₀.exec ops).1) ↔
      effectiveBlock opts.blockSize.toNat ∣ startOffset tail := by
  obtain ⟨seg, lastLsn, hready⟩ := open_ready hopen
  constructor
  · intro hall
    obtain ⟨r, hr, hoff⟩ := accepted_first opts seg (startOffset tail) lastLsn
    have haligned := (hall accepting _ _ (hready accepting)
      [.append 1 [] 0, .forceCommit 0]).aligned r hr
    exact hoff ▸ haligned.2.2
  · intro hdvd sc' w₀ b' hopen' ops
    obtain ⟨rfl, -⟩ := Prod.mk.inj (Except.ok.inj ((hready sc').symm.trans hopen'))
    have hkept := (BuffersKept.ready sc' opts seg (startOffset tail) lastLsn).moves
      (.effectiveBlock _)
      (WalT.exec_moves _ ops)
    exact hkept.groupsKept (.effectiveBlock _) hdvd

/-- The segment of a log with blocks of 512 bytes, with one group of one record. -/
def smallSegment : Bytes :=
  (WalOptions.hdr ⟨0, 0, 0, 512⟩ 7).region ++ groupBytes 7 512 [⟨1, 0, 1, []⟩]

/-- Where it ends. -/
def smallTail : WalTail := ⟨1, 4608, 7, 2⟩

/-- A segment of small blocks is opened with larger ones. -/
theorem smallSegment_opens (sc : Script) : ∃ w,
    (WalT.fresh sc).open ⟨0, 0, 0, 4096⟩ 7 (some smallTail) (some smallSegment) =
      .ok (w, smallSegment) := by
  have hholds : HoldsAt smallSegment 0 (WalOptions.hdr ⟨0, 0, 0, 512⟩ 7).region := ⟨_, rfl⟩
  have hlen : ¬ smallSegment.length < kSegmentHdrBytes := by
    rw [smallSegment, List.length_append, SegmentHdr.length_region]
    omega
  have hsegment : Segment.openExisting smallSegment =
      .ok (.ofHdr (WalOptions.hdr ⟨0, 0, 0, 512⟩ 7)) := by
    rw [Segment.openExisting, if_neg hlen, SegmentHdr.check_eq_ok hholds]
  have hresume : (WalT.fresh sc).openResume ⟨0, 0, 0, 4096⟩ smallTail smallSegment =
      .ok ((WalT.fresh sc).ready ⟨0, 0, 0, 4096⟩
        (.ofHdr (WalOptions.hdr ⟨0, 0, 0, 512⟩ 7)) 4608 1) := by
    rw [WalT.openResume, hsegment]
    rfl
  have hopen : (WalT.fresh sc).open ⟨0, 0, 0, 4096⟩ 7 (some smallTail) (some smallSegment) =
      ((WalT.fresh sc).openResume ⟨0, 0, 0, 4096⟩ smallTail smallSegment).map fun w' =>
        (w', smallSegment) := rfl
  rw [hopen, hresume]
  exact ⟨_, rfl⟩

/-- Resumed with blocks of 4096 bytes, the log hands over a group at the offset 4608. -/
theorem WalT.not_forall_groupsKept :
    ¬ ∀ sc opts drawn tail file w b, (WalT.fresh sc).open opts drawn tail file = .ok (w, b) →
      ∀ ops, GroupsKept (effectiveBlock opts.blockSize.toNat) (startOffset tail)
        (w.exec ops).1 := by
  intro hall
  obtain ⟨w, hopen⟩ := smallSegment_opens accepting
  obtain ⟨seg, lastLsn, hready⟩ := open_ready hopen
  obtain ⟨r, hr, hoff⟩ := accepted_first ⟨0, 0, 0, 4096⟩ seg (startOffset (some smallTail)) lastLsn
  have haligned := ((hall _ _ _ _ _ _ _ (hready accepting)
    [.append 1 [] 0, .forceCommit 0]).aligned r hr).2.2
  rw [hoff] at haligned
  exact absurd haligned (by decide)

/-- A log that is created keeps its groups apart, here two with a record each. -/
theorem WalT.groupsKept_iff_create :
    GroupsKept 4096 4096 (((WalT.fresh accepting).openCreate ⟨0, 0, 0, 4096⟩ 7).1.exec
      [.append 1 [] 0, .forceCommit 0, .append 1 [] 0, .forceCommit 0]).1 :=
  (WalT.groupsKept_iff
    (show (WalT.fresh accepting).open ⟨0, 0, 0, 4096⟩ 7 none none = .ok (_, _) from rfl)).mpr
    (by decide) accepting _ _ rfl _

end MotorRv
