import MotorRv.Wal.Durable
import MotorRv.Wal.ReadBack

/-!
# What the writer has handed over

The log of a run — the records that `append` acknowledged — is cut into groups: those handed to
the backend, whose write requests are laid out one after the other from the offset the writer was
opened at (`layout`), and the current one, whose bytes stand in the current buffer.

`Content` is the invariant that connects the records, which callers think in, with the bytes, which
the backend is given. Every elementary change of the writer keeps it (`Content.move`): a record is
pushed into the current buffer, a group is padded, a group is handed over and the next one begins.
It does not mention the table of groups in flight, which is the business of the durable LSN.

Because the requests are a layout of the groups, an offset, a token or a sequence of tokens
determines a place in the log: `layout_bounds` bounds an LSN by its offset, `lastToken_layout`
counts the records handed over, and `Content.groups_eq` finds the groups from the tokens alone.
-/

namespace MotorRv

open Lib

/-- Offset, bytes and last LSN of the groups laid out from an offset and an LSN on. -/
def layout (epoch : UInt32) (block : ℕ) : ℕ → ℕ → List (List LogRecord) → List (ℕ × Bytes × ℕ)
  | _, _, [] => []
  | off, lsn, g :: gs =>
    (off, groupBytes epoch block g, lsn + g.length) ::
      layout epoch block (off + (groupBytes epoch block g).length) (lsn + g.length) gs

theorem layout_append (epoch : UInt32) (block off lsn : ℕ) (gs hs : List (List LogRecord)) :
    layout epoch block off lsn (gs ++ hs) = layout epoch block off lsn gs ++
      layout epoch block (off + (gs.flatMap (groupBytes epoch block)).length)
        (lsn + gs.flatten.length) hs := by
  induction gs generalizing off lsn with
  | nil => simp [layout]
  | cons g gs ih =>
    rw [List.cons_append, layout, ih, layout]
    simp [Nat.add_assoc]

theorem layout_take (epoch : UInt32) (block off lsn : ℕ) (gs : List (List LogRecord)) (k : ℕ) :
    (layout epoch block off lsn gs).take k = layout epoch block off lsn (gs.take k) := by
  induction gs generalizing off lsn k with
  | nil => simp [layout]
  | cons g gs ih =>
    cases k with
    | zero => simp [layout]
    | succ k => simp [layout, ih]

/-- A record takes at least its header. -/
theorem length_le_encodeRecords (epoch : UInt32) (rs : List LogRecord) :
    32 * rs.length ≤ (encodeRecords epoch rs).length := by
  induction rs with
  | nil => simp
  | cons r rs ih =>
    rw [encodeRecords_cons, List.length_append, length_encodeRecord, recordBytes, kWalHdrBytes,
      List.length_cons]
    omega

/-- The groups stay inside the range they are laid out in, and no LSN outruns its offset. -/
theorem layout_bounds {epoch : UInt32} {block off lsn : ℕ} {gs : List (List LogRecord)}
    {p : ℕ × Bytes × ℕ} (hp : p ∈ layout epoch block off lsn gs) :
    off ≤ p.1 ∧ p.1 + p.2.1.length ≤ off + (gs.flatMap (groupBytes epoch block)).length ∧
      32 * p.2.2 + off ≤ 32 * lsn + p.1 + p.2.1.length := by
  induction gs generalizing off lsn with
  | nil => simp [layout] at hp
  | cons g gs ih =>
    have hlen : 32 * g.length ≤ (groupBytes epoch block g).length := by
      rw [groupBytes, List.length_append]
      exact (length_le_encodeRecords epoch g).trans (Nat.le_add_right _ _)
    rw [List.flatMap_cons, List.length_append]
    rw [layout] at hp
    obtain rfl | hp := List.mem_cons.mp hp
    · exact ⟨le_rfl, by dsimp only; omega, by dsimp only; omega⟩
    · obtain ⟨h1, h2, h3⟩ := ih hp
      exact ⟨by omega, by omega, by omega⟩

theorem bytes_of_mem_layout {epoch : UInt32} {block off lsn : ℕ} {gs : List (List LogRecord)}
    {p : ℕ × Bytes × ℕ} (hp : p ∈ layout epoch block off lsn gs) :
    ∃ g, p.2.1 = groupBytes epoch block g := by
  induction gs generalizing off lsn with
  | nil => simp [layout] at hp
  | cons g gs ih =>
    rw [layout] at hp
    obtain rfl | hp := List.mem_cons.mp hp
    · exact ⟨g, rfl⟩
    · exact ih hp

/-- The groups stand one behind the other. -/
theorem layout_pairwise (epoch : UInt32) (block off lsn : ℕ) (gs : List (List LogRecord)) :
    (layout epoch block off lsn gs).Pairwise fun p q => p.1 + p.2.1.length ≤ q.1 := by
  induction gs generalizing off lsn with
  | nil => exact .nil
  | cons g gs ih =>
    rw [layout]
    exact List.pairwise_cons.mpr ⟨fun q hq => (layout_bounds hq).1, ih _ _⟩

/-- If every group stands at its place, their bytes stand one after the other. -/
theorem holdsAt_layout {epoch : UInt32} {block off lsn : ℕ} {gs : List (List LogRecord)}
    {b : Bytes} (h : ∀ p ∈ layout epoch block off lsn gs, HoldsAt b p.1 p.2.1) :
    HoldsAt b off (gs.flatMap (groupBytes epoch block)) := by
  induction gs generalizing off lsn with
  | nil => exact HoldsAt.nil _ _
  | cons g gs ih =>
    rw [List.flatMap_cons, holdsAt_append]
    rw [layout] at h
    exact ⟨h _ List.mem_cons_self, ih fun p hp => h p (List.mem_cons_of_mem _ hp)⟩

/-- Groups take whole blocks together. -/
theorem dvd_length_flatMap_groupBytes {block : ℕ} (hpos : 0 < block) (epoch : UInt32)
    (gs : List (List LogRecord)) : block ∣ (gs.flatMap (groupBytes epoch block)).length := by
  induction gs with
  | nil => exact dvd_zero _
  | cons g gs ih =>
    rw [List.flatMap_cons, List.length_append]
    exact dvd_add (dvd_length_groupBytes hpos epoch g) ih

/-- An offset inside of groups laid out one after the other is inside of one of them. -/
theorem exists_group {epoch : UInt32} {block : ℕ} {gs : List (List LogRecord)} {i : ℕ}
    (h : i < (gs.flatMap (groupBytes epoch block)).length) :
    ∃ pre g post j, gs = pre ++ g :: post ∧
      i = (pre.flatMap (groupBytes epoch block)).length + j ∧
      j < (groupBytes epoch block g).length := by
  induction gs generalizing i with
  | nil => simp at h
  | cons g gs ih =>
    rcases Nat.lt_or_ge i (groupBytes epoch block g).length with hlt | hge
    · exact ⟨[], g, gs, i, rfl, by simp, hlt⟩
    · rw [List.flatMap_cons, List.length_append] at h
      obtain ⟨pre, g', post, j, rfl, hj, hlt⟩ :=
        @ih (i - (groupBytes epoch block g).length) (by omega)
      refine ⟨g :: pre, g', post, j, rfl, ?_, hlt⟩
      rw [List.flatMap_cons, List.length_append]
      omega

/-- The tokens tell where a log was cut into groups. -/
theorem groups_of_tokens {epoch : UInt32} {block : ℕ} {gs : List (List LogRecord)} :
    ∀ {hs : List (List LogRecord)} {cur cur' : List LogRecord} {off off' lsn : ℕ},
      gs.flatten ++ cur = hs.flatten ++ cur' →
      (layout epoch block off lsn gs).map (·.2.2) = (layout epoch block off' lsn hs).map (·.2.2) →
      gs = hs := by
  induction gs with
  | nil =>
    intro hs cur cur' off off' lsn _ htok
    cases hs with
    | nil => rfl
    | cons g hs => cases htok
  | cons g gs ih =>
    intro hs cur cur' off off' lsn hflat htok
    cases hs with
    | nil => cases htok
    | cons g' hs =>
      rw [layout, layout, List.map_cons, List.map_cons] at htok
      obtain ⟨hlen, hrest⟩ := List.cons.inj htok
      rw [List.flatten_cons, List.flatten_cons, List.append_assoc, List.append_assoc] at hflat
      obtain ⟨rfl, hrec⟩ := List.append_inj hflat (by simpa using hlen)
      rw [ih hrec hrest]

/-- The part of a write request that reaches the disk, and its token. -/
def WriteRequest.placed (r : WriteRequest) : ℕ × Bytes × ℕ := (r.offset, r.bytes, r.token)

/-- The last token of a layout counts its records. -/
theorem lastToken_layout {epoch : UInt32} {block off lsn : ℕ} {gs : List (List LogRecord)}
    {rs : List WriteRequest} (h : rs.map WriteRequest.placed = layout epoch block off lsn gs) :
    lastToken rs lsn = lsn + gs.flatten.length := by
  induction gs generalizing off lsn rs with
  | nil =>
    obtain rfl : rs = [] := by simpa [layout] using h
    simp
  | cons g gs ih =>
    obtain ⟨r, rs, rfl⟩ : ∃ r rs', rs = r :: rs' := by
      cases rs with
      | nil => simp [layout] at h
      | cons r rs => exact ⟨r, rs, rfl⟩
    rw [List.map_cons, layout, List.cons.injEq] at h
    have htok : r.token = lsn + g.length := congrArg (·.2.2) h.1
    rw [lastToken_cons, htok, ih h.2, List.flatten_cons, List.length_append, Nat.add_assoc]

/-- The log is the groups handed over and the current one; the requests are the layout of the
former, the current buffer starts with the bytes of the latter. -/
structure Content (epoch : UInt32) (block base lsn₀ : ℕ) (w : WalT) (log : List LogRecord)
    (groups : List (List LogRecord)) (cur : List LogRecord) : Prop where
  segment : ∀ seg, w.segment = some seg → seg.epoch = epoch
  blockSize : w.group.blockSize = block
  buffers : w.group.buffers.length = kMaxBuffers
  bufLen : ∀ b ∈ w.group.buffers, b.length = kMaxGroupBytes
  requests : w.backend.accepted.map WriteRequest.placed = layout epoch block base lsn₀ groups
  segOffset : w.segOffset = base + (groups.flatMap (groupBytes epoch block)).length
  nonempty : ∀ g ∈ groups, g ≠ []
  small : ∀ g ∈ groups, (groupBytes epoch block g).length ≤ kMaxGroupBytes
  cut : log = groups.flatten ++ cur
  numbered : SegmentReader.Numbered (lsn₀ + 1) log
  lastLsn : w.lastLsn = lsn₀ + log.length
  payload : ∀ r ∈ log, r.payload.length ≤ kMaxPayload
  curLen : w.group.curLen = (encodeRecords epoch cur).length
  room : w.group.curLen ≤ kMaxGroupBytes
  curBuf : cur ≠ [] → w.group.curBufIdx < kMaxBuffers
  curBytes : w.group.curBuffer.take w.group.curLen = encodeRecords epoch cur
  curLast : cur ≠ [] → w.group.curLastLsn = w.lastLsn

/-- A writer that has just been opened has handed over nothing. -/
theorem Content.ready (sc : Script) (opts : WalOptions) (seg : Segment) (segOffset lastLsn : ℕ) :
    Content seg.epoch (effectiveBlock opts.blockSize.toNat) segOffset lastLsn
      ((WalT.fresh sc).ready opts seg segOffset lastLsn) [] [] [] where
  segment seg' h := by rw [← Option.some.inj h]
  blockSize := rfl
  buffers := List.length_replicate
  bufLen b hb := by rw [List.eq_of_mem_replicate hb, List.length_replicate]
  requests := rfl
  segOffset := rfl
  nonempty := by simp
  small := by simp
  cut := rfl
  numbered := trivial
  lastLsn := rfl
  payload := by simp
  curLen := rfl
  room := Nat.zero_le _
  curBuf := by simp
  curBytes := rfl
  curLast := by simp

section Moves

variable {epoch : UInt32} {block base lsn₀ : ℕ} {w : WalT} {log : List LogRecord}
  {groups : List (List LogRecord)} {cur : List LogRecord}

/-- The current buffer is one of the buffers. -/
private theorem Content.curBuffer_mem (h : Content epoch block base lsn₀ w log groups cur)
    (hb : w.group.curBufIdx < kMaxBuffers) : w.group.curBuffer ∈ w.group.buffers := by
  have hlt : w.group.curBufIdx < w.group.buffers.length := h.buffers ▸ hb
  rw [GroupCommit.curBuffer, List.getD_eq_getElem?_getD, List.getElem?_eq_getElem hlt]
  exact List.getElem_mem hlt

theorem Content.length_curBuffer (h : Content epoch block base lsn₀ w log groups cur)
    (hb : w.group.curBufIdx < kMaxBuffers) : w.group.curBuffer.length = kMaxGroupBytes :=
  h.bufLen _ (h.curBuffer_mem hb)

/-- A write inside the current buffer keeps the buffers' lengths. -/
private theorem Content.bufLen_set (h : Content epoch block base lsn₀ w log groups cur)
    (hb : w.group.curBufIdx < kMaxBuffers) {xs : Bytes}
    (hroom : w.group.curLen + xs.length ≤ kMaxGroupBytes) :
    ∀ b ∈ w.group.buffers.set w.group.curBufIdx (writeAt w.group.curBuffer w.group.curLen xs),
      b.length = kMaxGroupBytes := by
  intro b hmem
  obtain hmem | rfl := List.mem_or_eq_of_mem_set hmem
  · exact h.bufLen b hmem
  · rw [length_writeAt, h.length_curBuffer hb]
    omega

/-- What the current buffer holds after a write. -/
theorem Content.curBuffer_set (h : Content epoch block base lsn₀ w log groups cur)
    (hb : w.group.curBufIdx < kMaxBuffers) (b : Bytes) :
    (w.group.buffers.set w.group.curBufIdx b).getD w.group.curBufIdx [] = b := by
  have hlt : w.group.curBufIdx < w.group.buffers.length := h.buffers ▸ hb
  simp [List.getD_eq_getElem?_getD, hlt]

theorem Content.push (h : Content epoch block base lsn₀ w log groups cur) {seg : Segment}
    {r : LogRecord} (hseg : w.segment = some seg) (hlsn : r.lsn = w.lastLsn + 1)
    (htakes : w.group.Takes r.payload.length) :
    Content epoch block base lsn₀
      { w with group := w.group.push seg.epoch r, lastLsn := r.lsn } (log ++ [r]) groups
      (cur ++ [r]) := by
  obtain rfl := h.segment seg hseg
  have hroom := htakes.room
  have hlen := h.length_curBuffer htakes.buffer
  have henc : (encodeRecords seg.epoch (cur ++ [r])).length =
      w.group.curLen + recordBytes r.payload.length := by
    rw [encodeRecords_append, List.length_append, ← h.curLen]
    simp
  refine ⟨h.segment, h.blockSize, ?_, ?_, h.requests, h.segOffset, h.nonempty, h.small, ?_, ?_, ?_,
    ?_, henc.symm, hroom, fun _ => htakes.buffer, ?_, fun _ => rfl⟩
  · simpa [GroupCommit.push] using h.buffers
  · exact h.bufLen_set htakes.buffer (by rwa [length_encodeRecord])
  · rw [h.cut, List.append_assoc]
  · rw [SegmentReader.numbered_append]
    exact ⟨h.numbered, by rw [hlsn, h.lastLsn]; omega, trivial⟩
  · rw [List.length_append, List.length_singleton]
    simp only [hlsn, h.lastLsn]
    omega
  · intro r' hr'
    obtain hr' | hr' := List.mem_append.mp hr'
    · exact h.payload r' hr'
    · rw [List.mem_singleton.mp hr']
      exact htakes.payload
  -- the record is written behind those of the open group
  · have htake := take_writeAt (encodeRecord seg.epoch r)
      (show w.group.curLen ≤ w.group.curBuffer.length by rw [hlen]; omega)
    rw [length_encodeRecord, h.curBytes] at htake
    rw [encodeRecords_append, encodeRecords_cons, encodeRecords_nil, List.append_nil, ← htake]
    simp only [GroupCommit.push, GroupCommit.curBuffer]
    rw [h.curBuffer_set htakes.buffer]

/-- Padding the current buffer keeps what stands in it. -/
theorem Content.padBuffer (h : Content epoch block base lsn₀ w log groups cur)
    (hblock : BlockOk block) (hsub : w.group.Submits) (be : IoBackend)
    (hacc : be.accepted = w.backend.accepted) :
    Content epoch block base lsn₀ { w with group := w.group.padBuffer, backend := be } log groups
      cur := by
  have hcur : cur ≠ [] := by
    rintro rfl
    have := h.curLen
    have := hsub.filled
    simp at *
    omega
  have hb := h.curBuf hcur
  have hpos : 0 < block := hblock.zero_lt
  have hpad := padToBlock_le_of_dvd hpos hblock.dvdGroup h.room
  have hroom := h.room
  refine ⟨h.segment, h.blockSize, ?_, ?_, by rw [← h.requests]; exact congrArg _ hacc,
    h.segOffset, h.nonempty, h.small, h.cut, h.numbered, h.lastLsn, h.payload, h.curLen,
      h.room, h.curBuf,
    ?_, h.curLast⟩
  · simpa [GroupCommit.padBuffer] using h.buffers
  · refine h.bufLen_set hb ?_
    rw [List.length_replicate, h.blockSize]
    omega
  · have htake := congrArg (List.take w.group.curLen) (take_writeAt
      (List.replicate (padToBlock w.group.curLen w.group.blockSize - w.group.curLen) 0)
      (show w.group.curLen ≤ w.group.curBuffer.length by rw [h.length_curBuffer hb]; exact hroom))
    rw [List.take_take, Nat.min_eq_left (Nat.le_add_right _ _), List.take_left' (by
      rw [List.length_take, h.length_curBuffer hb]; omega), h.curBytes] at htake
    rw [← htake]
    simp only [GroupCommit.padBuffer, GroupCommit.curBuffer]
    rw [h.curBuffer_set hb]

/-- The bytes handed over are those of the current group. -/
theorem Content.sealedBytes (h : Content epoch block base lsn₀ w log groups cur) :
    w.group.sealedBytes = groupBytes epoch block cur := by
  rw [GroupCommit.sealedBytes, groupBytes, h.curBytes, h.curLen, h.blockSize]

theorem Content.launch (h : Content epoch block base lsn₀ w log groups cur)
    (hblock : BlockOk block) (hsub : w.group.Submits)
    (hok : (w.backend.submit (w.group.request w.segOffset 0)).1.isOk = true) :
    Content epoch block base lsn₀ (w.afterSubmit w.group.padBuffer.launch
      (w.backend.submit (w.group.request w.segOffset 0)).2
      (padToBlock w.group.curLen w.group.blockSize)) log (groups ++ [cur]) [] := by
  -- a group is submitted only with records in it
  have hcur : cur ≠ [] := by
    rintro rfl
    have := h.curLen
    have := hsub.filled
    simp at *
    omega
  have hpos : 0 < block := hblock.zero_lt
  have hpad := h.padBuffer hblock hsub w.backend rfl
  have hacc : (w.backend.submit (w.group.request w.segOffset 0)).2.accepted =
      w.backend.accepted ++ [w.group.request w.segOffset 0] := by
    rw [IoBackend.submit_of_isOk hok]
  have hlog := h.cut
  refine ⟨h.segment, h.blockSize, hpad.buffers, hpad.bufLen, ?_, ?_, ?_, ?_, ?_, h.numbered,
    h.lastLsn, h.payload, rfl, Nat.zero_le _, fun hne => absurd rfl hne, rfl,
    fun hne => absurd rfl hne⟩
  · show (w.backend.submit (w.group.request w.segOffset 0)).2.accepted.map _ = _
    rw [hacc, List.map_append, h.requests, layout_append, List.map_singleton]
    simp only [layout, WriteRequest.placed, GroupCommit.request, h.sealedBytes, h.segOffset]
    rw [h.curLast hcur, h.lastLsn, hlog, List.length_append, Nat.add_assoc]
  · show w.segOffset + padToBlock w.group.curLen w.group.blockSize = _
    rw [h.segOffset, List.flatMap_append, List.length_append, h.blockSize, h.curLen]
    simp [length_groupBytes hpos, Nat.add_assoc]
  · intro g hg
    obtain hg | hg := List.mem_append.mp hg
    · exact h.nonempty g hg
    · rw [List.mem_singleton.mp hg]
      exact hcur
  · intro g hg
    obtain hg | hg := List.mem_append.mp hg
    · exact h.small g hg
    · rw [List.mem_singleton.mp hg, length_groupBytes hpos, ← h.curLen]
      exact padToBlock_le_of_dvd hpos hblock.dvdGroup h.room
  · simp [hlog]

/-- Every elementary change keeps the invariant. -/
theorem Content.move (h : Content epoch block base lsn₀ w log groups cur) (hblock : BlockOk block)
    {rs : List LogRecord} {w' : WalT} (hm : WalT.Move w rs w') :
    ∃ fin cur', Content epoch block base lsn₀ w' (log ++ rs) (groups ++ fin) cur' := by
  cases hm with
  | push seg r hseg hlsn htakes =>
    exact ⟨[], _, by simpa using h.push hseg hlsn htakes⟩
  | launch hsub hok => exact ⟨[cur], [], by simpa using h.launch hblock hsub hok⟩
  | refuse hsub hok =>
    have hacc : (w.backend.submit (w.group.request w.segOffset 0)).2.accepted =
        w.backend.accepted := by
      rw [IoBackend.submit_of_not_isOk hok]
    exact ⟨[], cur, by simpa using h.padBuffer hblock hsub _ hacc⟩
  | collect =>
    have hs := SameGroup.reap w.group w.backend
    have hacc : (w.group.reap w.backend).2.2.accepted = w.backend.accepted := by
      cases hinit : w.group.initialized with
      | false => simp [GroupCommit.reap, hinit]
      | true => rw [GroupCommit.reap_state hinit]; rfl
    refine ⟨[], cur, ?_⟩
    rw [List.append_nil, List.append_nil]
    refine ⟨h.segment, hs.blockSize.trans h.blockSize, ?_, ?_, by rw [← h.requests, ← hacc],
      h.segOffset, h.nonempty, h.small, h.cut, h.numbered, h.lastLsn, h.payload,
        hs.curLen.trans h.curLen,
      hs.curLen.le.trans h.room, fun hne => ?_, ?_,
      fun hne => hs.curLastLsn.trans (h.curLast hne)⟩
    · rw [hs.buffers]
      exact h.buffers
    · rw [hs.buffers]
      exact h.bufLen
    · rw [hs.curBufIdx (h.curBuf hne)]
      exact h.curBuf hne
    · -- without a current record there is nothing to compare, and the buffer may be another
      rcases eq_or_ne cur [] with rfl | hne
      · rw [hs.curLen, h.curLen]
        rfl
      · rw [hs.curLen, GroupCommit.curBuffer, hs.buffers, hs.curBufIdx (h.curBuf hne)]
        exact h.curBytes
  | stop => exact ⟨[], cur, by simpa using ⟨h.segment, h.blockSize, h.buffers, h.bufLen,
      h.requests, h.segOffset, h.nonempty, h.small, h.cut, h.numbered, h.lastLsn,
        h.payload, h.curLen,
      h.room, h.curBuf, h.curBytes, h.curLast⟩⟩

theorem Content.moves (h : Content epoch block base lsn₀ w log groups cur)
    (hblock : BlockOk block) {rs : List LogRecord} {w' : WalT} (hm : WalT.Moves w rs w') :
    ∃ fin cur', Content epoch block base lsn₀ w' (log ++ rs) (groups ++ fin) cur' := by
  induction hm generalizing log groups cur with
  | refl w => exact ⟨[], cur, by simpa using h⟩
  | head hm _ ih =>
    obtain ⟨fin, cur', h'⟩ := h.move hblock hm
    obtain ⟨fin', cur'', h''⟩ := ih h'
    exact ⟨fin ++ fin', cur'', by simpa using h''⟩

end Moves

/-- The log of any run of an open writer. -/
theorem Content.exec (sc : Script) (opts : WalOptions) (seg : Segment) (segOffset lastLsn : ℕ)
    (ops : List WalOp) :
    ∃ groups cur, Content seg.epoch (effectiveBlock opts.blockSize.toNat) segOffset lastLsn
      (((WalT.fresh sc).ready opts seg segOffset lastLsn).exec ops).1
      (((WalT.fresh sc).ready opts seg segOffset lastLsn).exec ops).2 groups cur := by
  obtain ⟨fin, cur, h⟩ := (Content.ready sc opts seg segOffset lastLsn).moves
    (.effectiveBlock _) (WalT.exec_moves _ ops)
  exact ⟨fin, cur, by simpa using h⟩

/-- The tokens of the requests tell where the log was cut. -/
theorem Content.groups_eq (h : Content epoch block base lsn₀ w log groups cur)
    (gs : List (List LogRecord)) (rest : List LogRecord) (hlog : log = gs.flatten ++ rest)
    (htokens : w.backend.accepted.map WriteRequest.token =
      (layout epoch block base lsn₀ gs).map (·.2.2)) : groups = gs := by
  have hown : (layout epoch block base lsn₀ groups).map (·.2.2) =
      w.backend.accepted.map WriteRequest.token := by
    rw [← h.requests, List.map_map]
    rfl
  exact groups_of_tokens (h.cut.symm.trans hlog) (hown.trans htokens)

end MotorRv
