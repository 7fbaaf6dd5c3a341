import MotorRv.Wal.Wal

/-!
# The durable LSN is the completed prefix

The circular table of groups in flight, read from its head on, is the queue of accepted requests
that have not been retired, each with what has been delivered for it (`Table`). Completions may
arrive in any order; `noteCompletion` moves the table from what was delivered before to what has
been delivered now, and `advance` retires the longest landed prefix of the queue. Hence after
every `reap` the durable LSN is the last token of the longest landed prefix of the accepted
requests (`okPrefix`), and before the next one it is at most that.

`Fifo` joins the queue, what was delivered, and what the backend still holds, in such a way that
each accepted token is in exactly one place. Its step lemma takes one harvest in two halves,
recording (`Fifo.noted`) and retiring (`Fifo.collect`), since between the two the durable LSN lags
behind; after the second half it is the last token of the landed prefix, which is the equation of
the main theorem. At other moments only the inequality holds.

The backend is scripted: which completions are given at which harvest, in which order and with which
results, is arbitrary. A failed or short write is never part of the prefix, and once it is met the
log halts and every later call fails (`exec_of_halted`).
-/

namespace MotorRv

open Lib

/-! ### What has been delivered -/

/-- The completion delivered for a request, if any. -/
def completionOf (delivered : List Completion) (r : WriteRequest) : Option Completion :=
  delivered.find? fun c => decide (c.token = r.token)

/-- The request was reported to have ended well. -/
def landed (delivered : List Completion) (r : WriteRequest) : Bool :=
  (completionOf delivered r).any Completion.ok

/-- The longest prefix of the accepted requests, in submission order, that landed. -/
def okPrefix (accepted : List WriteRequest) (delivered : List Completion) : List WriteRequest :=
  accepted.takeWhile (landed delivered)

/-- The token of the last request: the last LSN of its group; `d` when there is none. -/
def lastToken (rs : List WriteRequest) (d : ℕ) : ℕ := (rs.map (·.token)).getLastD d

@[simp] theorem lastToken_nil (d : ℕ) : lastToken [] d = d := rfl

@[simp]
theorem lastToken_cons (r : WriteRequest) (rs : List WriteRequest) (d : ℕ) :
    lastToken (r :: rs) d = lastToken rs r.token := by
  rw [lastToken, List.map_cons, List.getLastD_cons]
  rfl

/-- The last token of writes one after the other. -/
theorem lastToken_append (rs ss : List WriteRequest) (d : ℕ) :
    lastToken (rs ++ ss) d = lastToken ss (lastToken rs d) := by
  induction rs generalizing d with
  | nil => rfl
  | cons r rs ih => simp [ih]

/-- The last token is that of a write, if there is one. -/
theorem lastToken_mem (rs : List WriteRequest) (d : ℕ) :
    lastToken rs d = d ∨ ∃ r ∈ rs, lastToken rs d = r.token := by
  induction rs generalizing d with
  | nil => exact .inl rfl
  | cons r rs ih =>
    right
    rw [lastToken_cons]
    obtain h | ⟨r', hr', h⟩ := ih r.token
    · exact ⟨r, List.mem_cons_self, h⟩
    · exact ⟨r', List.mem_cons_of_mem r hr', h⟩

/-- Tokens grow, so a longer run of requests ends at a larger token. -/
theorem le_lastToken {rs : List WriteRequest} {d : ℕ} (hd : ∀ r ∈ rs, d ≤ r.token) :
    d ≤ lastToken rs d := by
  obtain h | ⟨r, hr, h⟩ := lastToken_mem rs d
  · exact h.ge
  · exact h ▸ hd r hr

/-- A completion for a token that was never reported completes its request and no other. -/
theorem completionOf_append {D : List Completion} {c : Completion} {r : WriteRequest}
    (hc : c.token ∉ D.map (·.token)) :
    completionOf (D ++ [c]) r = if r.token = c.token then some c else completionOf D r := by
  rw [completionOf, List.find?_append]
  by_cases h : r.token = c.token
  · have hnone : D.find? (fun c => decide (c.token = r.token)) = none := by
      refine List.find?_eq_none.mpr fun c' hc' => ?_
      simp only [decide_eq_true_eq]
      exact fun he => hc (List.mem_map.mpr ⟨c', hc', he.trans h⟩)
    rw [hnone, if_pos h]
    simp [h]
  · have hne : ¬ c.token = r.token := fun he => h he.symm
    simp [h, hne, completionOf]

/-! ### The table of groups in flight -/

/-- The slot of a request, given what has been delivered. -/
def slotOf (D : List Completion) (r : WriteRequest) : InflightGroup where
  token := r.token
  bufIdx := r.bufIdx
  len := r.len
  inUse := true
  completed := (completionOf D r).isSome
  ok := landed D r

/-- A request that landed is completed. -/
theorem completed_of_landed {D : List Completion} {r : WriteRequest} (h : landed D r = true) :
    (slotOf D r).completed = true := by
  rw [landed] at h
  rw [slotOf]
  cases hc : completionOf D r with
  | none => simp [hc] at h
  | some c => rfl

/-- Read from the head, the table is the queue of requests not yet retired. -/
structure Table (g : GroupCommit) (D : List Completion) (queue : List WriteRequest) : Prop where
  view : ∃ idle, g.inflight.rotate g.head = queue.map (slotOf D) ++ idle ∧
    ∀ f ∈ idle, f.inUse = false
  cells : g.inflight.length = kMaxInflight
  head : g.head < kMaxInflight
  tail : g.tail = (g.head + queue.length) % kMaxInflight
  count : g.inflightCount = queue.length

/-- Handing over a group appends its request to the queue. -/
theorem Table.launch {g : GroupCommit} {D : List Completion} {queue : List WriteRequest}
    (h : Table g D queue) (hslot : g.inflightCount < kMaxInflight) {r : WriteRequest}
    (hr : r.token = g.curLastLsn ∧ r.bufIdx = g.curBufIdx ∧
      r.len = padToBlock g.curLen g.blockSize)
    (hfresh : r.token ∉ D.map (·.token)) : Table g.padBuffer.launch D (queue ++ [r]) := by
  obtain ⟨idle, hview, hidle⟩ := h.view
  have hlen : queue.length < kMaxInflight := h.count ▸ hslot
  have hsplit : queue.length + idle.length = kMaxInflight := by
    have := congrArg List.length hview
    simpa [h.cells] using this.symm
  obtain ⟨f, idle, rfl⟩ : ∃ f rest, idle = f :: rest :=
    List.exists_cons_of_length_pos (by omega)
  have hnew : slotOf D r =
      ⟨g.curLastLsn, g.curBufIdx, padToBlock g.curLen g.blockSize, true, false, false⟩ := by
    have hnone : completionOf D r = none :=
      List.find?_eq_none.mpr fun c hc he =>
        hfresh (List.mem_map.mpr ⟨c, hc, of_decide_eq_true he⟩)
    simp [slotOf, landed, hnone, hr]
  refine ⟨⟨idle, ?_, fun f' hf' => hidle f' (List.mem_cons_of_mem f hf')⟩, ?_, h.head, ?_, ?_⟩
  · have hset := set_rotate g.head (show queue.length < g.inflight.length by
      rw [h.cells]; exact hlen) (slotOf D r)
    rw [h.cells, ← h.tail, hview, List.set_append_right _ _ (by simp)] at hset
    simp only [List.length_map, Nat.sub_self, List.set_cons_zero] at hset
    rw [List.map_append, List.append_assoc, List.map_singleton, List.singleton_append, ← hset, hnew]
    rfl
  · simpa [GroupCommit.launch, GroupCommit.padBuffer] using h.cells
  · simp [GroupCommit.launch, GroupCommit.padBuffer, h.tail, Nat.add_assoc]
  · simp [GroupCommit.launch, GroupCommit.padBuffer, h.count]

/-- The rewriting of a slot by a completion of its token. -/
private def complete (c : Completion) (f : InflightGroup) : InflightGroup :=
  if f.inUse && decide (f.token = c.token) then { f with completed := true, ok := c.ok } else f

/-- What `noteCompletion` does to the table and to the halting flag. -/
private theorem noteCompletion_eq {g : GroupCommit} {c : Completion}
    (huniq : (g.inflight.filter fun f => f.inUse && decide (f.token = c.token)).length ≤ 1)
    (hmem : ∃ f ∈ g.inflight, f.inUse = true ∧ f.token = c.token) :
    g.noteCompletion c =
      { g with inflight := g.inflight.map (complete c), halted := g.halted || !c.ok } := by
  have hmap := set_findIdx?_eq_map (f := fun f => { f with completed := true, ok := c.ok })
    huniq (d := InflightGroup.blank)
  obtain ⟨f, hf, hin, htok⟩ := hmem
  cases hidx : g.inflight.findIdx? fun f => f.inUse && decide (f.token = c.token) with
  | none =>
    have := List.findIdx?_eq_none_iff.mp hidx f hf
    simp [hin, htok] at this
  | some j =>
    rw [hidx] at hmap
    have hmap' : g.inflight.set j
        { g.inflight.getD j .blank with completed := true, ok := c.ok } =
        g.inflight.map (complete c) := hmap
    rw [GroupCommit.noteCompletion, hidx]
    dsimp only
    rw [hmap']
    cases c.ok <;> simp

/-- Recording one completion of a queued request. -/
private theorem Table.note {g : GroupCommit} {D : List Completion} {queue : List WriteRequest}
    {c : Completion} (h : Table g D queue) (hq : (queue.map (·.token)).Nodup)
    (hfresh : c.token ∉ D.map (·.token)) (hmem : c.token ∈ queue.map (·.token)) :
    Table (g.noteCompletion c) (D ++ [c]) queue ∧
      g.noteCompletion c = { g with inflight := g.inflight.map (complete c),
                                    halted := g.halted || !c.ok } := by
  obtain ⟨idle, hview, hidle⟩ := h.view
  have hperm := (List.rotate_perm g.inflight g.head).symm
  -- the completion belongs to one group in flight, and marks its slot
  have hslots : ∀ r ∈ queue, complete c (slotOf D r) = slotOf (D ++ [c]) r := by
    intro r _
    by_cases he : r.token = c.token <;>
      simp [complete, slotOf, landed, completionOf_append hfresh, he]
  -- slots that are not in use stay as they are
  have hrest : ∀ f ∈ idle, complete c f = f := fun f hf => by simp [complete, hidle f hf]
  have heq : g.noteCompletion c =
      { g with inflight := g.inflight.map (complete c), halted := g.halted || !c.ok } := by
    refine noteCompletion_eq ?_ ?_
    · rw [(hperm.filter _).length_eq, hview, List.filter_append, List.length_append]
      have h0 : idle.filter (fun f => f.inUse && decide (f.token = c.token)) = [] :=
        List.filter_eq_nil_iff.mpr fun f hf => by simp [hidle f hf]
      have h1 : ((queue.map (slotOf D)).filter
          fun f => f.inUse && decide (f.token = c.token)).length =
          (queue.map (·.token)).count c.token := by
        rw [List.count, List.countP_map, List.filter_map, List.length_map,
          List.countP_eq_length_filter]
        simp only [slotOf, Function.comp_def, Bool.true_and]
        rfl
      rw [h0, h1]
      exact List.nodup_iff_count_le_one.mp hq c.token
    · obtain ⟨r, hr, htok⟩ := List.mem_map.mp hmem
      refine ⟨slotOf D r, ?_, rfl, htok⟩
      rw [hperm.mem_iff, hview]
      exact List.mem_append_left _ (List.mem_map_of_mem hr)
  refine ⟨?_, heq⟩
  rw [heq]
  refine ⟨⟨idle, ?_, hidle⟩, by simpa using h.cells, h.head, h.tail, h.count⟩
  dsimp only
  rw [← List.map_rotate, hview, List.map_append, List.map_map, List.map_congr_left hrest,
    List.map_id']
  congr 1
  exact List.map_congr_left hslots

/-- Recording a harvest: the table is then that of everything delivered so far, and a failure in
the harvest halts. -/
theorem Table.note_all {queue : List WriteRequest} (hq : (queue.map (·.token)).Nodup) :
    ∀ (cs : List Completion) {g : GroupCommit} {D : List Completion}, Table g D queue →
      ((D ++ cs).map (·.token)).Nodup → (∀ c ∈ cs, c.token ∈ queue.map (·.token)) →
      Table (cs.foldl GroupCommit.noteCompletion g) (D ++ cs) queue ∧
        (cs.foldl GroupCommit.noteCompletion g).durableLsn = g.durableLsn ∧
        ((∃ c ∈ cs, c.ok = false) → (cs.foldl GroupCommit.noteCompletion g).halted = true)
  | [], g, D, h, _, _ => by simpa using h
  | c :: cs, g, D, h, hD, hcs => by
    have hfresh : c.token ∉ D.map (·.token) := by
      rw [List.map_append, List.nodup_append] at hD
      exact fun hc => hD.2.2 _ hc _ (List.mem_map_of_mem List.mem_cons_self) rfl
    obtain ⟨ht, heq⟩ := h.note hq hfresh (hcs c List.mem_cons_self)
    have hD' : ((D ++ [c] ++ cs).map (·.token)).Nodup := by simpa using hD
    obtain ⟨htab, hdur, hhalt⟩ := Table.note_all hq cs ht hD'
      fun c' hc' => hcs c' (List.mem_cons_of_mem c hc')
    rw [List.foldl_cons]
    refine ⟨by simpa using htab, by rw [hdur, heq], ?_⟩
    rintro ⟨c', hc', hbad⟩
    obtain rfl | hc' := List.mem_cons.mp hc'
    · exact (SameGroup.foldl_note cs _).halted (by rw [heq]; simp [hbad])
    · exact hhalt ⟨c', hc', hbad⟩

/-- Retiring the oldest group. -/
theorem Table.retire {g : GroupCommit} {D : List Completion} {r : WriteRequest}
    {queue : List WriteRequest} (h : Table g D (r :: queue)) :
    Table (g.retire (slotOf D r)) D queue := by
  obtain ⟨idle, hview, hidle⟩ := h.view
  rw [List.map_cons, List.cons_append] at hview
  have hset := set_rotate g.head (show 0 < g.inflight.length by rw [h.cells]; decide)
    { slotOf D r with inUse := false }
  rw [Nat.add_zero, Nat.mod_eq_of_lt (h.cells ▸ h.head), hview, List.set_cons_zero] at hset
  have hrot := rotate_succ hset
  rw [List.length_set, h.cells] at hrot
  refine ⟨⟨idle ++ [{ slotOf D r with inUse := false }], ?_, ?_⟩, ?_, ?_, ?_, ?_⟩
  · rw [← List.append_assoc]
    exact hrot
  · intro f hf
    obtain hf | hf := List.mem_append.mp hf
    · exact hidle f hf
    · rw [List.mem_singleton.mp hf]
  · simpa [GroupCommit.retire] using h.cells
  · exact Nat.mod_lt _ (by decide)
  · simp only [GroupCommit.retire, h.tail, List.length_cons, kMaxInflight]
    omega
  · simp [GroupCommit.retire, h.count]

/-- The oldest slot is that of the oldest request. -/
theorem Table.getD_head {g : GroupCommit} {D : List Completion} {r : WriteRequest}
    {queue : List WriteRequest} (h : Table g D (r :: queue)) :
    g.inflight.getD g.head .blank = slotOf D r := by
  obtain ⟨idle, hview, -⟩ := h.view
  rw [List.getD_eq_getElem?_getD, getElem?_head (h.cells ▸ h.head) hview]
  rfl

/-- `advance` retires exactly the landed prefix of the queue. -/
theorem Table.advance {D : List Completion} :
    ∀ (queue : List WriteRequest) {g : GroupCommit}, Table g D queue →
      Table (GroupCommit.advance queue.length g).2 D (queue.dropWhile (landed D)) ∧
        (GroupCommit.advance queue.length g).2.durableLsn =
          lastToken (queue.takeWhile (landed D)) g.durableLsn
  | [], g, h => by simpa [GroupCommit.advance] using h
  | r :: queue, g, h => by
    have hcount : 0 < g.inflightCount := by rw [h.count]; simp
    rw [List.length_cons, GroupCommit.advance, h.getD_head]
    by_cases hland : landed D r = true
    · -- the oldest group landed: it is retired and the scan goes on
      rw [if_pos ⟨hcount, completed_of_landed hland⟩, if_pos (show (slotOf D r).ok = true from hland)]
      rw [List.dropWhile_cons_of_pos hland, List.takeWhile_cons_of_pos hland, lastToken_cons]
      exact Table.advance queue h.retire
    · rw [List.dropWhile_cons_of_neg hland, List.takeWhile_cons_of_neg hland, lastToken_nil,
        if_neg (show ¬ (slotOf D r).ok = true from hland)]
      split_ifs with hcomp
      · exact ⟨⟨h.view, h.cells, h.head, h.tail, h.count⟩, rfl⟩
      · exact ⟨h, rfl⟩

/-! ### Harvests -/

/-- A harvest splits the pending requests into completed ones and the rest. -/
theorem IoBackend.harvest_perm (picks : List (ℕ × ℤ)) (pending : List WriteRequest) :
    ((harvest picks pending).1.map (·.token) ++ (harvest picks pending).2.map (·.token)).Perm
      (pending.map (·.token)) := by
  induction picks generalizing pending with
  | nil => rfl
  | cons pick picks ih =>
    obtain ⟨i, res⟩ := pick
    rw [harvest]
    cases hi : pending[i]? with
    | none => exact ih pending
    | some req =>
      obtain ⟨hlt, hget⟩ := List.getElem?_eq_some_iff.mp hi
      refine ((ih (pending.eraseIdx i)).cons req.token).trans ?_
      have := (List.getElem_cons_eraseIdx_perm hlt).map (·.token)
      rwa [hget] at this

/-- A landed request has a good completion. -/
theorem exists_of_landed {D : List Completion} {r : WriteRequest} (h : landed D r = true) :
    ∃ c ∈ D, c.token = r.token ∧ c.ok = true := by
  rw [landed, completionOf] at h
  cases hf : D.find? fun c => decide (c.token = r.token) with
  | none => simp [hf] at h
  | some c =>
    have htok := List.find?_some hf
    exact ⟨c, List.mem_of_find?_eq_some hf, by simpa using htok, by simpa [hf] using h⟩

/-- What was reported stays reported. -/
theorem landed_append {D cs : List Completion} {r : WriteRequest} (h : landed D r = true) :
    landed (D ++ cs) r = true := by
  rw [landed, completionOf] at h ⊢
  rw [List.find?_append]
  cases hf : D.find? fun c => decide (c.token = r.token) with
  | none => simp [hf] at h
  | some c => simpa [hf] using h

/-! ### The invariant -/

/-- The accepted requests are those retired, which landed, and those in the table; each token
was delivered or is pending, once; the durable LSN is the last retired token; tokens grow and
stay below the records that have not been handed over. -/
structure Fifo (w : WalT) (done queue : List WriteRequest) : Prop where
  segment : w.segment ≠ none
  initialized : w.group.initialized = true
  accepted : w.backend.accepted = done ++ queue
  table : Table w.group w.backend.delivered queue
  retired : ∀ r ∈ done, landed w.backend.delivered r = true
  durable : w.group.durableLsn = lastToken done 0
  sorted : (w.backend.accepted.map (·.token)).Pairwise (· < ·)
  tokens : (w.backend.delivered.map (·.token) ++ w.backend.pending.map (·.token)).Perm
    (w.backend.accepted.map (·.token))
  failed : ∀ c ∈ w.backend.delivered, c.ok = false → w.group.halted = true
  bound : ∀ r ∈ w.backend.accepted, 0 < r.token ∧ r.token ≤ w.lastLsn
  current : 0 < w.group.curLen → 0 < w.lastLsn ∧ w.group.curLastLsn = w.lastLsn ∧
    ∀ r ∈ w.backend.accepted, r.token < w.lastLsn

/-- A writer that has just been opened. -/
theorem Fifo.ready (sc : Script) (opts : WalOptions) (seg : Segment) (segOffset lastLsn : ℕ) :
    Fifo ((WalT.fresh sc).ready opts seg segOffset lastLsn) [] [] where
  segment := by simp [WalT.ready]
  initialized := rfl
  accepted := rfl
  table := by
    refine ⟨⟨List.replicate kMaxInflight .blank, ?_, fun f hf => ?_⟩, List.length_replicate,
      Nat.zero_lt_succ _, rfl, rfl⟩
    · simp [WalT.ready, WalT.fresh, GroupCommit.init, GroupCommit.fresh]
    · rw [List.eq_of_mem_replicate hf]
      rfl
  retired := by simp
  durable := rfl
  sorted := List.Pairwise.nil
  tokens := List.Perm.nil
  failed := by simp [WalT.ready, WalT.fresh, IoBackend.start]
  bound := by simp [WalT.ready, WalT.fresh, IoBackend.start]
  current := by simp [WalT.ready, GroupCommit.init]

/-- Opening a log, by creating or by resuming, leaves a writer with nothing in flight. -/
theorem open_eq_ready {sc : Script} {opts : WalOptions} {drawn : UInt32} {tail : Option WalTail}
    {file : Option Bytes} {w : WalT} {b : Bytes}
    (h : (WalT.fresh sc).open opts drawn tail file = .ok (w, b)) :
    ∃ seg segOffset lastLsn, w = (WalT.fresh sc).ready opts seg segOffset lastLsn := by
  have hcreate : ∀ {w b}, (WalT.fresh sc).openCreate opts drawn = (w, b) →
      ∃ seg segOffset lastLsn, w = (WalT.fresh sc).ready opts seg segOffset lastLsn := by
    intro w b h
    exact ⟨_, _, _, (congrArg Prod.fst h).symm⟩
  unfold WalT.open at h
  split at h
  · split_ifs at h
    · split at h
      · cases h
      · unfold WalT.openResume at h
        split at h
        · cases h
        · exact ⟨_, _, _, (congrArg Prod.fst (Except.ok.inj h)).symm⟩
    · exact hcreate (Except.ok.inj h)
  · exact hcreate (Except.ok.inj h)

section Moves

variable {w : WalT} {done queue : List WriteRequest}

/-- A record that is appended goes into the group, and concerns no write. -/
theorem Fifo.push (h : Fifo w done queue) {seg : Segment} {r : LogRecord}
    (hlsn : r.lsn = w.lastLsn + 1) :
    Fifo { w with group := w.group.push seg.epoch r, lastLsn := r.lsn } done queue where
  segment := h.segment
  initialized := h.initialized
  accepted := h.accepted
  table := ⟨h.table.view, h.table.cells, h.table.head, h.table.tail, h.table.count⟩
  retired := h.retired
  durable := h.durable
  sorted := h.sorted
  tokens := h.tokens
  failed := h.failed
  bound r' hr' := by
    have := h.bound r' hr'
    exact ⟨this.1, by dsimp only; omega⟩
  current _ := by
    refine ⟨by dsimp only; omega, rfl, fun r' hr' => ?_⟩
    have := h.bound r' hr'
    dsimp only
    omega

/-- A token that was never accepted was never delivered. -/
private theorem Fifo.fresh (h : Fifo w done queue) {t : ℕ}
    (ht : ∀ r ∈ w.backend.accepted, r.token < t) : t ∉ w.backend.delivered.map (·.token) := by
  intro hmem
  obtain ⟨r, hr, rfl⟩ := List.mem_map.mp (h.tokens.mem_iff.mp (List.mem_append_left _ hmem))
  exact absurd (ht r hr) (lt_irrefl _)

/-- A group that is submitted goes behind the writes in flight. -/
theorem Fifo.launch (h : Fifo w done queue) (hsub : w.group.Submits)
    (hok : (w.backend.submit (w.group.request w.segOffset 0)).1.isOk = true) :
    Fifo (w.afterSubmit w.group.padBuffer.launch
      (w.backend.submit (w.group.request w.segOffset 0)).2
      (padToBlock w.group.curLen w.group.blockSize)) done
      (queue ++ [w.group.request w.segOffset 0]) := by
  obtain ⟨hpos, hcur, hlt⟩ := h.current hsub.filled
  have htok : (w.group.request w.segOffset 0).token = w.lastLsn := hcur
  have hnew : (w.group.request w.segOffset 0).token ∉ w.backend.delivered.map (·.token) :=
    h.fresh fun r hr => htok ▸ hlt r hr
  rw [IoBackend.submit_of_isOk hok]
  refine ⟨h.segment, h.initialized, ?_, h.table.launch hsub.slot ⟨rfl, rfl, rfl⟩ hnew, h.retired,
    h.durable, ?_, ?_, h.failed, ?_, ?_⟩
  · simp [WalT.afterSubmit, h.accepted]
  · simp only [WalT.afterSubmit, List.map_append, List.map_singleton, List.pairwise_append,
      List.pairwise_singleton, List.mem_singleton, List.mem_map, true_and]
    refine ⟨h.sorted, ?_⟩
    rintro _ ⟨r, hr, rfl⟩ _ rfl
    exact htok ▸ hlt r hr
  · simp only [WalT.afterSubmit, List.map_append, ← List.append_assoc]
    exact h.tokens.append_right _
  · intro r hr
    obtain hr | hr := List.mem_append.mp hr
    · exact h.bound r hr
    · rw [List.mem_singleton.mp hr, htok]
      exact ⟨hpos, le_rfl⟩
  · intro hcl
    exact absurd hcl (by simp [WalT.afterSubmit, GroupCommit.launch])

/-- A group that is refused leaves the writes in flight as they are. -/
theorem Fifo.refuse (h : Fifo w done queue)
    (hok : (w.backend.submit (w.group.request w.segOffset 0)).1.isOk = false) :
    Fifo { w with
      group := w.group.padBuffer
      backend := (w.backend.submit (w.group.request w.segOffset 0)).2 } done queue := by
  rw [IoBackend.submit_of_not_isOk hok]
  exact ⟨h.segment, h.initialized, h.accepted,
    ⟨h.table.view, h.table.cells, h.table.head, h.table.tail, h.table.count⟩, h.retired, h.durable,
    h.sorted, h.tokens, h.failed, h.bound, h.current⟩

/-- A harvest moves tokens from the pending to the delivered ones. -/
private theorem Fifo.tokens_reap (h : Fifo w done queue) :
    ((w.backend.delivered ++ (w.backend.reap kMaxInflight).1).map (·.token) ++
      (w.backend.reap kMaxInflight).2.pending.map (·.token)).Perm
        (w.backend.accepted.map (·.token)) := by
  rw [List.map_append, List.append_assoc]
  exact ((IoBackend.harvest_perm _ _).append_left _).trans h.tokens

/-- Once a harvest is recorded, the table is that of everything delivered so far. -/
theorem Fifo.noted (h : Fifo w done queue) :
    Table ((w.backend.reap kMaxInflight).1.foldl GroupCommit.noteCompletion w.group)
        (w.backend.delivered ++ (w.backend.reap kMaxInflight).1) queue ∧
      ((w.backend.reap kMaxInflight).1.foldl GroupCommit.noteCompletion w.group).durableLsn =
        w.group.durableLsn ∧
      ((∃ c ∈ (w.backend.reap kMaxInflight).1, c.ok = false) →
        ((w.backend.reap kMaxInflight).1.foldl GroupCommit.noteCompletion w.group).halted =
          true) := by
  have htokens := h.tokens_reap
  set cs := (w.backend.reap kMaxInflight).1
  have hnodup : (w.backend.accepted.map (·.token)).Nodup := h.sorted.imp fun hlt => hlt.ne
  have hDnodup := ((htokens.nodup_iff).mpr hnodup).of_append_left
  have hqnodup : (queue.map (·.token)).Nodup := by
    rw [h.accepted, List.map_append] at hnodup
    exact hnodup.of_append_right
  -- a request that was retired is not pending, so every completion is for a queued one
  have hqueued : ∀ c ∈ cs, c.token ∈ queue.map (·.token) := by
    intro c hc
    have hmem : c.token ∈ w.backend.accepted.map (·.token) :=
      htokens.mem_iff.mp (List.mem_append_left _ (List.mem_map_of_mem
        (List.mem_append_right _ hc)))
    rw [h.accepted, List.map_append] at hmem
    refine (List.mem_append.mp hmem).resolve_left fun hdone => ?_
    obtain ⟨r, hr, hrt⟩ := List.mem_map.mp hdone
    obtain ⟨c', hc', hct, -⟩ := exists_of_landed (h.retired r hr)
    rw [List.map_append, List.nodup_append] at hDnodup
    exact hDnodup.2.2 _ (List.mem_map_of_mem hc') _ (List.mem_map_of_mem hc) (hct.trans hrt)
  exact Table.note_all hqnodup cs h.table hDnodup hqueued

/-- A harvest retires the landed part of the queue, and the retired requests are then exactly the
landed prefix of the accepted ones. -/
theorem Fifo.collect (h : Fifo w done queue) {D : List Completion}
    (hD : D = w.backend.delivered ++ (w.backend.reap kMaxInflight).1) :
    Fifo { w with
        group := (w.group.reap w.backend).2.1
        backend := (w.group.reap w.backend).2.2 } (done ++ queue.takeWhile (landed D))
        (queue.dropWhile (landed D)) ∧
      okPrefix w.backend.accepted (w.group.reap w.backend).2.2.delivered =
        done ++ queue.takeWhile (landed D) := by
  have htokens := h.tokens_reap
  obtain ⟨htab, hdur₁, hhalt₁⟩ := h.noted
  rw [← hD] at htokens htab
  set cs := (w.backend.reap kMaxInflight).1 with hcs
  set g₁ := cs.foldl GroupCommit.noteCompletion w.group with hg₁
  have hstate := GroupCommit.reap_state h.initialized w.backend
  dsimp only at hstate
  rw [← hcs, ← hg₁] at hstate
  have hdel : (w.backend.reap kMaxInflight).2.delivered = D := hD.symm
  obtain ⟨htab', hdur₂⟩ := Table.advance queue htab
  rw [← htab.count] at htab' hdur₂
  have hsame₂ := SameGroup.advance g₁.inflightCount g₁
  have hsame := (SameGroup.foldl_note cs w.group).trans hsame₂
  -- the oldest groups leave the queue while their completions are there
  have hretired : ∀ r ∈ done ++ queue.takeWhile (landed D), landed D r = true := by
    intro r hr
    obtain hr | hr := List.mem_append.mp hr
    · rw [hD]
      exact landed_append (h.retired r hr)
    · exact List.mem_takeWhile_imp hr
  rw [hstate]
  refine ⟨⟨h.segment, ?_, ?_, hdel ▸ htab', ?_, ?_, h.sorted, hdel ▸ htokens, ?_, h.bound, ?_⟩, ?_⟩
  · exact hsame.initialized.trans h.initialized
  · rw [List.append_assoc, List.takeWhile_append_dropWhile]
    exact h.accepted
  · exact fun r hr => hdel ▸ hretired r hr
  · rw [lastToken_append, ← h.durable, ← hdur₁]
    exact hdur₂
  -- a failed completion halts the group, whether it came now or before
  · intro c hc hbad
    rw [hdel, hD] at hc
    obtain hc | hc := List.mem_append.mp hc
    · exact hsame.halted (h.failed c hc hbad)
    · exact hsame₂.halted (hhalt₁ ⟨c, hc, hbad⟩)
  · intro hcl
    have := h.current (hsame.curLen ▸ hcl)
    exact ⟨this.1, hsame.curLastLsn.trans this.2.1, this.2.2⟩
  · rw [hdel, okPrefix, h.accepted, List.takeWhile_append_of_pos fun r hr =>
      hretired r (List.mem_append_left _ hr)]

/-- Every elementary change keeps the invariant and only ever extends what has been retired. -/
theorem Fifo.move (h : Fifo w done queue) {rs : List LogRecord} {w' : WalT}
    (hm : WalT.Move w rs w') : ∃ fin rest, Fifo w' (done ++ fin) rest := by
  cases hm with
  | push seg r hseg hlsn htakes => exact ⟨[], queue, by simpa using h.push hlsn⟩
  | launch hsub hok => exact ⟨[], _, by simpa using h.launch hsub hok⟩
  | refuse hsub hok => exact ⟨[], queue, by simpa using h.refuse hok⟩
  | collect => exact ⟨_, _, (h.collect rfl).1⟩
  | stop =>
    exact ⟨[], queue, by simpa using ⟨h.segment, h.initialized, h.accepted, h.table, h.retired,
      h.durable, h.sorted, h.tokens, h.failed, h.bound, h.current⟩⟩

/-- By induction on the steps of the log. -/
theorem Fifo.moves (h : Fifo w done queue) {rs : List LogRecord} {w' : WalT}
    (hm : WalT.Moves w rs w') : ∃ fin rest, Fifo w' (done ++ fin) rest := by
  induction hm generalizing done queue with
  | refl w => exact ⟨[], queue, by simpa using h⟩
  | head hm _ ih =>
    obtain ⟨fin, rest, h'⟩ := h.move hm
    obtain ⟨fin', rest', h''⟩ := ih h'
    exact ⟨fin ++ fin', rest', by rwa [List.append_assoc] at h''⟩

end Moves

/-! ### What the invariant says of the durable LSN -/

section Durable

variable {w : WalT} {done queue : List WriteRequest}

/-- The tokens after a retired request are larger. -/
private theorem Fifo.lt_of_append (h : Fifo w done queue) {rs ss : List WriteRequest}
    (hsplit : w.backend.accepted = rs ++ ss) {s : WriteRequest} (hs : s ∈ ss) :
    lastToken rs 0 < s.token := by
  have hsort := h.sorted
  rw [hsplit, List.map_append, List.pairwise_append] at hsort
  obtain h0 | ⟨r, hr, hrt⟩ := lastToken_mem rs 0
  · rw [h0]
    exact (h.bound s (hsplit ▸ List.mem_append_right _ hs)).1
  · rw [hrt]
    exact hsort.2.2 _ (List.mem_map_of_mem hr) _ (List.mem_map_of_mem hs)

private theorem Fifo.durable_le_lastLsn (h : Fifo w done queue) : w.durableLsn ≤ w.lastLsn := by
  rw [WalT.durableLsn, h.durable]
  obtain h0 | ⟨r, hr, hrt⟩ := lastToken_mem done 0
  · rw [h0]
    exact Nat.zero_le _
  · rw [hrt]
    exact (h.bound r (h.accepted ▸ List.mem_append_left _ hr)).2

/-- The durable LSN is covered by the writes that succeeded before the first failure. -/
theorem Fifo.durable_le_okPrefix (h : Fifo w done queue) :
    w.durableLsn ≤ lastToken (okPrefix w.backend.accepted w.backend.delivered) 0 := by
  rw [WalT.durableLsn, h.durable, okPrefix, h.accepted,
    List.takeWhile_append_of_pos h.retired, lastToken_append]
  refine le_lastToken fun r hr => ?_
  exact (h.lt_of_append h.accepted (List.takeWhile_subset _ hr)).le

private theorem Fifo.durable_lt_failed (h : Fifo w done queue) {c : Completion}
    (hc : c ∈ w.backend.delivered) (hbad : c.ok = false) : w.durableLsn < c.token := by
  have hnodup : (w.backend.accepted.map (·.token)).Nodup := h.sorted.imp fun hlt => hlt.ne
  have hDnodup := ((h.tokens.nodup_iff).mpr hnodup).of_append_left
  obtain ⟨r, hr, hrt⟩ := List.mem_map.mp
    (h.tokens.mem_iff.mp (List.mem_append_left _ (List.mem_map_of_mem hc)))
  rw [h.accepted] at hr
  rw [WalT.durableLsn, h.durable, ← hrt]
  refine h.lt_of_append h.accepted ((List.mem_append.mp hr).resolve_left fun hdone => ?_)
  -- a retired request was reported well, and only once
  obtain ⟨c', hc', hct, hok⟩ := exists_of_landed (h.retired r hdone)
  obtain rfl := List.inj_on_of_nodup_map hDnodup hc' hc (hct.trans hrt)
  simp [hbad] at hok

/-- Retiring more never lowers the durable LSN. -/
theorem Fifo.durable_mono (h : Fifo w done queue) {w' : WalT} {fin rest}
    (h' : Fifo w' (done ++ fin) rest) : w.durableLsn ≤ w'.durableLsn := by
  rw [WalT.durableLsn, WalT.durableLsn, h.durable, h'.durable, lastToken_append]
  refine le_lastToken fun r hr => ?_
  exact (h'.lt_of_append (by rw [h'.accepted, List.append_assoc])
    (List.mem_append_left rest hr)).le

/-- After a harvest the durable LSN is the last token of the landed prefix. -/
private theorem Fifo.durable_reap (h : Fifo w done queue) (hrun : w.haltedFlag = false) :
    w.reap.2.durableLsn =
      lastToken (okPrefix w.reap.2.backend.accepted w.reap.2.backend.delivered) 0 := by
  obtain ⟨h', hpre⟩ := h.collect rfl
  have hacc : (w.group.reap w.backend).2.2.accepted = w.backend.accepted := by
    rw [GroupCommit.reap_state h.initialized w.backend]
    rfl
  have hkey : (w.group.reap w.backend).2.1.durableLsn = lastToken (okPrefix
      (w.group.reap w.backend).2.2.accepted (w.group.reap w.backend).2.2.delivered) 0 := by
    rw [hacc, hpre]
    exact h'.durable
  unfold WalT.reap
  rw [if_neg (by simp [hrun, h.segment])]
  dsimp only
  split_ifs
  · exact hkey
  · exact hkey

end Durable

/-! ### Halting -/

/-- A harvest of a halted group commit fails. -/
theorem GroupCommit.reap_of_halted {g : GroupCommit} (hg : g.halted = true) (be : IoBackend) :
    (g.reap be).1.isOk = false := by
  unfold reap
  split_ifs
  · rfl
  · have h := (SameGroup.foldl_note (be.reap kMaxInflight).1 g).trans (SameGroup.advance
      ((be.reap kMaxInflight).1.foldl noteCompletion g).inflightCount _) |>.halted hg
    dsimp only
    rcases hres : advance _ _ with ⟨_ | _, g'⟩ <;> rw [hres] at h
    · rfl
    · simp [show g'.halted = true from h]

namespace WalT

/-- A refused submit halts. -/
theorem halted_of_submitGroup (w : WalT) {now : ℕ} {force : Bool}
    (h : (w.submitGroup now force).1.isOk = false) : (w.submitGroup now force).2.halted = true := by
  unfold submitGroup at h ⊢
  generalize w.group.maybeSubmit w.backend now w.segOffset 0 force = res at h ⊢
  obtain ⟨_ | _, g, be⟩ := res
  · rfl
  · simp at h

/-- Once the log has halted every call fails and it stays halted. -/
theorem step_of_halted {w : WalT} (h : w.halted = true) (op : WalOp) :
    (w.step op).1.isOk = false ∧ (w.step op).2.halted = true := by
  -- either the flag of the log is set or the one of its group
  have hsub : ∀ now force, w.haltedFlag = false →
      (w.submitGroup now force).1.isOk = false ∧ (w.submitGroup now force).2.halted = true := by
    intro now force hflag
    have hg : w.group.halted = true := by simpa [halted, hflag] using h
    simp [submitGroup, GroupCommit.maybeSubmit, hg, halted]
  have hreap : w.reap.1.isOk = false ∧ w.reap.2.halted = true := by
    unfold reap
    split_ifs with hstop
    · exact ⟨rfl, h⟩
    · have hg : w.group.halted = true := by simpa [halted, not_or.mp hstop] using h
      have hr := GroupCommit.reap_of_halted hg w.backend
      dsimp only
      rw [if_neg (by simp [hr])]
      exact ⟨hr, by simp [halted]⟩
  cases op with
  | append tmpl payload tsNs =>
    simp only [step, append]
    cases hseg : w.segment with
    | none => exact ⟨rfl, h⟩
    | some seg =>
      dsimp only
      cases hflag : w.haltedFlag with
      | true => exact ⟨rfl, h⟩
      | false =>
        have hg : w.group.halted = true := by simpa [halted, hflag] using h
        simp [appendTo, GroupCommit.append, hg, halted, Status.fail, Status.isOk]
  | maybeSubmit now =>
    simp only [step, maybeSubmit]
    split_ifs with hstop
    · exact ⟨rfl, h⟩
    · exact hsub now false (by simpa using (not_or.mp hstop).1)
  | reap => exact hreap
  | forceCommit now =>
    simp only [step, forceCommit]
    split_ifs with hstop hst
    · exact ⟨rfl, h⟩
    · exact absurd hst (by simp [(hsub now true (by simpa using (not_or.mp hstop).1)).1])
    · exact hsub now true (by simpa using (not_or.mp hstop).1)

/-- A halted log stays halted. -/
theorem exec_of_halted {w : WalT} (h : w.halted = true) (ops : List WalOp) :
    (w.exec ops).1.halted = true := by
  induction ops generalizing w with
  | nil => exact h
  | cons op ops ih => exact ih (w.step_of_halted h op).2

end WalT

/-! ### The durable LSN along every run -/

/-- An open log satisfies the invariant after any run. -/
theorem WalT.exists_fifo {sc : Script} {opts : WalOptions} {drawn : UInt32} {tail : Option WalTail}
    {file : Option Bytes} {w₀ : WalT} {b : Bytes}
    (hopen : (WalT.fresh sc).open opts drawn tail file = .ok (w₀, b)) (ops : List WalOp) :
    ∃ done queue, Fifo (w₀.exec ops).1 done queue := by
  obtain ⟨seg, segOffset, lastLsn, rfl⟩ := open_eq_ready hopen
  obtain ⟨fin, rest, h⟩ := (Fifo.ready sc opts seg segOffset lastLsn).moves (exec_moves _ ops)
  exact ⟨_, _, h⟩

/-- A call that ends with a harvest, and that did not find or leave the log halted. -/
private theorem Fifo.durable_step {w : WalT} {done queue : List WriteRequest}
    (h : Fifo w done queue) {op : WalOp} (hop : op = .reap ∨ ∃ now, op = .forceCommit now)
    (hrun : (w.step op).2.halted = false) :
    (w.step op).2.durableLsn =
      lastToken (okPrefix (w.step op).2.backend.accepted (w.step op).2.backend.delivered) 0 := by
  have hflag : w.haltedFlag = false := by
    by_contra hf
    have hw : w.halted = true := by simp [WalT.halted, Bool.eq_true_of_not_eq_false hf]
    simp [(w.step_of_halted hw op).2] at hrun
  obtain rfl | ⟨now, rfl⟩ := hop
  · exact h.durable_reap hflag
  · simp only [WalT.step, WalT.forceCommit] at hrun ⊢
    rw [if_neg (by simp [hflag, h.segment])] at hrun ⊢
    obtain ⟨fin, rest, h'⟩ := h.moves (w.submitGroup_moves now true)
    cases hst : (w.submitGroup now true).1.isOk with
    | true =>
      simp only [hst, if_true] at hrun ⊢
      refine h'.durable_reap ?_
      by_contra hf
      have hw : (w.submitGroup now true).2.halted = true := by
        simp [WalT.halted, Bool.eq_true_of_not_eq_false hf]
      have := (WalT.step_of_halted hw .reap).2
      simp [WalT.step, hrun] at this
    | false =>
      simp only [hst, Bool.false_eq_true, if_false, w.halted_of_submitGroup hst,
        Bool.true_eq_false] at hrun

/-- **The durable LSN is the completed FIFO prefix.** On every open log, after every run of calls
and whatever the backend did: the durable LSN never decreases, never exceeds the last LSN, never
exceeds the last LSN of the longest landed prefix of the submitted groups and equals it after
every harvest while the log has not halted; it stays below every group that failed or was written
short; and once the log has halted nothing succeeds again. -/
theorem WalT.durableLsn_eq_okPrefix {sc : Script} {opts : WalOptions} {drawn : UInt32}
    {tail : Option WalTail} {file : Option Bytes} {w₀ : WalT} {b : Bytes}
    (hopen : (WalT.fresh sc).open opts drawn tail file = .ok (w₀, b)) (ops : List WalOp) :
    let w := (w₀.exec ops).1
    (∀ op, w.durableLsn ≤ (w.step op).2.durableLsn) ∧
    w.durableLsn ≤ w.lastLsn ∧
    w.durableLsn ≤ lastToken (okPrefix w.backend.accepted w.backend.delivered) 0 ∧
    (∀ op, (op = .reap ∨ ∃ now, op = .forceCommit now) → (w.step op).2.halted = false →
      (w.step op).2.durableLsn =
        lastToken (okPrefix (w.step op).2.backend.accepted (w.step op).2.backend.delivered) 0) ∧
    (∀ c ∈ w.backend.delivered, c.ok = false → w.durableLsn < c.token) ∧
    (w.halted = true → ∀ ops' op, ((w.exec ops').1.step op).1.isOk = false ∧
      ((w.exec ops').1.step op).2.halted = true) := by
  intro w
  obtain ⟨done, queue, h⟩ := WalT.exists_fifo hopen ops
  refine ⟨fun op => ?_, h.durable_le_lastLsn, h.durable_le_okPrefix, fun op hop hrun => ?_,
    fun c hc hbad => h.durable_lt_failed hc hbad, fun hhalt ops' op => ?_⟩
  · obtain ⟨fin, rest, h'⟩ := h.moves (w.step_moves op)
    exact h.durable_mono h'
  · exact h.durable_step hop hrun
  · exact WalT.step_of_halted (WalT.exec_of_halted hhalt ops') op

/-- The calls of a run with two groups, up to the harvest of the second. -/
def outOfOrderOps : List WalOp :=
  [.append 1 [1] 0, .maybeSubmit 0, .append 1 [2] 0, .maybeSubmit 0, .reap]

/-- Two groups; the second is reported first, and makes nothing durable until the first is. -/
theorem WalT.durableLsn_eq_okPrefix_create :
    let sc : Script := ⟨fun _ => .kOk, fun n => if n = 0 then [(1, 512)] else [(0, 512)]⟩
    let w := ((((WalT.fresh sc).openCreate ⟨0, 0, 0, 512⟩ 7).1).exec outOfOrderOps).1
    w.backend.delivered = [⟨2, 512, 512⟩] ∧ w.durableLsn = 0 ∧
      (w.step .reap).2.backend.delivered = [⟨2, 512, 512⟩, ⟨1, 512, 512⟩] ∧
      (w.step .reap).2.durableLsn = 2 ∧
      (w.step .reap).2.durableLsn =
        lastToken (okPrefix (w.step .reap).2.backend.accepted (w.step .reap).2.backend.delivered)
          0 := by
  intro sc w
  have hrun : (w.step .reap).2.halted = false := by decide +kernel
  obtain ⟨-, -, -, hstep, -⟩ := WalT.durableLsn_eq_okPrefix
    (show (WalT.fresh sc).open ⟨0, 0, 0, 512⟩ 7 none none = .ok (_, _) from rfl) outOfOrderOps
  exact ⟨by decide +kernel, by decide +kernel, by decide +kernel, by decide +kernel,
    hstep .reap (.inl rfl) hrun⟩

end MotorRv
