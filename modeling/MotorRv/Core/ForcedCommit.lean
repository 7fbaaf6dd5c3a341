import MotorRv.Core.ExactlyOnce
import MotorRv.Wal.Buffers

/-!
# The forced commit of a partition

The log has a `force_commit` of its own, which hands over the current group whatever its window.
`Partition::force_commit` calls `maybe_submit` instead, as a poll does: a group whose window is open
and that is not full stays where it is, and the answer is `Ok` all the same.

A log that is resumed starts again with a durable LSN of zero. Until something is appended, nothing
is to be completed and the durable LSN is behind the applied one.

`CommitsForced` states what a forced commit is for: it says `Ok` only when nothing is left in the
current group, and once everything that was handed over has landed, however many harvests that
takes, the durable LSN covers what has been applied. `commitsForced_iff` finds the condition for it
on the state before the call, for every run of a partition and every moment: the log has halted, in
which case it answers with an error, or the group is not let wait, and something was appended since
the log was opened, unless nothing was ever applied.

A group with an open window, for which the code waits although it was told not to, is the
counterexample. What the harvests leave alone (`Harvested.reaps`) is an induction of its own, so
that "eventually" needs no bound.
-/

namespace MotorRv

open Lib

/-! ### Handing over without forcing -/

/-- The current group is not due. -/
structure GroupCommit.Waits (g : GroupCommit) (nowNs : ℕ) : Prop where
  filled : 0 < g.curLen
  early : nowNs < g.curDeadlineNs
  room : g.curLen < kMaxGroupBytes

instance (g : GroupCommit) (nowNs : ℕ) : Decidable (g.Waits nowNs) :=
  decidable_of_iff (0 < g.curLen ∧ nowNs < g.curDeadlineNs ∧ g.curLen < kMaxGroupBytes)
    ⟨fun h => ⟨h.1, h.2.1, h.2.2⟩, fun h => ⟨h.filled, h.early, h.room⟩⟩

/-- A group that is not let wait and is left as it was is empty. -/
theorem GroupCommit.curLen_of_maybeSubmit {g : GroupCommit} {be : IoBackend}
    {nowNs fileOffset fileIdx : ℕ} (h : ¬ g.Waits nowNs)
    (hsame : g.maybeSubmit be nowNs fileOffset fileIdx false = (.ok 0, g, be)) : g.curLen = 0 := by
  by_contra hne
  have hwait : ¬ ((!false) = true ∧ nowNs < g.curDeadlineNs ∧ g.curLen < kMaxGroupBytes) :=
    fun hw => h ⟨Nat.pos_of_ne_zero hne, hw.2.1, hw.2.2⟩
  unfold maybeSubmit at hsame
  rw [if_neg hne, if_neg hwait] at hsame
  split_ifs at hsame
  · cases hsame
  · cases hsame
  · cases hsame
  dsimp only at hsame
  split_ifs at hsame
  -- what was handed over leaves an empty group behind
  · exact hne (congrArg (fun x => x.2.1.curLen) hsame).symm
  · cases hsame

namespace WalT

variable {w : WalT} {nowNs : ℕ}

/-- A log that runs stays as it is when its group hands nothing over. -/
theorem maybeSubmit_of_group (hrun : w.halted = false) (hseg : w.segment ≠ none)
    (hsub : w.group.maybeSubmit w.backend nowNs w.segOffset 0 false =
      (.ok 0, w.group, w.backend)) : w.maybeSubmit nowNs = (.kOk, w) := by
  obtain ⟨hflag, -⟩ := Bool.or_eq_false_iff.mp hrun
  rw [maybeSubmit, if_neg (by simp [hflag, hseg]), submitGroup, hsub]
  rfl

/-- A log that runs lets a group wait, and says `Ok`. -/
theorem maybeSubmit_of_waits (hrun : w.halted = false) (hseg : w.segment ≠ none)
    (hinit : w.group.initialized = true) (h : w.group.Waits nowNs) :
    w.maybeSubmit nowNs = (.kOk, w) := by
  obtain ⟨-, hg⟩ := Bool.or_eq_false_iff.mp hrun
  refine maybeSubmit_of_group hrun hseg ?_
  unfold GroupCommit.maybeSubmit
  rw [if_neg (by simp [hg]), if_neg (by simp [hinit]), if_neg h.filled.ne',
    if_pos ⟨rfl, h.early, h.room⟩]

/-- Otherwise `Ok` means that nothing is left in the current group. -/
theorem curLen_maybeSubmit (h : ¬ w.group.Waits nowNs) (hok : (w.maybeSubmit nowNs).1.isOk = true) :
    (w.maybeSubmit nowNs).2.group.curLen = 0 ∧ (w.maybeSubmit nowNs).2.haltedFlag = false := by
  rw [maybeSubmit] at hok ⊢
  by_cases hstop : w.haltedFlag ∨ w.segment = none
  · rw [if_pos hstop] at hok
    cases hok
  rw [if_neg hstop, submitGroup] at hok ⊢
  have hflag : w.haltedFlag = false := by simpa using (not_or.mp hstop).1
  obtain hsame | ⟨st, hst, herr⟩ | ⟨hsub, -, hsent⟩ | ⟨hsub, hst, hrefused⟩ :=
    w.group.maybeSubmit_cases w.backend nowNs w.segOffset 0 false
  · rw [hsame]
    exact ⟨GroupCommit.curLen_of_maybeSubmit h hsame, hflag⟩
  · rw [herr] at hok
    exact absurd hok (by simp [hst])
  · rw [hsent]
    exact ⟨rfl, hflag⟩
  · rw [hrefused] at hok
    exact absurd hok (by simp [hst])

/-- A log that is halted answers with an error. -/
theorem not_isOk_maybeSubmit (hhalted : w.halted = true) (nowNs : ℕ) :
    ¬ (w.maybeSubmit nowNs).1.isOk = true := by
  intro hok
  by_cases hstop : w.haltedFlag ∨ w.segment = none
  · rw [maybeSubmit, if_pos hstop] at hok
    cases hok
  · have hg : w.group.halted = true := by
      simpa [halted, (not_or.mp hstop).1] using hhalted
    rw [maybeSubmit, if_neg hstop, submitGroup, GroupCommit.maybeSubmit, if_pos hg] at hok
    cases hok

/-- A log that runs has nothing to hand over when its current group is empty. -/
theorem maybeSubmit_of_empty (hrun : w.halted = false) (hseg : w.segment ≠ none)
    (hinit : w.group.initialized = true) (hnil : w.group.curLen = 0) :
    w.maybeSubmit nowNs = (.kOk, w) := by
  obtain ⟨-, hg⟩ := Bool.or_eq_false_iff.mp hrun
  refine maybeSubmit_of_group hrun hseg ?_
  unfold GroupCommit.maybeSubmit
  rw [if_neg (by simp [hg]), if_neg (by simp [hinit]), if_pos hnil]

/-- A harvest leaves the group that is filled. -/
theorem curLen_reap (w : WalT) : w.reap.2.group.curLen = w.group.curLen := by
  unfold reap
  split_ifs
  · rfl
  · dsimp only
    split_ifs
    · exact (SameGroup.reap _ _).curLen
    · exact (SameGroup.reap _ _).curLen

end WalT

/-! ### After a harvest -/

/-- The log has harvested: what is queued waits for the oldest group. -/
structure Harvested (w : WalT) : Prop where
  all : ∃ done queue, Fifo w done queue ∧ queue.dropWhile (landed w.backend.delivered) = queue

/-- After a harvest the head of the queue is not answered yet. -/
theorem Fifo.harvested {w : WalT} {done queue : List WriteRequest} (h : Fifo w done queue)
    (hflag : w.haltedFlag = false) : Harvested w.reap.2 := by
  obtain ⟨hf, -⟩ := h.collect rfl
  have hdel : (w.group.reap w.backend).2.2.delivered =
      w.backend.delivered ++ (w.backend.reap kMaxInflight).1 := by
    rw [GroupCommit.reap_state h.initialized]
    rfl
  have hdrop := List.dropWhile_idempotent (landed (w.backend.delivered ++
    (w.backend.reap kMaxInflight).1)) queue
  unfold WalT.reap
  rw [if_neg (by simp [hflag, h.segment])]
  dsimp only
  split_ifs
  · exact ⟨_, _, hf, by rw [hdel]; exact hdrop⟩
  · exact ⟨_, _, ⟨hf.segment, hf.initialized, hf.accepted, hf.table, hf.retired, hf.durable,
      hf.sorted, hf.tokens, hf.failed, hf.bound, hf.current⟩, by rw [hdel]; exact hdrop⟩

/-- A log that is harvested stays so. -/
theorem Harvested.reap {w : WalT} (h : Harvested w) : Harvested w.reap.2 := by
  obtain ⟨done, queue, hf, hdrop⟩ := h.all
  cases hflag : w.haltedFlag with
  | false => exact hf.harvested hflag
  | true =>
    rw [WalT.reap, if_pos (.inl hflag)]
    exact h

/-- Once every accepted request has landed, the durable LSN is the token of the last one. -/
theorem Harvested.durableLsn {w : WalT} (h : Harvested w)
    (hall : ∀ r ∈ w.backend.accepted, landed w.backend.delivered r = true) :
    w.durableLsn = lastToken w.backend.accepted 0 := by
  obtain ⟨done, queue, hf, hdrop⟩ := h.all
  have hnil : queue = [] := by
    rw [← hdrop]
    refine List.dropWhile_eq_nil_iff.mpr fun r hr => hall r ?_
    rw [hf.accepted]
    exact List.mem_append_right _ hr
  rw [WalT.durableLsn, hf.durable, hf.accepted, hnil, List.append_nil]

/-! ### Harvesting again and again -/

section Reaps

variable {epoch : UInt32} {block base lsn₀ : ℕ} {w : WalT} {log : List LogRecord}

theorem WalT.exec_reaps (w : WalT) (n : ℕ) :
    (w.exec (List.replicate (n + 1) .reap)).1 = (w.reap.2.exec (List.replicate n .reap)).1 := rfl

/-- Harvests keep what a harvest leaves, and the current group. -/
theorem Harvested.reaps : ∀ {n : ℕ} {w : WalT}, Harvested w →
    Harvested (w.exec (List.replicate n .reap)).1 ∧
      (w.exec (List.replicate n .reap)).1.group.curLen = w.group.curLen
  | 0, _, h => ⟨h, rfl⟩
  | n + 1, w, h => by
    obtain ⟨hn, hcur⟩ := h.reap.reaps (n := n)
    rw [WalT.exec_reaps]
    exact ⟨hn, hcur.trans w.curLen_reap⟩

/-- Harvests keep the buffers. -/
theorem BuffersKept.reaps (hblock : BlockOk block) :
    ∀ {n : ℕ} {w : WalT}, BuffersKept epoch block base lsn₀ w log →
      BuffersKept epoch block base lsn₀ (w.exec (List.replicate n .reap)).1 log
  | 0, _, h => h
  | n + 1, w, h => by
    have hone := h.moves hblock w.reap_moves
    rw [List.append_nil] at hone
    rw [WalT.exec_reaps]
    exact hone.reaps hblock

/-- The last LSN counts the records. -/
theorem BuffersKept.lastLsn (h : BuffersKept epoch block base lsn₀ w log) :
    w.lastLsn = lsn₀ + log.length := by
  obtain ⟨_, _, _, _, hc, -⟩ := h.all
  exact hc.lastLsn

/-- A log with nothing appended holds nothing and has handed over nothing. -/
theorem BuffersKept.idle (h : BuffersKept epoch block base lsn₀ w []) :
    w.group.curLen = 0 ∧ w.backend.accepted = [] := by
  obtain ⟨groups, cur, _, _, hc, -⟩ := h.all
  obtain ⟨hgroups, rfl⟩ := List.append_eq_nil_iff.mp hc.cut.symm
  obtain rfl : groups = [] := List.eq_nil_iff_forall_not_mem.mpr fun g hg =>
    hc.nonempty g hg (List.flatten_eq_nil_iff.mp hgroups g hg)
  exact ⟨hc.curLen, List.map_eq_nil_iff.mp hc.requests⟩

/-- With nothing in the current group and all that was handed over landed, the durable LSN is the
last one, but zero when nothing was appended since the log was opened. -/
theorem BuffersKept.durableLsn (h : BuffersKept epoch block base lsn₀ w log) (hh : Harvested w)
    (hcur : w.group.curLen = 0)
    (hall : ∀ r ∈ w.backend.accepted, landed w.backend.delivered r = true) :
    w.durableLsn = if w.lastLsn = lsn₀ then 0 else w.lastLsn := by
  obtain ⟨groups, cur, done, queue, hc, -⟩ := h.all
  obtain rfl : cur = [] := by
    have hlen := length_le_encodeRecords epoch cur
    rw [← hc.curLen, hcur] at hlen
    exact List.length_eq_zero_iff.mp (by omega)
  rw [hh.durableLsn hall]
  have hlsn : w.lastLsn = lsn₀ + groups.flatten.length := by
    rw [hc.lastLsn, hc.cut, List.append_nil]
  have hlast : lastToken w.backend.accepted lsn₀ = w.lastLsn := by
    rw [lastToken_layout hc.requests, hlsn]
  have hrequests := hc.requests
  cases groups with
  | nil =>
    rw [layout, List.map_eq_nil_iff] at hrequests
    rw [hrequests, if_pos (by rw [hlsn]; rfl)]
    rfl
  | cons g gs =>
    have hg : 0 < g.length := List.length_pos_iff.mpr (hc.nonempty g List.mem_cons_self)
    obtain ⟨r, rest, hacc, -⟩ := List.map_eq_cons_iff.mp hrequests
    rw [hacc, lastToken_cons] at hlast
    rw [hacc, lastToken_cons, hlast, if_neg]
    rw [List.flatten_cons, List.length_append] at hlsn
    omega

/-- A log that says `Ok` to handing over a group it does not let wait, and is then harvested, again
and again: nothing is left in the current group, and all of it is durable once it has landed. -/
theorem BuffersKept.forced (h : BuffersKept epoch block base lsn₀ w log) (hblock : BlockOk block)
    {nowNs : ℕ} (hdue : ¬ w.group.Waits nowNs) (hok : (w.maybeSubmit nowNs).1.isOk = true) :
    (w.maybeSubmit nowNs).2.reap.2.group.curLen = 0 ∧
      ∀ n, let w' := ((w.maybeSubmit nowNs).2.reap.2.exec (List.replicate n .reap)).1
        (∀ r ∈ w'.backend.accepted, landed w'.backend.delivered r = true) →
          w'.durableLsn = if w.lastLsn = lsn₀ then 0 else w.lastLsn := by
  obtain ⟨hcur, hflag⟩ := WalT.curLen_maybeSubmit hdue hok
  have hmoves : WalT.Moves w [] (w.maybeSubmit nowNs).2 := w.step_moves (.maybeSubmit nowNs)
  have hsent := h.moves hblock hmoves
  rw [List.append_nil] at hsent
  obtain ⟨_, _, done, queue, -, hf, -⟩ := hsent.all
  have hleft := hsent.moves hblock (w.maybeSubmit nowNs).2.reap_moves
  rw [List.append_nil] at hleft
  have hcur' := ((w.maybeSubmit nowNs).2.curLen_reap).trans hcur
  refine ⟨hcur', ?_⟩
  intro n w' hall
  obtain ⟨hh, hcur''⟩ := (hf.harvested hflag).reaps (n := n)
  have hkept : BuffersKept epoch block base lsn₀ w' log := hleft.reaps hblock
  rw [h.lastLsn, ← hkept.lastLsn]
  exact hkept.durableLsn hh (hcur''.trans hcur') hall

end Reaps

/-! ### What has been applied -/

/-- The last record applied is the last one of the run. -/
theorem appliedLsn_applyAll {evs : List (EventView × Option Outbox)} : ∀ {s s' : PartitionState}
    {sts : List Status}, applyAll s evs = .ok (sts, s') →
      s'.appliedLsn = (evs.map fun x => UInt64.ofNat x.1.lsn).getLastD s.appliedLsn := by
  induction evs with
  | nil =>
    intro s s' sts h
    obtain ⟨-, rfl⟩ := Prod.mk.inj (Except.ok.inj h)
    rfl
  | cons x evs ih =>
    intro s s' sts h
    obtain ⟨ev, o⟩ := x
    obtain ⟨⟨st, e⟩, happ, h⟩ := except_bind_eq_ok.mp h
    obtain ⟨⟨sts', s₁⟩, hrest, h⟩ := except_bind_eq_ok.mp h
    obtain ⟨-, rfl⟩ := Prod.mk.inj (Except.ok.inj h)
    have hone : e.s.appliedLsn = UInt64.ofNat ev.lsn := by
      obtain ⟨⟨r, e₁⟩, -, happ⟩ := except_bind_eq_ok.mp happ
      obtain ⟨-, rfl⟩ := Prod.mk.inj (Except.ok.inj happ)
      rfl
    rw [ih hrest, List.map_cons, List.getLastD_cons, hone]

/-- The last of records that are numbered on. -/
theorem getLastD_numbered {rs : List LogRecord} : ∀ {n : ℕ} {d : UInt64}, rs ≠ [] →
    SegmentReader.Numbered (n + 1) rs →
      (rs.map fun r => UInt64.ofNat r.lsn).getLastD d = UInt64.ofNat (n + rs.length) := by
  induction rs with
  | nil => exact fun h => absurd rfl h
  | cons r rs ih =>
    rintro n d - ⟨hr, h⟩
    rw [List.map_cons, List.getLastD_cons]
    cases rs with
    | nil => rw [hr]; rfl
    | cons r' rs =>
      rw [ih (List.cons_ne_nil _ _) h, List.length_cons, List.length_cons, List.length_cons]
      congr 1
      omega

namespace Partition

variable {sc : Script} {opts : WalOptions} {seg : Segment} {segOffset lastLsn : ℕ}
  {estado : PartitionState} {entrada : Inbox} {saida : Outbox} {is : List PartitionInput}
  {rs : List Polled} {p : Partition}

/-- A partition over a log that has just been opened has applied what the log has last, if anything
was appended. -/
theorem appliedLsn_exec
    (hrun : (start estado
      ((WalT.fresh sc).ready opts seg segOffset lastLsn) entrada saida).exec is =
      .ok (rs, p)) :
    (p.diario.lastLsn ≠ lastLsn → p.estado.appliedLsn = UInt64.ofNat p.diario.lastLsn) ∧
      BuffersKept seg.epoch (effectiveBlock opts.blockSize.toNat) segOffset lastLsn p.diario
        (records (turnsOf rs)) := by
  obtain ⟨arrived, -, h⟩ := (tally_start (p := start estado _ entrada saida) rfl).exec hrun
  rw [List.nil_append, List.nil_append] at h
  have hkept := (BuffersKept.ready sc opts seg segOffset lastLsn).moves (.effectiveBlock _) h.log
  rw [List.nil_append] at hkept
  refine ⟨fun hne => ?_, hkept⟩
  obtain ⟨groups, cur, done, queue, hc, -⟩ := hkept.all
  obtain ⟨os, hlen, happlied⟩ := h.applied
  have hsome : records (turnsOf rs) ≠ [] := by
    intro hnil
    exact hne (by rw [hc.lastLsn, hnil]; rfl)
  have hlive : (live ((records (turnsOf rs)).zip os)).map (fun x => UInt64.ofNat x.1.lsn) =
      (records (turnsOf rs)).map fun r => UInt64.ofNat r.lsn := by
    calc (live ((records (turnsOf rs)).zip os)).map (fun x => UInt64.ofNat x.1.lsn)
      _ = (((records (turnsOf rs)).zip os).map Prod.fst).map fun r => UInt64.ofNat r.lsn := by
        rw [live, List.map_map, List.map_map]
        rfl
      _ = (records (turnsOf rs)).map fun r => UInt64.ofNat r.lsn := by
        rw [List.map_fst_zip hlen.ge]
  rw [appliedLsn_applyAll happlied, hlive, getLastD_numbered hsome hc.numbered, hc.lastLsn]

/-! ### What a forced commit leaves -/

/-- Forced, and said to be done: nothing is left in the current group, and however often the log is
harvested afterwards, once all that was handed over has landed the durable LSN is the applied
one. -/
def CommitsForced (p : Partition) (nowNs : ℕ) : Prop :=
  (p.forceCommit nowNs).1.isOk = true →
    (p.forceCommit nowNs).2.2.diario.group.curLen = 0 ∧
      ∀ n, let w := ((p.forceCommit nowNs).2.2.diario.exec (List.replicate n .reap)).1
        (∀ r ∈ w.backend.accepted, landed w.backend.delivered r = true) →
          UInt64.ofNat w.durableLsn = (p.forceCommit nowNs).2.2.estado.appliedLsn

@[simp]
theorem isOk_forceCommit (p : Partition) (nowNs : ℕ) :
    (p.forceCommit nowNs).1 = (p.diario.maybeSubmit nowNs).1 := rfl

@[simp]
theorem estado_forceCommit (p : Partition) (nowNs : ℕ) :
    (p.forceCommit nowNs).2.2.estado = p.estado := rfl

/-- A forced commit of a partition whose log was opened and that has polled since leaves nothing in
the current group, with all of it durable in the end, if and only if the log is halted, in which
case it answers with an error, or its current group is not let wait, and something was appended
since the log was opened or nothing was ever applied. -/
theorem commitsForced_iff (sc : Script) (opts : WalOptions) (seg : Segment) (segOffset lastLsn : ℕ)
    (estado : PartitionState) (entrada : Inbox) (saida : Outbox) (is : List PartitionInput)
    (rs : List Polled) (p : Partition) (nowNs : ℕ)
    (hrun : (start estado
      ((WalT.fresh sc).ready opts seg segOffset lastLsn) entrada saida).exec is =
      .ok (rs, p)) :
    p.CommitsForced nowNs ↔ p.diario.halted = true ∨ ¬ p.diario.group.Waits nowNs ∧
      (p.diario.lastLsn ≠ lastLsn ∨ p.estado.appliedLsn = 0) := by
  obtain ⟨happlied, hkept⟩ := appliedLsn_exec hrun
  obtain ⟨groups, cur, done, queue, hc, hf, -⟩ := hkept.all
  cases hhalted : p.diario.halted with
  | true =>
    exact iff_of_true (fun hok => absurd hok (WalT.not_isOk_maybeSubmit hhalted nowNs)) (.inl rfl)
  | false =>
    rw [or_iff_right Bool.false_ne_true]
    constructor
    · intro h
      have hdue : ¬ p.diario.group.Waits nowNs := by
        intro hwaits
        have hstay := WalT.maybeSubmit_of_waits hhalted hf.segment hf.initialized hwaits
        have hok : (p.forceCommit nowNs).1.isOk = true := by
          rw [isOk_forceCommit, hstay]
          rfl
        have hleft : (p.diario.maybeSubmit nowNs).2.reap.2.group.curLen = 0 := (h hok).1
        rw [hstay, WalT.curLen_reap] at hleft
        exact hwaits.filled.ne' hleft
      refine ⟨hdue, or_iff_not_imp_left.mpr fun hlsn => ?_⟩
      -- nothing was appended: there is nothing to hand over, and nothing to wait for
      have hnil : records (turnsOf rs) = [] := by
        have hlast := hkept.lastLsn
        exact List.length_eq_zero_iff.mp (by omega)
      rw [hnil] at hkept
      obtain ⟨hcur, hacc⟩ := hkept.idle
      have hstay : p.diario.maybeSubmit nowNs = (.kOk, p.diario) :=
        WalT.maybeSubmit_of_empty hhalted hf.segment hf.initialized hcur
      have hok : (p.diario.maybeSubmit nowNs).1.isOk = true := by
        rw [hstay]
        rfl
      obtain ⟨-, hdurable⟩ := hkept.forced (.effectiveBlock _) hdue hok
      have hreaped := hkept.moves (.effectiveBlock _) p.diario.reap_moves
      have hall : ∀ r ∈ (p.diario.maybeSubmit nowNs).2.reap.2.backend.accepted,
          landed (p.diario.maybeSubmit nowNs).2.reap.2.backend.delivered r = true := by
        rw [hstay, hreaped.idle.2]
        exact nofun
      have hzero := hdurable 0 hall
      rw [if_pos (not_not.mp hlsn)] at hzero
      have happ := (h hok).2 0 hall
      exact happ.symm.trans (congrArg UInt64.ofNat hzero)
    · rintro ⟨hdue, hlsn⟩ hok
      obtain ⟨hcur, hdurable⟩ := hkept.forced (.effectiveBlock _) hdue hok
      refine ⟨hcur, ?_⟩
      intro n w hall
      have hw : w.durableLsn = if p.diario.lastLsn = lastLsn then 0 else p.diario.lastLsn :=
        hdurable n hall
      rw [hw, estado_forceCommit]
      split_ifs with hsame
      · exact (hlsn.resolve_left (not_not.mpr hsame)).symm
      · exact (happlied hsame).symm

/-- A partition over a log with a window of 1000 ns and a backend that accepts every write. -/
def windowed (s₀ : PartitionState) : Partition :=
  start s₀ ((WalT.fresh ⟨fun _ => .kOk, fun _ => []⟩).ready
    ⟨0, 1000, 0, 4096⟩ ⟨1, 7, 0, 4096⟩ 4096 0)
    Inbox.empty (Outbox.fresh 16 256)

/-- A frame that cannot be decoded, polled five nanoseconds after it arrived. -/
def oneFrame : List PartitionInput := [.arrive undecodable, .poll 10]

/-- The end of the window is at 1005. -/
theorem windowed_exec : ∃ s₀ arena₀,
    PartitionState.blank.init ⟨2 ^ 16, 0, false, false⟩ 1 ⟨2, 2, 2, 2, 2, 2, 2, 2, 60⟩ =
      .ok (true, s₀, arena₀) ∧ ∃ rs p, (windowed s₀).exec oneFrame = .ok (rs, p) ∧
    p.diario.group.curDeadlineNs = 1005 ∧ p.diario.lastLsn = 1 ∧
    (p.forceCommit 20).1.isOk = true ∧ (p.forceCommit 20).2.2.diario.group.curLen = 40 := by
  obtain ⟨s₀, arena₀, rs, p, hinit, hrun, hend⟩ := @exists_of_checked
    ⟨2, 2, 2, 2, 2, 2, 2, 2, 60⟩ windowed oneFrame
    (fun _ _ _ p => decide (p.diario.group.curDeadlineNs = 1005 ∧ p.diario.lastLsn = 1 ∧
      (p.forceCommit 20).1.isOk = true ∧ (p.forceCommit 20).2.2.diario.group.curLen = 40))
    (by decide +kernel)
  exact ⟨s₀, arena₀, hinit, rs, p, hrun, of_decide_eq_true hend⟩

/-- Not every forced commit that says `Ok` commits: this one comes before the end of the window. -/
theorem not_forall_commitsForced : ¬ ∀ (sc : Script) (opts : WalOptions) (seg : Segment)
    (segOffset lastLsn : ℕ) (estado : PartitionState) (entrada : Inbox) (saida : Outbox)
    (is : List PartitionInput) (rs : List Polled) (p : Partition) (nowNs : ℕ),
    (start estado ((WalT.fresh sc).ready opts seg segOffset lastLsn) entrada saida).exec is =
      .ok (rs, p) → p.CommitsForced nowNs := by
  intro hall
  obtain ⟨s₀, arena₀, -, rs, p, hrun, -, -, hok, hleft⟩ := windowed_exec
  have hnone := (hall _ _ _ _ _ _ _ _ _ _ _ 20 hrun hok).1
  rw [hleft] at hnone
  exact absurd hnone (by decide)

/-- The same record is committed at the end of its window. -/
theorem commitsForced_iff_due : ∃ s₀ rs p, (windowed s₀).exec oneFrame = .ok (rs, p) ∧
    p.CommitsForced 1005 := by
  obtain ⟨s₀, arena₀, -, rs, p, hrun, hdeadline, hlsn, -⟩ := windowed_exec
  refine ⟨s₀, rs, p, hrun,
    (commitsForced_iff _ _ _ _ _ _ _ _ _ _ _ 1005 hrun).mpr (.inr ⟨?_, .inl ?_⟩)⟩
  · intro hwaits
    have hearly := hwaits.early
    rw [hdeadline] at hearly
    exact absurd hearly (by decide)
  · rw [hlsn]
    decide

end Partition

end MotorRv
