import MotorRv.Wal.Content

/-!
# When there is no room

`WalFull` says that a group cannot be handed over now. `append` takes it for that: the record is
refused, and nothing else changes but that a full group may have been handed over. A timed or a
forced submit that meets it halts the log for good.

`NoRoom`, `Due` and `Blocked` read the state before a call; with them the answer of a submit is
known in advance (`submitGroup_walFull_iff`), and so is that of an append (`append_answer`). A run
is `Unblocked` when none of its submits is blocked.

In such a run nothing but `append` ever answers `WalFull`, and `walFull_transient` says what that
means for the caller: the log does not halt, no LSN is consumed, and the records appended are those
of the calls that did not meet it, in order, as if the others had not been made. The converse is the
last theorem: one blocked submit halts the log, although the interface calls the status transient.
-/

namespace MotorRv

open Lib

namespace WalT

/-- The table of groups in flight is full, or the backend is about to say that it is. -/
def NoRoom (w : WalT) : Prop :=
  kMaxInflight ≤ w.group.inflightCount ∨
    (w.backend.script.answer w.backend.submits).code = .walFull

/-- The current group is to be handed over. -/
def Due (w : WalT) (nowNs : ℕ) (force : Bool) : Prop :=
  w.halted = false ∧ 0 < w.group.curLen ∧
    (force = true ∨ w.group.curDeadlineNs ≤ nowNs ∨ kMaxGroupBytes ≤ w.group.curLen)

/-- A timed or forced submit that is to hand over the current group and finds no room. -/
def Blocked (w : WalT) : WalOp → Prop
  | .maybeSubmit nowNs => w.Due nowNs false ∧ w.NoRoom
  | .forceCommit nowNs => w.Due nowNs true ∧ w.NoRoom
  | _ => False

instance (w : WalT) : Decidable w.NoRoom := inferInstanceAs (Decidable (_ ∨ _))

instance (w : WalT) (nowNs : ℕ) (force : Bool) : Decidable (w.Due nowNs force) :=
  inferInstanceAs (Decidable (_ ∧ _))

instance (w : WalT) : (op : WalOp) → Decidable (w.Blocked op)
  | .append _ _ _ => inferInstanceAs (Decidable False)
  | .maybeSubmit _ => inferInstanceAs (Decidable (_ ∧ _))
  | .reap => inferInstanceAs (Decidable False)
  | .forceCommit _ => inferInstanceAs (Decidable (_ ∧ _))

/-- No submit of the run is blocked. -/
def Unblocked : WalT → List WalOp → Prop
  | _, [] => True
  | w, op :: ops => ¬ w.Blocked op ∧ (w.step op).2.Unblocked ops

instance decidableUnblocked : (ops : List WalOp) → (w : WalT) → Decidable (w.Unblocked ops)
  | [], _ => isTrue trivial
  | _ :: ops, _ => @instDecidableAnd _ _ _ (decidableUnblocked ops _)

/-- What the calls of a run answer. -/
def answers : WalT → List WalOp → List Status
  | _, [] => []
  | w, op :: ops => (w.step op).1 :: (w.step op).2.answers ops

/-- The calls of a run that do not meet `WalFull`. -/
def kept : WalT → List WalOp → List WalOp
  | _, [] => []
  | w, op :: ops =>
    if (w.step op).1.code = .walFull then (w.step op).2.kept ops
    else op :: (w.step op).2.kept ops

/-- A payload that a record can hold. -/
def Holdable (payload : Bytes) : Prop :=
  payload.length ≤ kMaxPayload ∧ recordBytes payload.length ≤ kMaxGroupBytes

instance (payload : Bytes) : Decidable (Holdable payload) := inferInstanceAs (Decidable (_ ∧ _))

/-- The records of the appends, numbered from an LSN on, when each one that can be is taken. -/
def logOf : ℕ → List WalOp → List LogRecord
  | _, [] => []
  | lsn, .append tmpl payload tsNs :: ops =>
    if Holdable payload then ⟨lsn + 1, tsNs, tmpl, payload⟩ :: logOf (lsn + 1) ops
    else logOf lsn ops
  | lsn, _ :: ops => logOf lsn ops

variable {w : WalT}

/-- A call that fails adds no record. -/
theorem logged_of_not_ok {op : WalOp} (h : (w.step op).1.isOk = false) : w.logged op = [] := by
  cases op with
  | append tmpl payload tsNs =>
    simp only [step] at h
    simp only [logged]
    generalize w.append tmpl payload tsNs = r at h ⊢
    obtain ⟨_ | a, w'⟩ := r
    · rfl
    · cases h
  | maybeSubmit nowNs => rfl
  | reap => rfl
  | forceCommit nowNs => rfl

/-! ### `append` -/

/-- `append` never halts the log. -/
theorem halted_append (w : WalT) (tmpl : UInt16) (payload : Bytes) (tsNs : UInt64) :
    (w.append tmpl payload tsNs).2.halted = w.halted := by
  -- none of its parts sets the flag: not the buffer, and not the forced submit
  have hpush : ∀ (g : GroupCommit) epoch lsn,
      (g.append tmpl payload tsNs epoch lsn).2.halted = g.halted := by
    intro g epoch lsn
    obtain ⟨st, h, -⟩ | ⟨-, h⟩ := g.append_cases tmpl payload tsNs epoch lsn
    · rw [h]
    · rw [h]
      rfl
  have hsubmit : ∀ (g : GroupCommit) (be : IoBackend) now off,
      (g.maybeSubmit be now off 0 true).2.1.halted = g.halted := by
    intro g be now off
    obtain h | ⟨st, -, h⟩ | ⟨-, -, h⟩ | ⟨-, -, h⟩ := g.maybeSubmit_cases be now off 0 true
    · rw [h]
    · rw [h]
    · rw [h]
      rfl
    · rw [h]
      rfl
  have hto : ∀ epoch, (w.appendTo epoch tmpl payload tsNs).2.halted = w.halted := by
    intro epoch
    have hfirst := hpush w.group epoch (w.lastLsn + 1)
    unfold appendTo halted
    dsimp only
    generalize w.group.append tmpl payload tsNs epoch (w.lastLsn + 1) = r at hfirst ⊢
    obtain ⟨st | a, g⟩ := r
    · dsimp only at hfirst ⊢
      split_ifs with hfull
      · have hsub := hsubmit g w.backend tsNs.toNat w.segOffset
        generalize g.maybeSubmit w.backend tsNs.toNat w.segOffset 0 true = r at hsub ⊢
        obtain ⟨st' | padded, g', be⟩ := r
        · exact congrArg (w.haltedFlag || ·) (hsub.trans hfirst)
        · dsimp only at hsub ⊢
          split_ifs
          · have hretry := hpush g' epoch (w.lastLsn + 1)
            generalize g'.append tmpl payload tsNs epoch (w.lastLsn + 1) = r at hretry ⊢
            obtain ⟨st' | a, g''⟩ := r <;>
              exact congrArg (w.haltedFlag || ·) (hretry.trans (hsub.trans hfirst))
          · exact congrArg (w.haltedFlag || ·) (hsub.trans hfirst)
      · exact congrArg (w.haltedFlag || ·) hfirst
    · exact congrArg (w.haltedFlag || ·) hfirst
  unfold append
  split
  · rfl
  · split_ifs
    · rfl
    · exact hto _

/-- A running group takes a record that can be held or is full, and refuses any other. -/
theorem append_group_answer {g : GroupCommit} (hinit : g.initialized = true)
    (hrun : g.halted = false) (tmpl : UInt16) (payload : Bytes) (tsNs : UInt64) (epoch : UInt32)
    (lsn : ℕ) :
    Holdable payload ∧ ((g.append tmpl payload tsNs epoch lsn).1 = .ok ⟨lsn, payload⟩ ∨
        (g.append tmpl payload tsNs epoch lsn).1 = .error (.fail .walFull)) ∨
      ¬ Holdable payload ∧ (g.append tmpl payload tsNs epoch lsn).1 =
        .error (.fail .outOfRange) := by
  unfold GroupCommit.append Holdable
  rw [if_neg (by simp [hrun]), if_neg (by simp [hinit])]
  split_ifs with hmax hgroup hbuf hroom
  · exact .inr ⟨by omega, rfl⟩
  · exact .inr ⟨by omega, rfl⟩
  · exact .inl ⟨by omega, .inr rfl⟩
  · exact .inl ⟨by omega, .inr rfl⟩
  · exact .inl ⟨by omega, .inl rfl⟩

/-- On an open log that has not halted, `append` takes a record that can be held or answers
`WalFull`, and refuses any other for another reason. -/
theorem append_answer (hopen : w.segment ≠ none) (hinit : w.group.initialized = true)
    (hrun : w.halted = false) (tmpl : UInt16) (payload : Bytes) (tsNs : UInt64) :
    Holdable payload ∧ ((w.append tmpl payload tsNs).1 = .ok ⟨w.lastLsn + 1, payload⟩ ∨
        (w.append tmpl payload tsNs).1 = .error (.fail .walFull)) ∨
      ¬ Holdable payload ∧ (w.append tmpl payload tsNs).1 = .error (.fail .outOfRange) := by
  obtain ⟨hflag, hg⟩ : w.haltedFlag = false ∧ w.group.halted = false :=
    Bool.or_eq_false_iff.mp hrun
  unfold append
  cases hseg : w.segment with
  | none => exact absurd hseg hopen
  | some seg =>
    have hfirst := append_group_answer hinit hg tmpl payload tsNs seg.epoch (w.lastLsn + 1)
    dsimp only
    rw [if_neg (by simp [hflag])]
    unfold appendTo
    dsimp only
    generalize w.group.append tmpl payload tsNs seg.epoch (w.lastLsn + 1) = r at hfirst ⊢
    obtain ⟨st | a, g⟩ := r
    · obtain ⟨hhold, h | h⟩ | ⟨hhold, h⟩ := hfirst
      · cases h
      · cases h
        -- the group is full: it is submitted, and the record goes into the next if that works
        refine .inl ⟨hhold, ?_⟩
        dsimp only
        rw [if_pos (show (Status.fail .walFull).code = .walFull from rfl)]
        generalize g.maybeSubmit w.backend tsNs.toNat w.segOffset 0 true = r
        obtain ⟨st | padded, g', be⟩ := r
        · exact .inr rfl
        · dsimp only
          split_ifs
          · obtain ⟨st, h, -⟩ | ⟨-, h⟩ :=
              g'.append_cases tmpl payload tsNs seg.epoch (w.lastLsn + 1)
            · rw [h]
              exact .inr rfl
            · rw [h]
              exact .inl rfl
          · exact .inr rfl
      · cases h
        -- no group can hold the record, so nothing is tried
        refine .inr ⟨hhold, ?_⟩
        dsimp only
        rw [if_neg (by decide)]
    · obtain ⟨hhold, h | h⟩ | ⟨hhold, h⟩ := hfirst
      · exact .inl ⟨hhold, .inl h⟩
      · cases h
      · cases h

/-- What an append answers, and the record it adds. -/
theorem step_append (hopen : w.segment ≠ none) (hinit : w.group.initialized = true)
    (hrun : w.halted = false) (tmpl : UInt16) (payload : Bytes) (tsNs : UInt64) :
    Holdable payload ∧ ((w.step (.append tmpl payload tsNs)).1 = .kOk ∧
        w.logged (.append tmpl payload tsNs) = [⟨w.lastLsn + 1, tsNs, tmpl, payload⟩] ∨
        (w.step (.append tmpl payload tsNs)).1 = .fail .walFull ∧
        w.logged (.append tmpl payload tsNs) = []) ∨
      ¬ Holdable payload ∧ (w.step (.append tmpl payload tsNs)).1 = .fail .outOfRange ∧
        w.logged (.append tmpl payload tsNs) = [] := by
  have hanswer := append_answer hopen hinit hrun tmpl payload tsNs
  simp only [step, logged]
  generalize w.append tmpl payload tsNs = r at hanswer ⊢
  obtain ⟨st | a, w'⟩ := r
  · obtain ⟨hhold, h | h⟩ | ⟨hhold, h⟩ := hanswer
    · cases h
    · cases h
      exact .inl ⟨hhold, .inr ⟨rfl, rfl⟩⟩
    · cases h
      exact .inr ⟨hhold, rfl, rfl⟩
  · obtain ⟨hhold, h | h⟩ | ⟨-, h⟩ := hanswer
    · cases h
      exact .inl ⟨hhold, .inl ⟨rfl, rfl⟩⟩
    · cases h
    · cases h

/-! ### A timed or a forced submit -/

/-- The group is refused for want of room exactly when it is due and there is none. -/
theorem maybeSubmit_walFull_iff {g : GroupCommit} (hinit : g.initialized = true) (be : IoBackend)
    (now off : ℕ) (force : Bool) :
    (∃ st, (g.maybeSubmit be now off 0 force).1 = .error st ∧ st.code = .walFull) ↔
      g.halted = false ∧ 0 < g.curLen ∧
        (force = true ∨ g.curDeadlineNs ≤ now ∨ kMaxGroupBytes ≤ g.curLen) ∧
        (kMaxInflight ≤ g.inflightCount ∨ (be.script.answer be.submits).code = .walFull) := by
  unfold GroupCommit.maybeSubmit
  have hdue : ¬ ((!force) = true ∧ now < g.curDeadlineNs ∧ g.curLen < kMaxGroupBytes) →
      force = true ∨ g.curDeadlineNs ≤ now ∨ kMaxGroupBytes ≤ g.curLen := by
    intro hearly
    cases force with
    | true => exact .inl rfl
    | false =>
      simp only [Bool.not_false, true_and] at hearly
      omega
  cases hrun : g.halted with
  | true => simp [Status.fail]
  | false =>
    rw [if_neg (by simp), if_neg (by simp [hinit])]
    split_ifs with hempty hearly hfull
    · simp [hempty]
    -- not due yet, so nothing is asked of the backend
    · obtain ⟨hforce, hlt, hroom⟩ := hearly
      have hforce : force = false := by simpa using hforce
      simp only [hforce, false_and, exists_false, Bool.false_eq_true, false_or, false_iff]
      omega
    -- every slot is in flight: the writer answers for itself
    · exact iff_of_true ⟨_, rfl, rfl⟩ ⟨rfl, by omega, hdue hearly, .inl hfull⟩
    -- a slot is free, so the answer is that of the backend
    · have hanswer : (be.submit (g.request off 0)).1 = be.script.answer be.submits := by
        unfold IoBackend.submit
        dsimp only
        split_ifs <;> rfl
      dsimp only
      rw [hanswer]
      by_cases hok : (be.script.answer be.submits).isOk
      · have hcode : (be.script.answer be.submits).code = .ok := of_decide_eq_true hok
        rw [if_pos hok, hcode]
        simp [hfull]
      · rw [if_neg hok]
        constructor
        · rintro ⟨st, hst, hfull'⟩
          exact ⟨rfl, by omega, hdue hearly, .inr (Except.error.inj hst ▸ hfull')⟩
        · rintro ⟨-, -, -, h | h⟩
          · exact absurd h hfull
          · exact ⟨_, rfl, h⟩

/-- A timed or forced submit of an open log meets `WalFull` exactly when it is blocked, and then
the log halts. -/
theorem submitGroup_walFull_iff (hinit : w.group.initialized = true) (hflag : w.haltedFlag = false)
    (now : ℕ) (force : Bool) :
    (w.submitGroup now force).1.code = .walFull ↔ w.Due now force ∧ w.NoRoom := by
  have hhalted : w.halted = w.group.halted := by rw [halted, hflag, Bool.false_or]
  unfold Due NoRoom
  rw [hhalted, and_assoc, and_assoc,
    ← maybeSubmit_walFull_iff hinit w.backend now w.segOffset force]
  unfold submitGroup
  generalize w.group.maybeSubmit w.backend now w.segOffset 0 force = r
  obtain ⟨st | padded, g, be⟩ := r
  · simp
  · simp [Status.kOk]

theorem reap_code_ne (w : WalT) : w.reap.1.code ≠ .walFull := by
  have hgroup : ∀ g : GroupCommit, (g.reap w.backend).1.code ≠ .walFull := by
    intro g
    unfold GroupCommit.reap
    split_ifs
    · exact nofun
    · dsimp only
      rcases GroupCommit.advance _ _ with ⟨_ | _, g'⟩
      · exact nofun
      · dsimp only
        split_ifs <;> exact nofun
  unfold reap
  split_ifs
  · exact nofun
  · dsimp only
    split_ifs
    · exact nofun
    · exact hgroup w.group

/-- A timed or forced submit meets `WalFull` exactly when it is blocked, and then the log halts. -/
theorem step_walFull_iff (hopen : w.segment ≠ none) (hinit : w.group.initialized = true)
    {op : WalOp} (hop : ∀ tmpl payload tsNs, op ≠ .append tmpl payload tsNs) :
    ((w.step op).1.code = .walFull ↔ w.Blocked op) ∧
      (w.Blocked op → (w.step op).2.halted = true) := by
  -- a submit that meets `WalFull` has failed, and a failed submit halts the log
  have hsubmit : ∀ now force, w.haltedFlag = false → (w.submitGroup now force).1.code = .walFull →
      (w.submitGroup now force).2.halted = true := fun now force hflag hcode =>
    w.halted_of_submitGroup (by simp [Status.isOk, hcode])
  have hstopped : w.haltedFlag ∨ w.segment = none → w.halted = true := fun hstop => by
    simp [halted, hstop.resolve_right hopen]
  cases op with
  | append tmpl payload tsNs => exact absurd rfl (hop tmpl payload tsNs)
  | reap => exact ⟨iff_of_false w.reap_code_ne not_false, fun h => absurd h not_false⟩
  | maybeSubmit now =>
    simp only [step, maybeSubmit, Blocked]
    by_cases hstop : w.haltedFlag ∨ w.segment = none
    · rw [if_pos hstop]
      refine ⟨iff_of_false (by simp [Status.fail]) fun h => ?_, fun h => hstopped hstop⟩
      exact absurd (hstopped hstop) (by simp [h.1.1])
    · have hflag : w.haltedFlag = false := by simpa using (not_or.mp hstop).1
      rw [if_neg hstop]
      have hiff := submitGroup_walFull_iff hinit hflag now false
      exact ⟨hiff, fun h => hsubmit now false hflag (hiff.mpr h)⟩
  | forceCommit now =>
    simp only [step, forceCommit, Blocked]
    by_cases hstop : w.haltedFlag ∨ w.segment = none
    · rw [if_pos hstop]
      refine ⟨iff_of_false (by simp [Status.fail]) fun h => ?_, fun h => hstopped hstop⟩
      exact absurd (hstopped hstop) (by simp [h.1.1])
    · have hflag : w.haltedFlag = false := by simpa using (not_or.mp hstop).1
      rw [if_neg hstop]
      have hiff := submitGroup_walFull_iff hinit hflag now true
      split_ifs with hok
      · have hcode : (w.submitGroup now true).1.code = .ok := of_decide_eq_true hok
        -- the submit went through, so a slot was free
        have hroom : ¬ (w.Due now true ∧ w.NoRoom) := fun h => by
          simp [hcode] at hiff
          exact hiff h.1 h.2
        exact ⟨iff_of_false (reap_code_ne _) hroom, fun h => absurd h hroom⟩
      · exact ⟨hiff, fun h => hsubmit now true hflag (hiff.mpr h)⟩

/-- A call that meets `WalFull` and is not blocked is an append, and the log goes on. -/
theorem halted_of_walFull (hopen : w.segment ≠ none) (hinit : w.group.initialized = true)
    {op : WalOp} (hcode : (w.step op).1.code = .walFull) (hroom : ¬ w.Blocked op) :
    (w.step op).2.halted = w.halted := by
  by_cases hop : ∀ tmpl payload tsNs, op ≠ .append tmpl payload tsNs
  · exact absurd ((step_walFull_iff hopen hinit hop).1.mp hcode) hroom
  · push Not at hop
    obtain ⟨tmpl, payload, tsNs, rfl⟩ := hop
    have hstep : (w.step (.append tmpl payload tsNs)).2 = (w.append tmpl payload tsNs).2 := by
      simp only [step]
      rcases w.append tmpl payload tsNs with ⟨_ | _, w'⟩ <;> rfl
    rw [hstep, halted_append]

/-! ### Runs -/

theorem not_halted_exec {ops : List WalOp} (h : (w.exec ops).1.halted = false) :
    w.halted = false := by
  by_contra hw
  have := exec_of_halted (Bool.eq_true_of_not_eq_false hw) ops
  rw [h] at this
  cases this

/-- On a log that never halts, the records appended are those of the calls that did not meet
`WalFull`. -/
theorem exec_log {ops : List WalOp} : ∀ {w : WalT}, w.segment ≠ none → w.group.initialized = true →
    (w.exec ops).1.halted = false → (w.exec ops).2 = logOf w.lastLsn (w.kept ops) := by
  induction ops with
  | nil => exact fun _ _ _ => rfl
  | cons op ops ih =>
    intro w hopen hinit hend
    have hrun : w.halted = false := @not_halted_exec _ (op :: ops) hend
    obtain ⟨hseg', hinit', hlsn'⟩ := (w.step_moves op).keeps
    have ih := ih (hseg' ▸ hopen) (hinit'.trans hinit) hend
    rw [hlsn'] at ih
    have hlog : (w.exec (op :: ops)).2 = w.logged op ++ ((w.step op).2.exec ops).2 := rfl
    have hkept : w.kept (op :: ops) = if (w.step op).1.code = .walFull then (w.step op).2.kept ops
      else op :: (w.step op).2.kept ops := rfl
    -- a call that is not an append adds nothing, whether it is kept or not
    have hother : (∀ lsn rest, logOf lsn (op :: rest) = logOf lsn rest) → w.logged op = [] →
        (w.exec (op :: ops)).2 = logOf w.lastLsn (w.kept (op :: ops)) := by
      intro hskip hnone
      rw [hlog, ih, hkept, hnone]
      split_ifs
      · rfl
      · rw [hskip]
        rfl
    cases op with
    | append tmpl payload tsNs =>
      rw [hlog, ih, hkept]
      obtain ⟨hhold, ⟨hst, hnew⟩ | ⟨hst, hnew⟩⟩ | ⟨hhold, hst, hnew⟩ :=
        step_append hopen hinit hrun tmpl payload tsNs
      · rw [hst, hnew, if_neg (by decide), logOf, if_pos hhold]
        rfl
      · rw [hst, hnew, if_pos (by decide)]
        rfl
      · rw [hst, hnew, if_neg (by decide), logOf, if_neg hhold]
        rfl
    | maybeSubmit now => exact hother (fun _ _ => rfl) rfl
    | reap => exact hother (fun _ _ => rfl) rfl
    | forceCommit now => exact hother (fun _ _ => rfl) rfl

theorem kept_eq_self {ops : List WalOp} : ∀ {w : WalT}, (∀ st ∈ w.answers ops, st.code ≠ .walFull) →
    w.kept ops = ops := by
  induction ops with
  | nil => exact fun _ => rfl
  | cons op ops ih =>
    intro w h
    rw [kept, if_neg (h _ List.mem_cons_self), ih fun st hst => h st (List.mem_cons_of_mem _ hst)]

theorem Unblocked.of_append {op : WalOp} {pre post : List WalOp} : ∀ {w : WalT},
    w.Unblocked (pre ++ op :: post) → ¬ (w.exec pre).1.Blocked op := by
  induction pre with
  | nil => exact fun h => h.1
  | cons p pre ih => exact fun h => ih h.2

/-- **Without a blocked submit, `WalFull` is transient.** A call that meets it does not halt the
log, consumes no LSN, and keeps the records written and the buffered ones; and a run of the other
calls alone, over any backend that never answers them with `WalFull`, writes and buffers the same
records under the same LSNs, as long as neither run halts. -/
theorem walFull_transient (sc : Script) (opts : WalOptions) (seg : Segment) (segOffset lastLsn : ℕ)
    (ops : List WalOp) (hroom : ((fresh sc).ready opts seg segOffset lastLsn).Unblocked ops) :
    let w₀ := (fresh sc).ready opts seg segOffset lastLsn
    let content := Content seg.epoch (effectiveBlock opts.blockSize.toNat) segOffset lastLsn
    (∀ pre op post, ops = pre ++ op :: post →
      let w := (w₀.exec pre).1
      let w' := (w.step op).2
      (w.step op).1.code = .walFull → w'.halted = w.halted ∧ w'.lastLsn = w.lastLsn ∧
        ∃ groups cur fin cur', content w (w₀.exec pre).2 groups cur ∧
          content w' (w₀.exec pre).2 (groups ++ fin) cur') ∧
    ∀ sc' : Script,
      let v₀ := (fresh sc').ready opts seg segOffset lastLsn
      let w := w₀.exec ops
      let v := v₀.exec (w₀.kept ops)
      (∀ st ∈ v₀.answers (w₀.kept ops), st.code ≠ .walFull) →
      w.1.halted = false → v.1.halted = false → v.2 = w.2 ∧ v.1.lastLsn = w.1.lastLsn ∧
        ∃ groups cur groups' cur', content w.1 w.2 groups cur ∧ content v.1 w.2 groups' cur' := by
  intro w₀ content
  have hkeeps : ∀ sc ops, _ := fun sc ops =>
    (((fresh sc).ready opts seg segOffset lastLsn).exec_moves ops).keeps
  have hcontent := fun sc ops => Content.exec sc opts seg segOffset lastLsn ops
  have hopen : some seg ≠ none := Option.some_ne_none seg
  constructor
  -- at the refusal: no record was logged, and the group is as it was or padded
  · intro pre op post hops w w' hcode
    obtain ⟨hseg, hinit, -⟩ := hkeeps sc pre
    obtain ⟨groups, cur, hpre⟩ := hcontent sc pre
    obtain ⟨fin, cur', hpost⟩ := hpre.moves (.effectiveBlock _) (w.step_moves op)
    have hnone : w.logged op = [] := logged_of_not_ok (by simp [Status.isOk, hcode])
    rw [hnone, List.append_nil] at hpost
    refine ⟨?_, ?_, groups, cur, fin, cur', hpre, hpost⟩
    · exact halted_of_walFull (hseg ▸ hopen) hinit hcode (Unblocked.of_append (hops ▸ hroom))
    · exact hpost.lastLsn.trans hpre.lastLsn.symm
  -- against the run without the refused calls: both logs hold the same appends
  · intro sc' v₀ w v hanswers hw hv
    have hlog : v.2 = w.2 := by
      have hlogw := @exec_log ops w₀ hopen rfl hw
      have hlogv := @exec_log (w₀.kept ops) v₀ hopen rfl hv
      rw [kept_eq_self hanswers] at hlogv
      exact hlogv.trans hlogw.symm
    obtain ⟨groups, cur, hcw⟩ := hcontent sc ops
    obtain ⟨groups', cur', hcv⟩ := hcontent sc' (w₀.kept ops)
    refine ⟨hlog, ?_, groups, cur, groups', cur', hcw, hlog ▸ hcv⟩
    rw [hcv.lastLsn, hcw.lastLsn, hlog]

/-- Eight groups in flight leave no buffer, and the ninth append meets `WalFull`. -/
theorem walFull_transient_ninth : ∃ w : WalT, (w.step (.append 1 [2] 0)).1.code = .walFull ∧
    (w.step (.append 1 [2] 0)).2.halted = w.halted ∧
      (w.step (.append 1 [2] 0)).2.lastLsn = w.lastLsn := by
  have h := (walFull_transient ⟨fun _ => .kOk, fun _ => []⟩ ⟨0, 0, 0, 4096⟩ ⟨1, 7, 0, 4096⟩ 4096 0
    ((List.replicate 8 [WalOp.append 1 [1] 0, .forceCommit 0]).flatten ++ [.append 1 [2] 0])
    (by decide +kernel)).1 (List.replicate 8 [WalOp.append 1 [1] 0, .forceCommit 0]).flatten
      (.append 1 [2] 0) [] rfl
  exact ⟨_, by decide +kernel, (h (by decide +kernel)).1, (h (by decide +kernel)).2.1⟩

/-- One record and a forced submit that the backend has no room for. -/
theorem not_forall_halted_of_walFull : ¬ ∀ (sc : Script) (opts : WalOptions) (seg : Segment)
    (segOffset lastLsn : ℕ) (ops : List WalOp) (op : WalOp),
    let w := (((fresh sc).ready opts seg segOffset lastLsn).exec ops).1
    (w.step op).1.code = .walFull → (w.step op).2.halted = w.halted := by
  intro h
  have := h ⟨fun _ => .fail .walFull, fun _ => []⟩ ⟨0, 0, 0, 4096⟩ ⟨1, 7, 0, 4096⟩ 4096 0
    [.append 1 [1] 0] (.forceCommit 0) (by decide +kernel)
  exact absurd this (by decide +kernel)

end WalT

end MotorRv
