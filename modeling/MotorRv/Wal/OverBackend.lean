import MotorRv.Lib.Calls
import MotorRv.Wal.Durable
import MotorRv.Wal.UringBackend

/-!
# The log over a backend

`WalT` is a template over its backend. Here its calls are programs that call any backend; run on the
scripted backend they are the calls of the model, and run on a backend that keeps the contract they
give, in every run and whatever happens to the backend before each of its calls, the statuses and
the writer of the model under some script. What is proved of the log under every script, such as the
meaning of the durable LSN, thereby holds over the production backend.

A call of the log asks the backend a bounded number of times, and what it asks next depends on the
answers; `BackendCalls` is the tree of that. There is one lemma for each operation that running the
program over the scripted backend is the operation of the model (`run_step`), and from there on only
the answers matter, by the library on programs that call an object.

Things that happen to a backend by itself, such as a kernel that finishes a write, are put between
its calls by `timed`, which keeps the contract. The durable LSN of the last theorem is therefore
bounded by what the backend really gave, in terms of its own requests and answers.
-/

namespace MotorRv

open Lib

/-- The log without its backend. -/
structure Writer where
  segment : Option Segment
  group : GroupCommit
  segOffset : ℕ
  lastLsn : ℕ
  haltedFlag : Bool

abbrev Writer.withBackend (w : Writer) (be : IoBackend) : WalT :=
  ⟨w.segment, w.group, be, w.segOffset, w.lastLsn, w.haltedFlag⟩

def WalT.writer (w : WalT) : Writer := ⟨w.segment, w.group, w.segOffset, w.lastLsn, w.haltedFlag⟩

variable {σ κ β : Type}

/-- A program of the log: what it asks of the backend. -/
abbrev BackendCalls (κ β : Type) := Calls (BackendOp κ) BackendAnswer β

/-- Ask for a write. -/
def submitting (buf : ℕ) (req : WriteRequest) (next : Status → BackendCalls κ β) (other : β) :
    BackendCalls κ β :=
  .call (.submit buf req) fun
    | .status st => next st
    | _ => .ret other

/-- Ask for completions. -/
def reaping (next : List Completion → BackendCalls κ β) (other : β) : BackendCalls κ β :=
  .call (.reap kMaxInflight) fun
    | .completions cs => next cs
    | _ => .ret other

/-- A submission is answered by the backend. -/
theorem run_submitting (B : Backend σ κ) (s : σ) (buf : ℕ) (req : WriteRequest)
    (next : Status → BackendCalls κ β) (other : β) :
    (submitting buf req next other).run B.step s =
      (next (B.submit s buf req).1).run B.step (B.submit s buf req).2 := rfl

/-- A harvest is answered by the backend. -/
theorem run_reaping (B : Backend σ κ) (s : σ) (next : List Completion → BackendCalls κ β)
    (other : β) : (reaping next other).run B.step s =
      (next (B.reap s kMaxInflight).1).run B.step (B.reap s kMaxInflight).2 := rfl

/-! ### The calls -/

namespace GroupCommit

/-- `addr` says where the buffers are. -/
def maybeSubmitOn (addr : ℕ → ℕ) (g : GroupCommit) (nowNs fileOffset fileIdx : ℕ) (force : Bool) :
    BackendCalls κ (Except Status ℕ × GroupCommit) :=
  if g.halted then .ret (.error (.fail .ioError), g)
  else if !g.initialized then .ret (.error (.fail .invalidArgument), g)
  else if g.curLen = 0 then .ret (.ok 0, g)
  else if !force ∧ nowNs < g.curDeadlineNs ∧ g.curLen < kMaxGroupBytes then .ret (.ok 0, g)
  else if kMaxInflight ≤ g.inflightCount then .ret (.error (.fail .walFull), g)
  else
    submitting (addr g.curBufIdx) (g.request fileOffset fileIdx)
      (fun st => .ret (if st.isOk then (.ok (padToBlock g.curLen g.blockSize), g.padBuffer.launch)
        else (.error st, g.padBuffer))) (.ok 0, g)

def reapOn (g : GroupCommit) : BackendCalls κ (Status × GroupCommit) :=
  if !g.initialized then .ret (.fail .invalidArgument, g)
  else
    reaping (fun cs =>
      let g := cs.foldl noteCompletion g
      match advance g.inflightCount g with
      | (true, g) => .ret (if g.halted then .fail .ioError else .kOk, g)
      | (false, g) => .ret (.fail .ioError, g)) (.kOk, g)

end GroupCommit

namespace Writer

/-- The state after a group of the given padded size was handed over. -/
def afterSubmit (w : Writer) (g : GroupCommit) (padded : ℕ) : Writer :=
  { w with group := g, segOffset := w.segOffset + padded }

variable (addr : ℕ → ℕ)

/-- The full group goes first, to make room. -/
def appendTo (w : Writer) (epoch : UInt32) (tmpl : UInt16) (payload : Bytes) (tsNs : UInt64) :
    BackendCalls κ (Except Status Appended × Writer) :=
  let next := w.lastLsn + 1
  match w.group.append tmpl payload tsNs epoch next with
  | (.ok a, g) => .ret (.ok a, { w with group := g, lastLsn := next })
  | (.error st, g) =>
    if st.code = .walFull then
      (g.maybeSubmitOn addr tsNs.toNat w.segOffset 0 true).bind fun
        | (.ok padded, g) =>
          if 0 < padded then
            let w' := w.afterSubmit g padded
            match g.append tmpl payload tsNs epoch next with
            | (.ok a, g) => .ret (.ok a, { w' with group := g, lastLsn := next })
            | (.error _, g) => .ret (.error (.fail .walFull), { w' with group := g })
          else .ret (.error (.fail .walFull), { w with group := g })
        | (.error _, g) => .ret (.error (.fail .walFull), { w with group := g })
    else .ret (.error st, { w with group := g })

def append (w : Writer) (tmpl : UInt16) (payload : Bytes) (tsNs : UInt64) :
    BackendCalls κ (Except Status Appended × Writer) :=
  match w.segment with
  | none => .ret (.error (.fail .ioError), w)
  | some seg =>
    if w.haltedFlag then .ret (.error (.fail .ioError), w)
    else w.appendTo addr seg.epoch tmpl payload tsNs

def submitGroup (w : Writer) (nowNs : ℕ) (force : Bool) : BackendCalls κ (Status × Writer) :=
  (w.group.maybeSubmitOn addr nowNs w.segOffset 0 force).bind fun
    | (.ok padded, g) => .ret (.kOk, w.afterSubmit g padded)
    | (.error st, g) => .ret (st, { w with group := g, haltedFlag := true })

def maybeSubmit (w : Writer) (nowNs : ℕ) : BackendCalls κ (Status × Writer) :=
  if w.haltedFlag ∨ w.segment = none then .ret (.fail .ioError, w)
  else w.submitGroup addr nowNs false

def reap (w : Writer) : BackendCalls κ (Status × Writer) :=
  if w.haltedFlag ∨ w.segment = none then .ret (.fail .ioError, w)
  else
    w.group.reapOn.bind fun
      | (st, g) =>
        if st.isOk then .ret (.kOk, { w with group := g })
        else .ret (st, { w with group := g, haltedFlag := true })

def forceCommit (w : Writer) (nowNs : ℕ) : BackendCalls κ (Status × Writer) :=
  if w.haltedFlag ∨ w.segment = none then .ret (.fail .ioError, w)
  else
    (w.submitGroup addr nowNs true).bind fun
      | (st, w') => if st.isOk then w'.reap else .ret (st, w')

/-- One call: its status and the state it leaves. -/
def step (w : Writer) : WalOp → BackendCalls κ (Status × Writer)
  | .append tmpl payload tsNs => (w.append addr tmpl payload tsNs).bind fun
    | (.ok _, w') => .ret (.kOk, w')
    | (.error st, w') => .ret (st, w')
  | .maybeSubmit nowNs => w.maybeSubmit addr nowNs
  | .reap => w.reap
  | .forceCommit nowNs => w.forceCommit addr nowNs

/-- A run of calls: the statuses and the final state. -/
def exec (w : Writer) : List WalOp → BackendCalls κ (List Status × Writer)
  | [] => .ret ([], w)
  | op :: ops => (w.step addr op).bind fun
    | (st, w') => (w'.exec ops).bind fun
      | (sts, w'') => .ret (st :: sts, w'')

end Writer

/-! ### Over the scripted backend -/

/-- The result of a call, its backend apart. -/
def WalT.parts {α : Type} (r : α × WalT) : (α × Writer) × IoBackend :=
  ((r.1, r.2.writer), r.2.backend)

/-- Over the scripted backend the committer submits what the model submits. -/
theorem GroupCommit.run_maybeSubmitOn (addr : ℕ → ℕ) (g : GroupCommit) (be : IoBackend)
    (nowNs fileOffset fileIdx : ℕ) (force : Bool) :
    (g.maybeSubmitOn addr nowNs fileOffset fileIdx force).run (IoBackend.scripted κ).step be =
      (((g.maybeSubmit be nowNs fileOffset fileIdx force).1,
        (g.maybeSubmit be nowNs fileOffset fileIdx force).2.1),
          (g.maybeSubmit be nowNs fileOffset fileIdx force).2.2) := by
  unfold maybeSubmitOn maybeSubmit
  split_ifs
  · rfl
  · rfl
  · rfl
  · rfl
  · rfl
  · rw [run_submitting]
    cases hok : (be.submit (g.request fileOffset fileIdx)).1.isOk with
    | true => simp [IoBackend.scripted, hok]
    | false => simp [IoBackend.scripted, hok]

/-- Over the scripted backend the committer reaps what the model reaps. -/
theorem GroupCommit.run_reapOn (g : GroupCommit) (be : IoBackend) :
    g.reapOn.run (IoBackend.scripted κ).step be =
      (((g.reap be).1, (g.reap be).2.1), (g.reap be).2.2) := by
  unfold reapOn GroupCommit.reap
  split_ifs
  · rfl
  · rw [run_reaping]
    simp only [IoBackend.scripted]
    rcases advance _ _ with ⟨_ | _, g'⟩
    · rfl
    · rfl

namespace Writer

variable (addr : ℕ → ℕ) (be : IoBackend)

/-- The writer submits a group as the model does. -/
theorem run_submitGroup (w : Writer) (nowNs : ℕ) (force : Bool) :
    (w.submitGroup addr nowNs force).run (IoBackend.scripted κ).step be =
      WalT.parts ((w.withBackend be).submitGroup nowNs force) := by
  rw [submitGroup, Calls.run_bind, GroupCommit.run_maybeSubmitOn, WalT.submitGroup]
  simp only [withBackend]
  rcases w.group.maybeSubmit be nowNs w.segOffset 0 force with ⟨_ | _, g, be'⟩
  · rfl
  · rfl

theorem stopped_iff {w : Writer} :
    (w.withBackend be).haltedFlag = true ∨ (w.withBackend be).segment = none ↔
      w.haltedFlag = true ∨ w.segment = none := Iff.rfl

/-- A log that is halted or not open asks nothing. -/
theorem run_stopped {w : Writer} (h : w.haltedFlag = true ∨ w.segment = none)
    (p : BackendCalls κ (Status × Writer)) (r : Status × WalT) :
    (if w.haltedFlag = true ∨ w.segment = none then .ret (.fail .ioError, w) else p).run
        (IoBackend.scripted κ).step be =
      WalT.parts (if (w.withBackend be).haltedFlag = true ∨ (w.withBackend be).segment = none then
        (.fail .ioError, w.withBackend be) else r) := by
  rw [if_pos h, if_pos ((stopped_iff be).mpr h)]
  rfl

/-- The writer reaps as the model does. -/
theorem run_reap (w : Writer) :
    w.reap.run (IoBackend.scripted κ).step be = WalT.parts (w.withBackend be).reap := by
  unfold Writer.reap WalT.reap
  by_cases h : w.haltedFlag = true ∨ w.segment = none
  · exact run_stopped be h _ _
  · rw [if_neg h, if_neg (mt (stopped_iff be).mp h),
      Calls.run_bind, GroupCommit.run_reapOn]
    dsimp only
    by_cases hok : (w.group.reap be).1.isOk = true
    · simp only [if_pos hok]
      rfl
    · simp only [if_neg hok]
      rfl

/-- The writer appends as the model does. -/
theorem run_appendTo (w : Writer) (epoch : UInt32) (tmpl : UInt16) (payload : Bytes)
    (tsNs : UInt64) : (w.appendTo addr epoch tmpl payload tsNs).run (IoBackend.scripted κ).step be =
      WalT.parts ((w.withBackend be).appendTo epoch tmpl payload tsNs) := by
  unfold Writer.appendTo WalT.appendTo
  simp only [withBackend]
  rcases w.group.append tmpl payload tsNs epoch (w.lastLsn + 1) with ⟨st | a, g⟩
  · dsimp only
    split_ifs
    · rw [Calls.run_bind, GroupCommit.run_maybeSubmitOn]
      rcases g.maybeSubmit be tsNs.toNat w.segOffset 0 true with ⟨_ | padded, g', be'⟩
      · rfl
      · dsimp only
        split_ifs
        · rcases g'.append tmpl payload tsNs epoch (w.lastLsn + 1) with ⟨_ | _, g''⟩
          · rfl
          · rfl
        · rfl
    · rfl
  · rfl

/-- Each operation of the writer is that of the model. -/
theorem run_step (w : Writer) (op : WalOp) :
    (w.step addr op).run (IoBackend.scripted κ).step be =
    WalT.parts ((w.withBackend be).step op) := by
  cases op with
  | append tmpl payload tsNs =>
    simp only [step, WalT.step, Writer.append, WalT.append, Calls.run_bind]
    cases w.segment with
    | none => rfl
    | some seg =>
      dsimp only
      split_ifs
      · rfl
      · rw [run_appendTo]
        rcases (w.withBackend be).appendTo seg.epoch tmpl payload tsNs with ⟨_ | _, w'⟩
        · rfl
        · rfl
  | maybeSubmit nowNs =>
    simp only [step, WalT.step, Writer.maybeSubmit, WalT.maybeSubmit]
    by_cases h : w.haltedFlag = true ∨ w.segment = none
    · exact run_stopped be h _ _
    · rw [if_neg h, if_neg (mt (stopped_iff be).mp h),
        run_submitGroup]
  | reap => exact run_reap be w
  | forceCommit nowNs =>
    simp only [step, WalT.step, Writer.forceCommit, WalT.forceCommit]
    by_cases h : w.haltedFlag = true ∨ w.segment = none
    · exact run_stopped be h _ _
    · rw [if_neg h, if_neg (mt (stopped_iff be).mp h),
        Calls.run_bind, run_submitGroup]
      rcases (w.withBackend be).submitGroup nowNs true with ⟨st, w'⟩
      -- after the submit both look at its answer, and then collect
      show (if st.isOk = true then w'.writer.reap else .ret (st, w'.writer)).run
        (IoBackend.scripted κ).step w'.backend =
          WalT.parts (if st.isOk = true then w'.reap else (st, w'))
      by_cases hok : st.isOk = true
      · rw [if_pos hok, if_pos hok]
        exact run_reap w'.backend w'.writer
      · rw [if_neg hok, if_neg hok]
        rfl

/-- By induction on the operations. -/
theorem run_exec : ∀ (ops : List WalOp) (w : Writer) (be : IoBackend),
    (w.exec addr ops).run (IoBackend.scripted κ).step be =
      WalT.parts (runOps WalT.step (w.withBackend be) ops)
  | [], _, _ => rfl
  | op :: ops, w, be => by
    rw [exec, Calls.run_bind, run_step, runOps]
    rcases (w.withBackend be).step op with ⟨st, w'⟩
    dsimp only [WalT.parts]
    rw [Calls.run_bind, run_exec ops w'.writer w'.backend]
    rfl

end Writer

/-! ### What happens between the calls -/

namespace Backend

/-- The events before the next call happen. -/
def pass (B : Backend σ κ) (s : σ × List (List κ)) : σ × List (List κ) :=
  ((s.2.headD []).foldl B.own s.1, s.2.tail)

/-- A backend to which the events of a list happen, call by call. -/
def timed (B : Backend σ κ) : Backend (σ × List (List κ)) Empty where
  submit s buf req :=
    ((B.submit (B.pass s).1 buf req).1, (B.submit (B.pass s).1 buf req).2, (B.pass s).2)
  reap s room := ((B.reap (B.pass s).1 room).1, (B.reap (B.pass s).1 room).2, (B.pass s).2)
  inflight s := B.inflight s.1
  own s _ := s

/-- What happens to a backend between its calls keeps its contract. -/
theorem Bag.pass {B : Backend σ κ} {room : ℕ → Prop} {R : σ → Multiset InFlight → Prop}
    (h : B.Bag room R) {m : Multiset InFlight} (s : σ × List (List κ)) (hs : R s.1 m) :
    R (B.pass s).1 m := by
  unfold Backend.pass
  generalize s.2.headD [] = ks
  induction ks generalizing s with
  | nil => exact hs
  | cons k ks ih => exact ih (B.own s.1 k, s.2) (h.own k hs)

/-- A backend with events between its calls keeps the contract of the backend. -/
theorem Bag.timed {B : Backend σ κ} {room : ℕ → Prop} {R : σ → Multiset InFlight → Prop}
    (h : B.Bag room R) : B.timed.Bag room fun s m => R s.1 m where
  submit {s _} buf req hs hroom := h.submit buf req (h.pass s hs) hroom
  reap {s _} n hs := h.reap n (h.pass s hs)
  inflight hs := h.inflight hs
  own _ hs := hs

end Backend

/-! ### The log over a backend -/

/-- The writes that were accepted, in order. -/
def handedOver : List (BackendOp κ) → List BackendAnswer → List WriteRequest
  | .submit _ req :: ops, .status st :: as =>
    if st.isOk then req :: handedOver ops as else handedOver ops as
  | _ :: ops, _ :: as => handedOver ops as
  | _, _ => []

/-- The completions that were given, in order. -/
def completed : List BackendAnswer → List Completion
  | .completions cs :: as => cs ++ completed as
  | _ :: as => completed as
  | [] => []

/-- The scripted backend records what it accepted and what it gave. -/
theorem recorded (ops : List (BackendOp κ)) : ∀ be : IoBackend,
    (runOps (IoBackend.scripted κ).step be ops).2.accepted =
        be.accepted ++ handedOver ops (runOps (IoBackend.scripted κ).step be ops).1 ∧
      (runOps (IoBackend.scripted κ).step be ops).2.delivered =
        be.delivered ++ completed (runOps (IoBackend.scripted κ).step be ops).1 := by
  induction ops with
  | nil => exact fun be => ⟨(List.append_nil _).symm, (List.append_nil _).symm⟩
  | cons o ops ih =>
    intro be
    rw [runOps]
    obtain ⟨hacc, hdel⟩ := ih ((IoBackend.scripted κ).step be o).2
    cases o with
    | submit buf req =>
      rw [hacc, hdel]
      simp only [Backend.step, IoBackend.scripted, handedOver, completed]
      cases hok : (be.submit req).1.isOk with
      | true =>
        rw [IoBackend.submit_of_isOk hok]
        simp
      | false =>
        rw [IoBackend.submit_of_not_isOk hok]
        simp
    | reap n =>
      rw [hacc, hdel]
      simp only [Backend.step, IoBackend.scripted, handedOver, completed, ← List.append_assoc]
      exact ⟨rfl, rfl⟩
    | inflight | own => exact ⟨hacc, hdel⟩

/-- The writer that `open` leaves does not depend on the script. -/
theorem open_script {sc₀ : Script} {opts : WalOptions} {drawn : UInt32} {tail : Option WalTail}
    {file : Option Bytes} {w₀ : WalT} {b : Bytes}
    (h : (WalT.fresh sc₀).open opts drawn tail file = .ok (w₀, b)) (sc : Script) :
    (WalT.fresh sc).open opts drawn tail file = .ok (w₀.writer.withBackend (.start sc), b) := by
  unfold WalT.open at h ⊢
  split at h
  · split_ifs at h ⊢
    · split at h
      · cases h
      · unfold WalT.openResume at h ⊢
        split at h
        · cases h
        · obtain ⟨rfl, rfl⟩ := Prod.mk.inj (Except.ok.inj h)
          rfl
    · obtain ⟨rfl, rfl⟩ := Prod.mk.inj (Except.ok.inj h)
      rfl
  · obtain ⟨rfl, rfl⟩ := Prod.mk.inj (Except.ok.inj h)
    rfl

/-- The two ways of running the model end in the same state. -/
theorem WalT.runOps_step : ∀ (ops : List WalOp) (w : WalT),
    (runOps WalT.step w ops).2 = (w.exec ops).1
  | [], _ => rfl
  | op :: ops, w => by
    rw [runOps, WalT.exec, runOps_step ops]

/-- **The log over a backend.** Over any backend that keeps the contract, whatever happens to it
before each call, a run of calls on an open log gives the statuses and the writer that the model
gives under some script, whose backend accepted and gave what the backend did; so the durable LSN
never passes the last LSN of the longest prefix of the accepted groups whose completions were given
and good. -/
theorem log_over_backend {B : Backend σ κ} {R : σ → Multiset InFlight → Prop}
    (hB : B.Bag (fun _ => True) R) {s : σ} (hs : R s 0) (events : List (List κ)) (addr : ℕ → ℕ)
    {sc₀ : Script} {opts : WalOptions} {drawn : UInt32} {tail : Option WalTail}
    {file : Option Bytes} {w₀ : WalT} {b : Bytes}
    (hopen : (WalT.fresh sc₀).open opts drawn tail file = .ok (w₀, b)) (ops : List WalOp) :
    let run := (w₀.writer.exec addr ops).run B.timed.step (s, events)
    let asked := (w₀.writer.exec addr ops).asked B.timed.step (s, events)
    let answers := (runOps B.timed.step (s, events) asked).1
    (∃ sc w, (WalT.fresh sc).open opts drawn tail file = .ok (w, b) ∧
      run.1.1 = (runOps WalT.step w ops).1 ∧ run.1.2 = (runOps WalT.step w ops).2.writer ∧
      (runOps WalT.step w ops).2.backend.accepted = handedOver asked answers ∧
      (runOps WalT.step w ops).2.backend.delivered = completed answers) ∧
    run.1.2.group.durableLsn ≤
      lastToken (okPrefix (handedOver asked answers) (completed answers)) 0 := by
  intro run asked answers
  have hclient : (backendContract Empty (fun _ => True)).Asked 0 asked answers := by
    refine Contract.asked_of_forall (fun m o => ?_) asked answers 0
    cases o <;> exact trivial
  -- the script is read off the answers of the backend
  obtain ⟨sc, hsc⟩ := hB.timed.scripted (s := (s, events)) hs hclient
  obtain ⟨hrun, hasked⟩ := Calls.run_eq_of_answers (w₀.writer.exec addr ops) (s, events)
    (IoBackend.start sc) hsc.symm
  have hmodel := Writer.run_exec (κ := Empty) addr ops w₀.writer (.start sc)
  have hopen' := open_script hopen sc
  set w := w₀.writer.withBackend (.start sc)
  have hstate := Calls.run_state (IoBackend.scripted Empty).step (w₀.writer.exec addr ops)
    (.start sc)
  rw [hasked, hmodel] at hstate
  obtain ⟨hacc, hdel⟩ := recorded asked (.start sc)
  rw [← hstate, ← hsc] at hacc hdel
  rw [hmodel] at hrun
  have hpair : run.1 = ((runOps WalT.step w ops).1, (runOps WalT.step w ops).2.writer) := hrun.symm
  refine ⟨⟨sc, w, hopen', congrArg Prod.fst hpair, congrArg Prod.snd hpair, hacc, hdel⟩, ?_⟩
  -- the bound is the one of the model, under that script
  obtain ⟨done, queue, hfifo⟩ := WalT.exists_fifo hopen' ops
  rw [← WalT.runOps_step] at hfifo
  have hle := hfifo.durable_le_okPrefix
  have hacc' : (runOps WalT.step w ops).2.backend.accepted = handedOver asked answers := hacc
  have hdel' : (runOps WalT.step w ops).2.backend.delivered = completed answers := hdel
  rw [hacc', hdel'] at hle
  rw [show run.1.2 = (runOps WalT.step w ops).2.writer from congrArg Prod.snd hpair]
  exact hle

/-- Over the production backend: the group is durable once the kernel has given it back. -/
theorem log_over_backend_uring :
    let s := UringBackend.start ⟨fun _ => true, fun _ => 1, fun _ => some 1⟩ true
    let w₀ := ((WalT.fresh ⟨fun _ => .kOk, fun _ => []⟩).openCreate ⟨0, 0, 0, 512⟩ 7).1
    let events := [[], [], [UringBackend.KernelEvent.finish 0 512]]
    let p := w₀.writer.exec id [.append 1 [1] 0, .forceCommit 0, .reap]
    let asked := p.asked UringBackend.backend.timed.step (s, events)
    let answers := (runOps UringBackend.backend.timed.step (s, events) asked).1
    (p.run UringBackend.backend.timed.step (s, events)).1.2.group.durableLsn = 1 ∧
      1 ≤ lastToken (okPrefix (handedOver asked answers) (completed answers)) 0 := by
  intro s w₀ events p asked answers
  have h := log_over_backend (s := s) UringBackend.bag
    ⟨rfl, rfl, rfl, ⟨fun _ => Int.one_nonneg⟩⟩ events id
    (show (WalT.fresh ⟨fun _ => .kOk, fun _ => []⟩).open ⟨0, 0, 0, 512⟩ 7 none none = .ok (w₀, _)
      from rfl) [.append 1 [1] 0, .forceCommit 0, .reap]
  have hdurable : (p.run UringBackend.backend.timed.step (s, events)).1.2.group.durableLsn = 1 := by
    decide +kernel
  exact ⟨hdurable, hdurable ▸ h.2⟩

end MotorRv
