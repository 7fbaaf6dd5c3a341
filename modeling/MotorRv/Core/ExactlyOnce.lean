import MotorRv.Core.Partition
import MotorRv.Core.Records
import MotorRv.Core.Replay
import MotorRv.Wal.Content

/-!
# Each frame once

The frames a partition pops are the records of its log, in order and numbered without a gap, and
its state is what applying these records one after another gives; whatever the log and the outbox
refuse, and whenever. Only a fatal answer breaks the correspondence, by one record, and it is the
last: the frame stays in the inbox, and the partition takes no other.

`Turned` lists what one turn of the loop can do, and `Tally` accounts for the turns made so far: the
frames that arrived are those popped, one that a fatal answer left, and those still in the inbox;
the records of the log are the frames taken, numbered from one on; the state is what `apply` makes
of these records. One lemma for each kind of turn, then the loop of a poll, then the run of arrivals
and polls.

A frame that the log refuses for want of room, or whose output would not fit, is not popped and
comes again at the next poll, so a refusal leaves no trace in the tally. The last section runs a
partition on concrete frames; its runs are checked by evaluation and serve other modules too.
-/

namespace MotorRv

open Lib

namespace Turn

/-- The frame of a turn that appended a record, with the event applied and its answer. -/
def took : Turn → Option (IngressFrame × EventView × Status)
  | .consumed f ev st => some (f, ev, st)
  | .stopped f ev st => some (f, ev, st)
  | _ => none

/-- The frame a turn popped. -/
def popped : Turn → Option IngressFrame
  | .consumed f _ _ => some f
  | _ => none

/-- The log or the outbox refused the frame. -/
def refuses : Turn → Bool
  | .outboxFull => true
  | .walFull _ => true
  | _ => false

end Turn

/-- The frames popped in some turns. -/
def popped (ts : List Turn) : List IngressFrame := ts.filterMap Turn.popped

/-- The frames taken, with their records and their answers. -/
def took (ts : List Turn) : List (IngressFrame × EventView × Status) := ts.filterMap Turn.took

/-- A poll counts the frames that it takes. -/
theorem aplicados_eq_length_popped (r : Polled) : r.aplicados = (popped r.turns).length := by
  rw [Polled.aplicados, popped]
  induction r.turns with
  | nil => rfl
  | cons t ts ih => cases t <;> simpa [List.countP_cons, List.filterMap_cons, Turn.consumes,
      Turn.popped] using ih

/-- The records appended. -/
def records (ts : List Turn) : List LogRecord := (took ts).map fun x => x.2.1

/-- The answers of `apply`. -/
def statuses (ts : List Turn) : List Status := (took ts).map fun x => x.2.2

/-- The turns of a run. -/
def turnsOf (rs : List Polled) : List Turn := rs.flatMap Polled.turns

/-- The record of a frame under an LSN. -/
def IngressFrame.record (f : IngressFrame) (lsn : ℕ) : LogRecord :=
  ⟨lsn, f.arrivalTsNs, f.tmpl, f.payload⟩

/-- The frame that carries an event. -/
def Event.frame (x : Event) (h : x.payload.2.length ≤ kMaxIngressPayload) : IngressFrame :=
  ⟨0, x.payload.1.id, x.payload.2, h⟩

namespace Partition

variable {p p' : Partition}

/-- What a turn can do. -/
inductive Turned (p : Partition) : Turn → Partition → Prop
  | idle (h : p.entrada.frames = []) : Turned p .idle p
  | outboxFull : Turned p .outboxFull p
  | walFull {st : Status} {w : WalT} (hlog : WalT.Moves p.diario [] w) :
      Turned p (.walFull st) { p with diario := w }
  | consumed {f : IngressFrame} {rest : List IngressFrame} {w : WalT} {st : Status} {e : Engine}
      (hframe : p.entrada.frames = f :: rest)
      (hlog : WalT.Moves p.diario [f.record (p.diario.lastLsn + 1)] w)
      (happly : apply ⟨p.estado, some p.saida⟩ (f.record (p.diario.lastLsn + 1)) = .ok (st, e))
      (hst : classify st ≠ .fatal) :
      Turned p (.consumed f (f.record (p.diario.lastLsn + 1)) st)
        { p with
          diario := w, estado := e.s, saida := e.outbox.getD p.saida
          entrada := ⟨rest⟩ }
  | stopped {f : IngressFrame} {rest : List IngressFrame} {w : WalT} {st : Status} {e : Engine}
      (hframe : p.entrada.frames = f :: rest)
      (hlog : WalT.Moves p.diario [f.record (p.diario.lastLsn + 1)] w)
      (happly : apply ⟨p.estado, some p.saida⟩ (f.record (p.diario.lastLsn + 1)) = .ok (st, e))
      (hst : classify st = .fatal) :
      Turned p (.stopped f (f.record (p.diario.lastLsn + 1)) st)
        (Partition.parar { p with diario := w, estado := e.s, saida := e.outbox.getD p.saida } st
          (p.diario.lastLsn + 1))

/-- An accepted record has the next LSN and the payload that was given. -/
theorem append_eq_ok {w w' : WalT} {tmpl : UInt16} {payload : Bytes} {tsNs : UInt64} {a : Appended}
    (h : w.append tmpl payload tsNs = (.ok a, w')) : a = ⟨w.lastLsn + 1, payload⟩ := by
  -- the answer is that of the group, at the first try or after a forced submit
  have hgroup : ∀ (g g' : GroupCommit) epoch, g.append tmpl payload tsNs epoch (w.lastLsn + 1) =
      (.ok a, g') → a = ⟨w.lastLsn + 1, payload⟩ := by
    intro g g' epoch hg
    obtain ⟨st, hg', -⟩ | ⟨-, hg'⟩ :=
      g.append_cases tmpl payload tsNs epoch (w.lastLsn + 1)
    · rw [hg'] at hg
      cases hg
    · rw [hg'] at hg
      cases hg
      rfl
  unfold WalT.append at h
  split at h
  · cases h
  · split_ifs at h
    · cases h
    · unfold WalT.appendTo at h
      dsimp only at h
      split at h
      · rename_i hg
        cases h
        exact hgroup _ _ _ hg
      · split_ifs at h
        · split at h
          · split_ifs at h
            · split at h
              · rename_i hg
                cases h
                exact hgroup _ _ _ hg
              · cases h
            · cases h
          · cases h
        · cases h

/-- What a turn can do. -/
theorem turn_cases {t : Turn} (h : p.turn = .ok (t, p')) : Turned p t p' := by
  unfold turn at h
  cases hframes : p.entrada.frames with
  | nil =>
    rw [Inbox.peek, hframes] at h
    cases h
    exact .idle hframes
  | cons f rest =>
    rw [Inbox.peek, hframes] at h
    dsimp only [List.head?_cons] at h
    have hmoves := p.diario.append_moves f.tmpl f.payload f.arrivalTsNs
    split_ifs at h with hroom
    · cases h
      exact .outboxFull
    · cases happend : p.diario.append f.tmpl f.payload f.arrivalTsNs with
      | mk r w =>
        rw [happend] at h hmoves
        cases r with
        | error st =>
          cases h
          exact .walFull hmoves
        | ok a =>
          obtain rfl := append_eq_ok happend
          obtain ⟨⟨st, e⟩, happly, h⟩ := except_bind_eq_ok.mp h
          dsimp only at h
          split_ifs at h with hst
          · cases h
            exact .stopped hframes hmoves happly hst
          · cases h
            have hpop : (p.entrada.pop : Inbox) =
              ⟨rest⟩ := by rw [Inbox.pop, hframes, List.tail_cons]
            rw [hpop]
            exact .consumed hframes hmoves happly hst

/-! ### Runs -/

/-- How the turns made so far, and the frames that arrived, account for the partition. -/
structure Tally (p₀ : Partition) (arrived : List IngressFrame) (ts : List Turn) (p : Partition) :
    Prop where
  log : WalT.Moves p₀.diario (records ts) p.diario
  frames : p₀.entrada.frames ++ arrived = popped ts ++ p.entrada.frames
  matched : ∀ x ∈ took ts, x.2.1 = x.1.record x.2.1.lsn
  applied : ∃ os : List Outbox, os.length = (records ts).length ∧
    applyAll p₀.estado (live ((records ts).zip os)) = .ok (statuses ts, p.estado)
  accepted : ∀ f ev st, Turn.consumed f ev st ∈ ts → classify st ≠ .fatal
  running : p.parado = false → (took ts).map Prod.fst = popped ts
  halted : p.parado = true → ∃ before f ev st, took ts = before ++ [(f, ev, st)] ∧
    classify st = .fatal ∧ (took ts).map Prod.fst = popped ts ++ [f]

section Append

variable {ts ts' : List Turn} {t : Turn}

theorem popped_append : popped (ts ++ ts') = popped ts ++ popped ts' := List.filterMap_append

theorem took_append : took (ts ++ ts') = took ts ++ took ts' := List.filterMap_append

theorem records_append : records (ts ++ ts') = records ts ++ records ts' := by
  rw [records, took_append, List.map_append]
  rfl

theorem statuses_append : statuses (ts ++ ts') = statuses ts ++ statuses ts' := by
  rw [statuses, took_append, List.map_append]
  rfl

end Append

variable {p₀ : Partition} {arrived : List IngressFrame} {ts : List Turn}

/-- Before the first poll nothing was taken. -/
theorem tally_start (hrun : p.parado = false) : Tally p [] [] p where
  log := .refl p.diario
  frames := List.append_nil _
  matched := nofun
  applied := ⟨[], rfl, rfl⟩
  accepted := nofun
  running := fun _ => rfl
  halted := fun h => absurd h (by simp [hrun])

/-- A turn that takes no frame changes nothing that is counted. -/
theorem Tally.skip {t : Turn} (h : Tally p₀ arrived ts p) (hlog : WalT.Moves p.diario [] p'.diario)
    (hentrada : p'.entrada = p.entrada) (hestado : p'.estado = p.estado)
    (hparado : p'.parado = p.parado) (htook : t.took = none) : Tally p₀ arrived (ts ++ [t]) p' := by
  have hnone : took [t] = [] := by simp [took, htook]
  have hpopped : popped [t] = [] := by
    cases t with
    | consumed f ev st => cases htook
    | _ => rfl
  have htook' : took (ts ++ [t]) = took ts := by rw [took_append, hnone, List.append_nil]
  have hpopped' : popped (ts ++ [t]) = popped ts := by rw [popped_append, hpopped, List.append_nil]
  have hrecords : records (ts ++ [t]) = records ts := by rw [records, htook', records]
  have hstatuses : statuses (ts ++ [t]) = statuses ts := by rw [statuses, htook', statuses]
  refine ⟨?_, ?_, ?_, ?_, ?_, ?_, ?_⟩
  · rw [hrecords, ← List.append_nil (records ts)]
    exact h.log.trans hlog
  · rw [hpopped', hentrada]
    exact h.frames
  · rw [htook']
    exact h.matched
  · rw [hrecords, hstatuses, hestado]
    exact h.applied
  · intro f ev st hmem
    obtain hmem | hmem := List.mem_append.mp hmem
    · exact h.accepted f ev st hmem
    · obtain rfl := List.mem_singleton.mp hmem
      cases htook
  · rw [htook', hpopped', hparado]
    exact h.running
  · rw [htook', hpopped', hparado]
    exact h.halted

/-- A record is appended and applied. -/
theorem Tally.take {f : IngressFrame} {w : WalT} {st : Status} {e : Engine} {t : Turn}
    (h : Tally p₀ arrived ts p) (hlog : WalT.Moves p.diario [f.record (p.diario.lastLsn + 1)] w)
    (happly : apply ⟨p.estado, some p.saida⟩ (f.record (p.diario.lastLsn + 1)) = .ok (st, e))
    (htook : t.took = some (f, f.record (p.diario.lastLsn + 1), st)) :
    WalT.Moves p₀.diario (records (ts ++ [t])) w ∧
      (∀ x ∈ took (ts ++ [t]), x.2.1 = x.1.record x.2.1.lsn) ∧
      ∃ os : List Outbox, os.length = (records (ts ++ [t])).length ∧
        applyAll p₀.estado (live ((records (ts ++ [t])).zip os)) =
          .ok (statuses (ts ++ [t]), e.s) := by
  have hone : took [t] = [(f, f.record (p.diario.lastLsn + 1), st)] := by simp [took, htook]
  have hrecords : records (ts ++ [t]) = records ts ++ [f.record (p.diario.lastLsn + 1)] := by
    rw [records_append, records, records, hone]
    rfl
  have hstatuses : statuses (ts ++ [t]) = statuses ts ++ [st] := by
    rw [statuses_append, statuses, statuses, hone]
    rfl
  obtain ⟨os, hlen, hrun⟩ := h.applied
  rw [hrecords, hstatuses]
  refine ⟨h.log.trans hlog, ?_, os ++ [p.saida], ?_, ?_⟩
  · intro x hx
    rw [took_append, hone] at hx
    obtain hx | hx := List.mem_append.mp hx
    · exact h.matched x hx
    · obtain rfl := List.mem_singleton.mp hx
      rfl
  · rw [List.length_append, List.length_append, hlen]
    rfl
  · have hzip : live ((records ts ++ [f.record (p.diario.lastLsn + 1)]).zip (os ++ [p.saida])) =
        live ((records ts).zip os) ++ [(f.record (p.diario.lastLsn + 1), some p.saida)] := by
      rw [List.zip_append hlen.symm, live, live, List.map_append]
      rfl
    rw [hzip]
    exact applyAll_snoc hrun happly

/-- One turn: a frame that is taken is logged and applied, and one that is refused stays. -/
theorem Tally.turn {t : Turn} (h : Tally p₀ arrived ts p) (hrun : p.parado = false)
    (ht : p.turn = .ok (t, p')) : Tally p₀ arrived (ts ++ [t]) p' ∧
      (t.consumes = true → p'.parado = false) := by
  cases turn_cases ht with
  | idle hempty => exact ⟨h.skip (.refl _) rfl rfl rfl rfl, nofun⟩
  | outboxFull => exact ⟨h.skip (.refl _) rfl rfl rfl rfl, nofun⟩
  | walFull hlog => exact ⟨h.skip hlog rfl rfl rfl rfl, nofun⟩
  | @consumed f rest w st e hframe hlog happly hst =>
    obtain ⟨hlog', hmatched, happlied⟩ := h.take (t := .consumed f _ st) hlog happly rfl
    refine ⟨⟨hlog', ?_, hmatched, happlied, ?_, fun _ => ?_, fun hp => ?_⟩, fun _ => hrun⟩
    · rw [popped_append, List.append_assoc, h.frames, hframe]
      rfl
    · intro f' ev' st' hmem
      obtain hmem | hmem := List.mem_append.mp hmem
      · exact h.accepted f' ev' st' hmem
      · cases List.mem_singleton.mp hmem
        exact hst
    · rw [took_append, popped_append, List.map_append, h.running hrun]
      rfl
    · exact absurd hp (by simp [hrun])
  | @stopped f rest w st e hframe hlog happly hst =>
    obtain ⟨hlog', hmatched, happlied⟩ := h.take (t := .stopped f _ st) hlog happly rfl
    refine ⟨⟨hlog', ?_, hmatched, happlied, ?_, nofun, fun _ => ?_⟩, nofun⟩
    · rw [popped_append, h.frames]
      exact congrArg (· ++ _) (List.append_nil _).symm
    · intro f' ev' st' hmem
      obtain hmem | hmem := List.mem_append.mp hmem
      · exact h.accepted f' ev' st' hmem
      · cases List.mem_singleton.mp hmem
    · refine ⟨took ts, f, _, st, took_append, hst, ?_⟩
      rw [took_append, popped_append, List.map_append, h.running hrun]
      exact congrArg (· ++ _) (List.append_nil _).symm

/-- By induction on the turns of a poll. -/
theorem Tally.drain {n : ℕ} : ∀ {p p' : Partition} {ts ts' : List Turn}, Tally p₀ arrived ts p →
    p.parado = false → p.drain n = .ok (ts', p') → Tally p₀ arrived (ts ++ ts') p' := by
  induction n with
  | zero =>
    intro p p' ts ts' h _ hdrain
    cases hdrain
    rwa [List.append_nil]
  | succ n ih =>
    intro p p' ts ts' h hrun hdrain
    obtain ⟨⟨t, q⟩, ht, hdrain⟩ := except_bind_eq_ok.mp hdrain
    obtain ⟨hq, hrun'⟩ := h.turn hrun ht
    dsimp only at hdrain
    split_ifs at hdrain with hconsumes
    · obtain ⟨⟨ts'', q'⟩, hrest, hdrain⟩ := except_bind_eq_ok.mp hdrain
      cases hdrain
      have := ih hq (hrun' hconsumes) hrest
      rwa [List.append_assoc] at this
    · cases hdrain
      exact hq

/-- What follows the turns hands over records that are already counted. -/
theorem Tally.settle (h : Tally p₀ arrived ts p) (nowNs : ℕ) :
    Tally p₀ arrived ts (p.settle nowNs).2 := by
  have hsubmit := p.diario.step_moves (.maybeSubmit nowNs)
  have hreap := (p.diario.maybeSubmit nowNs).2.step_moves .reap
  have hlog : WalT.Moves p₀.diario (records ts ++ ([] ++ [])) (p.settle nowNs).2.diario :=
    h.log.trans (hsubmit.trans hreap)
  rw [List.append_nil, List.append_nil] at hlog
  exact ⟨hlog, h.frames, h.matched, h.applied, h.accepted, h.running, h.halted⟩

/-- A poll ends with a commit, which takes nothing. -/
theorem Tally.poll {r : Polled} {nowNs : ℕ} (h : Tally p₀ arrived ts p)
    (hpoll : p.poll nowNs = .ok (r, p')) : Tally p₀ arrived (ts ++ r.turns) p' := by
  obtain ⟨⟨turns, q⟩, hturns, hpoll⟩ := except_bind_eq_ok.mp hpoll
  cases hpoll
  have hq : Tally p₀ arrived (ts ++ turns) q := by
    unfold Partition.turns at hturns
    split_ifs at hturns with hparado
    · cases hturns
      rwa [List.append_nil]
    · exact h.drain (by simpa using hparado) hturns
  exact hq.settle nowNs

/-- The frames that are offered in a run. -/
def offered (is : List PartitionInput) : List IngressFrame :=
  is.filterMap fun i => match i with
    | .arrive f => some f
    | .poll _ => none

/-- A frame that arrives goes behind the others, if it is accepted. -/
theorem Tally.arrive (h : Tally p₀ arrived ts p) (f : IngressFrame) :
    Tally p₀ (arrived ++ if p.entrada.claim then [f] else []) ts (p.arrive f) := by
  unfold Partition.arrive
  split_ifs
  · refine ⟨h.log, ?_, h.matched, h.applied, h.accepted, h.running, h.halted⟩
    rw [← List.append_assoc, h.frames, List.append_assoc]
    rfl
  · rwa [List.append_nil]

/-- By induction on the arrivals and polls. -/
theorem Tally.exec {is : List PartitionInput} : ∀ {p p' : Partition} {arrived : List IngressFrame}
    {ts : List Turn} {rs : List Polled}, Tally p₀ arrived ts p → p.exec is = .ok (rs, p') →
    ∃ more, more.Sublist (offered is) ∧ Tally p₀ (arrived ++ more) (ts ++ turnsOf rs) p' := by
  induction is with
  | nil =>
    intro p p' arrived ts rs h hexec
    cases hexec
    exact ⟨[], .slnil, by simpa [turnsOf] using h⟩
  | cons i is ih =>
    intro p p' arrived ts rs h hexec
    cases i with
    | arrive f =>
      obtain ⟨more, hsub, hp'⟩ := ih (h.arrive f) hexec
      refine ⟨(if p.entrada.claim then [f] else []) ++ more, ?_, by rwa [← List.append_assoc]⟩
      have hoffered : offered (.arrive f :: is) = [f] ++ offered is := rfl
      rw [hoffered]
      refine List.Sublist.append ?_ hsub
      split_ifs
      · exact .refl _
      · exact List.nil_sublist _
    | poll nowNs =>
      obtain ⟨⟨r, q⟩, hpoll, hexec⟩ := except_bind_eq_ok.mp hexec
      obtain ⟨⟨rs', q'⟩, hrest, hexec⟩ := except_bind_eq_ok.mp hexec
      cases hexec
      obtain ⟨more, hsub, hp'⟩ := ih (h.poll hpoll) hrest
      refine ⟨more, hsub, ?_⟩
      rwa [List.append_assoc] at hp'

/-- **Exactly once.** In every run of a partition over an open log, whatever the backend answers
and however long the outbox has no room: the log is the records of the frames popped, in order and
numbered on from the first LSN, and the state is what applying these records gives, each once. A
fatal answer adds one record, whose frame stays, and after it nothing is popped or appended. A turn
that the outbox or the log refuses leaves the inbox, the outbox, the records, the last LSN and the
state as they were. -/
theorem polled_exactly_once (sc : Script) (opts : WalOptions) (seg : Segment)
    (segOffset lastLsn : ℕ)
    (estado : PartitionState) (entrada : Inbox) (saida : Outbox) (is : List PartitionInput)
    {rs : List Polled} {p : Partition}
    (hrun : (start estado
      ((WalT.fresh sc).ready opts seg segOffset lastLsn) entrada saida).exec is =
      .ok (rs, p)) :
    let ts := turnsOf rs
    (∃ groups cur, Content seg.epoch
      (effectiveBlock opts.blockSize.toNat) segOffset lastLsn p.diario
      (records ts) groups cur) ∧
    (∀ x ∈ took ts, x.2.1 = x.1.record x.2.1.lsn) ∧
    (∃ arrived, arrived.Sublist (offered is) ∧
      entrada.frames ++ arrived = popped ts ++ p.entrada.frames) ∧
    (∃ os : List Outbox, os.length = (records ts).length ∧
      applyAll estado (live ((records ts).zip os)) = .ok (statuses ts, p.estado)) ∧
    (∀ f ev st, Turn.consumed f ev st ∈ ts → classify st ≠ .fatal) ∧
    (p.parado = false → (took ts).map Prod.fst = popped ts) ∧
    (p.parado = true → ∃ before f ev st, took ts = before ++ [(f, ev, st)] ∧
      classify st = .fatal ∧ (took ts).map Prod.fst = popped ts ++ [f]) ∧
    (∀ q t q' f ev st, Partition.turn q = .ok (t, q') → t.took = some (f, ev, st) →
      WalT.Moves q.diario [ev] q'.diario ∧
        ∃ e, apply ⟨q.estado, some q.saida⟩ ev = .ok (st, e) ∧ q'.estado = e.s) ∧
    (∀ q t q', Partition.turn q = .ok (t, q') → t.refuses = true → q'.entrada = q.entrada ∧
      q'.saida = q.saida ∧ q'.estado = q.estado ∧ q'.diario.lastLsn = q.diario.lastLsn ∧
      WalT.Moves q.diario [] q'.diario) ∧
    (∀ r ∈ rs, r.aplicados = (popped r.turns).length) := by
  intro ts
  -- what the parties did is tallied turn by turn; the rest reads the tally
  obtain ⟨arrived, hsub, h⟩ := (tally_start (p := start estado _ entrada saida) rfl).exec hrun
  rw [List.nil_append, List.nil_append] at h
  obtain ⟨fin, cur, hcontent⟩ :=
    (Content.ready sc opts seg segOffset lastLsn).moves (.effectiveBlock _) h.log
  refine ⟨⟨_, cur, hcontent⟩, h.matched, ⟨arrived, hsub, h.frames⟩, h.applied, h.accepted,
    h.running, h.halted, fun q t q' f ev st ht htook => ?_, fun q t q' ht hrefuses => ?_,
    fun r _ => aplicados_eq_length_popped r⟩
  · cases turn_cases ht with
    | idle => cases htook
    | outboxFull => cases htook
    | walFull hlog => cases htook
    | consumed hframe hlog happly hst =>
      cases htook
      exact ⟨hlog, _, happly, rfl⟩
    | stopped hframe hlog happly hst =>
      cases htook
      exact ⟨hlog, _, happly, rfl⟩
  · cases turn_cases ht with
    | idle => cases hrefuses
    | outboxFull => exact ⟨rfl, rfl, rfl, rfl, .refl _⟩
    | walFull hlog => exact ⟨rfl, rfl, rfl, hlog.keeps.2.2, hlog⟩
    | consumed => cases hrefuses
    | stopped => cases hrefuses

/-! ### Checked runs -/

/-- A run over the initial state; what it did and where it ended are checked together. -/
def checked (c : PartitionCapacity) (p₀ : PartitionState → Partition) (is : List PartitionInput)
    (R : PartitionState → Arena → List Polled → Partition → Bool) : Exec Bool := do
  let x ← PartitionState.blank.init ⟨2 ^ 16, 0, false, false⟩ 1 c
  let y ← (p₀ x.2.1).exec is
  .ok (x.1 && R x.2.1 x.2.2 y.1 y.2)

/-- A run that is computed, as a run that exists. -/
theorem exists_of_checked {c : PartitionCapacity} {p₀ : PartitionState → Partition}
    {is : List PartitionInput} {R : PartitionState → Arena → List Polled → Partition → Bool}
    (h : checked c p₀ is R = .ok true) : ∃ s₀ arena₀ rs p,
      PartitionState.blank.init ⟨2 ^ 16, 0, false, false⟩ 1 c = .ok (true, s₀, arena₀) ∧
      (p₀ s₀).exec is = .ok (rs, p) ∧ R s₀ arena₀ rs p = true := by
  simp only [checked, bind, except_bind_eq_ok] at h
  obtain ⟨⟨ok, s₀, arena₀⟩, hinit, ⟨rs, p⟩, hrun, h⟩ := h
  obtain ⟨rfl, hR⟩ := Bool.and_eq_true_iff.mp (Except.ok.inj h)
  exact ⟨s₀, arena₀, rs, p, hinit, hrun, hR⟩

/-- An instrument, a day and a purchase arrive. -/
def purchaseArrives : List PartitionInput :=
  [.arrive ((Event.closingPriceSet quoted).frame (by decide)),
    .arrive ((Event.dayOpened firstDay).frame (by decide)),
    .arrive ((Event.tradeExecuted boughtOne).frame (by decide))]

/-- A frame that no template can be decoded from. -/
def undecodable : IngressFrame := ⟨5, 8, [1, 2, 3], by decide⟩

/-- Behind them a frame that cannot be decoded, and three `poll`s. -/
def undecodableBehind : List PartitionInput :=
  purchaseArrives ++ [.arrive undecodable, .poll 0, .poll 1, .poll 2]

/-- A partition whose outbox has room for one event only, over a backend that completes the first
write at the second harvest. -/
def narrow (s₀ : PartitionState) : Partition :=
  start s₀ ((WalT.fresh ⟨fun _ => .kOk, fun n => if n = 1 then [(0, 4096)] else []⟩).ready
    ⟨0, 0, 0, 4096⟩ ⟨1, 7, 0, 4096⟩ 4096 0) Inbox.empty (Outbox.fresh 4 256)

/-- The purchase leaves an output behind, and until it is released the last frame is refused, twice.
Then it is appended, answered with a rejection, and popped. -/
theorem polled_exactly_once_refused : ∃ s₀ arena₀ rs p,
    PartitionState.blank.init ⟨2 ^ 16, 0, false, false⟩ 1 ⟨2, 2, 2, 2, 2, 2, 2, 2, 60⟩ =
      .ok (true, s₀, arena₀) ∧
    (narrow s₀).exec undecodableBehind = .ok (rs, p) ∧ rs.map Polled.aplicados = [3, 0, 1] ∧
    (turnsOf rs).countP Turn.refuses = 2 ∧ (popped (turnsOf rs)).length = 4 ∧
    (took (turnsOf rs)).map Prod.fst = popped (turnsOf rs) := by
  obtain ⟨s₀, arena₀, rs, p, hinit, hrun, hend⟩ := @exists_of_checked
    ⟨2, 2, 2, 2, 2, 2, 2, 2, 60⟩ narrow undecodableBehind
    (fun _ _ rs p => decide (rs.map Polled.aplicados = [3, 0, 1] ∧
      (turnsOf rs).countP Turn.refuses = 2 ∧ (popped (turnsOf rs)).length = 4 ∧ p.parado = false))
    (by decide +kernel)
  obtain ⟨happlied, hrefused, hfour, hparado⟩ := of_decide_eq_true hend
  exact ⟨s₀, arena₀, rs, p, hinit, hrun, happlied, hrefused, hfour,
    (polled_exactly_once _ _ _ _ _ _ _ _ _ hrun).2.2.2.2.2.1 hparado⟩

end Partition

end MotorRv
