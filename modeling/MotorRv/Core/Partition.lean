import MotorRv.Core.Apply
import MotorRv.Core.Inbox
import MotorRv.Wal.Wal

/-!
# The partition loop

One turn of the loop takes the oldest frame of the inbox, if the outbox has room for what it may
produce: it is appended to the log, applied, and then popped. A refusal by the outbox or the log
ends the turn; a fatal answer of `apply` stops the partition. `poll` makes up to `kBatch` turns,
hands over the current group if its window has passed, harvests completions, and releases the
outputs that are durable.

The turns and the released entries are part of what `poll` returns here; the code returns the
number of frames applied, which is the number of turns that consumed one.

The log, the inbox and the outbox are fields of the partition, and a turn touches them in the order
of the code: look at the frame, look for room, append, apply, pop. Nothing is popped before it is
applied, and nothing is applied before it is in the log; a frame that is refused is found again at
the next turn.

`PartitionInput` is what happens to a partition from outside, frames that arrive and polls with the
time of the clock, and `exec` a whole run. Between two polls the producer may only add frames, and
the consumer of the outputs is the release at the end of a poll. `forceCommit` has its own module.
-/

namespace MotorRv

/-- What one turn of the loop did. -/
inductive Turn
  /-- There was nothing to do. -/
  | idle
  /-- The outbox has no room, and the frame stays. -/
  | outboxFull
  /-- The log refused the record, and the frame stays. -/
  | walFull (st : Status)
  | consumed (f : IngressFrame) (ev : EventView) (st : Status)
  /-- The answer of `apply` was fatal: the frame stays, and the partition stops. -/
  | stopped (f : IngressFrame) (ev : EventView) (st : Status)

def Turn.consumes : Turn → Bool
  | .consumed _ _ _ => true
  | _ => false

/-- What a `poll` did: its turns, and the entries it released. -/
structure Polled where
  turns : List Turn
  released : List OutboxEntry

/-- What `poll` returns: how many frames it applied. -/
def Polled.aplicados (r : Polled) : ℕ := r.turns.countP Turn.consumes

structure Partition where
  estado : PartitionState
  diario : WalT
  entrada : Inbox
  saida : Outbox
  motivo : Status
  lsnDaParada : ℕ
  publicados : ℕ
  parado : Bool

namespace Partition

def kBatch : ℕ := 256
def kMaxOutputsPerEvent : ℕ := 4
def kMaxOutputBytesPerEvent : ℕ := 256

/-- A partition that has not polled yet. -/
def start (estado : PartitionState) (diario : WalT) (entrada : Inbox) (saida : Outbox) :
    Partition where
  estado := estado
  diario := diario
  entrada := entrada
  saida := saida
  motivo := .kOk
  lsnDaParada := 0
  publicados := 0
  parado := false

/-- `parar_`: freezing the outbox keeps what a corrupted state produced from getting out. -/
def parar (p : Partition) (st : Status) (lsn : ℕ) : Partition :=
  { p with
    parado := true
    motivo := st
    lsnDaParada := lsn
    saida := p.saida.freeze }

/-- One turn of the loop. -/
def turn (p : Partition) : Exec (Turn × Partition) :=
  match p.entrada.peek with
  | none => .ok (.idle, p)
  | some f =>
    if !p.saida.hasRoom kMaxOutputsPerEvent kMaxOutputBytesPerEvent then .ok (.outboxFull, p)
    else
      -- the log has what arrived, accepted or not
      match p.diario.append f.tmpl f.payload f.arrivalTsNs with
      | (.error st, w) => .ok (.walFull st, { p with diario := w })
      | (.ok a, w) => do
        let ev : EventView := ⟨a.lsn, f.arrivalTsNs, f.tmpl, a.payload⟩
        let (st, e) ← apply ⟨p.estado, some p.saida⟩ ev
        let p' := { p with diario := w, estado := e.s, saida := e.outbox.getD p.saida }
        if classify st = .fatal then .ok (.stopped f ev st, p'.parar st a.lsn)
        else .ok (.consumed f ev st, { p' with entrada := p'.entrada.pop })

/-- Turn after turn, until one consumes nothing; at most so many. -/
def drain : ℕ → Partition → Exec (List Turn × Partition)
  | 0, p => .ok ([], p)
  | n + 1, p => do
    let (t, p') ← p.turn
    if t.consumes then
      let (ts, p'') ← drain n p'
      .ok (t :: ts, p'')
    else .ok ([t], p')

/-- `publicar_`: release what is durable. -/
def publicar (p : Partition) : List OutboxEntry × Partition :=
  let n := p.saida.ready p.diario.durableLsn
  (p.saida.pendingEntries.take n,
    { p with publicados := p.publicados + n, saida := p.saida.commit n })

/-- The end of a `poll`: hand over, harvest, release. The answers of the log are not looked at. -/
def settle (p : Partition) (nowNs : ℕ) : List OutboxEntry × Partition :=
  publicar { p with diario := (p.diario.maybeSubmit nowNs).2.reap.2 }

/-- The turns of one `poll`; a partition that has stopped takes none. -/
def turns (p : Partition) : Exec (List Turn × Partition) :=
  if p.parado then .ok ([], p) else p.drain kBatch

def poll (p : Partition) (nowNs : ℕ) : Exec (Polled × Partition) := do
  let (turns, p') ← p.turns
  let (released, p'') := p'.settle nowNs
  .ok (⟨turns, released⟩, p'')

/-- `force_commit`: hand over, harvest, release, with the answer of the hand-over. -/
def forceCommit (p : Partition) (nowNs : ℕ) : Status × List OutboxEntry × Partition :=
  let (st, w) := p.diario.maybeSubmit nowNs
  (st, publicar { p with diario := w.reap.2 })

end Partition

/-! ### Runs -/

/-- What happens to a partition: a frame arrives, unless the inbox is full, or it polls. -/
inductive PartitionInput
  | arrive (f : IngressFrame)
  | poll (nowNs : ℕ)

namespace Partition

def arrive (p : Partition) (f : IngressFrame) : Partition :=
  if p.entrada.claim then { p with entrada := p.entrada.publish f } else p

/-- A run, with what each `poll` did. -/
def exec : Partition → List PartitionInput → Exec (List Polled × Partition)
  | p, [] => .ok ([], p)
  | p, .arrive f :: is => (p.arrive f).exec is
  | p, .poll nowNs :: is => do
    let (r, p') ← p.poll nowNs
    let (rs, p'') ← p'.exec is
    .ok (r :: rs, p'')

end Partition

end MotorRv
