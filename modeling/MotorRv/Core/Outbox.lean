import MotorRv.Base.Arena
import MotorRv.Lib.Bytes
import MotorRv.Lib.Ring

/-!
# The outbox

The one way out of the core: a ring of entries and a circular payload buffer. Offsets are 32-bit
numbers and their sums wrap; a copy that would leave the buffer is an abort.

An entry is the LSN of its event, a kind, and a span of the buffer; the payload is copied when it is
staged and read by the publisher when it is released. `stage` follows the code in the order of its
tests, with 32-bit sums, and `place` is the choice of the span. What `ready` releases is the longest
prefix of the pending entries whose LSN is durable, and nothing once the outbox is frozen, which it
is for good.

`hasRoom` is asked before an event is applied, with the worst that an event can produce; whether
what it has seen suffices is a question about spans, answered where the outbox is shown to be a
queue.
-/

namespace MotorRv

open Lib

inductive OutKind
  | readModelUpdate
  | partitionMessage
  | confirmation
  | audit
  | exception
  deriving DecidableEq, Repr

structure OutboxEntry where
  lsn : ℕ
  offset : ℕ
  len : ℕ
  kind : OutKind
  deriving DecidableEq

structure Outbox where
  slots : List OutboxEntry
  buf : Bytes
  bufHead : ℕ
  head : ℕ
  count : ℕ
  stagedTotal : ℕ
  releasedTotal : ℕ
  frozen : Bool

namespace Outbox

/-- A sum of 32-bit numbers. -/
def add32 (a b : ℕ) : ℕ := (a + b) % 2 ^ 32

/-- An outbox as `init` leaves it, with `n` slots; the slots are not cleared, and none is read
before it is written. -/
def fresh (n payloadBytes : ℕ) : Outbox where
  slots := List.replicate n ⟨0, 0, 0, .readModelUpdate⟩
  buf := List.replicate payloadBytes 0
  bufHead := 0
  head := 0
  count := 0
  stagedTotal := 0
  releasedTotal := 0
  frozen := false

/-- The number of slots: the first power of two from 16 on that is enough. Past `2 ^ 31` the
doubling never ends. -/
def ringSlots (slots : ℕ) : Option ℕ :=
  ((List.range 28).map fun k => 16 * 2 ^ k).find? fun n => decide (slots ≤ n)

/-- `init`: both arrays are requested before either answer is looked at. -/
def init (a : Arena) (slots payloadBytes : UInt32) : Exec (Option Outbox × Arena) :=
  match ringSlots slots.toNat with
  | none => .error .endlessLoop
  | some n =>
    match a.allocAll [(16 * n, 8), (payloadBytes.toNat, 1)] with
    | (true, a') => .ok (some (fresh n payloadBytes.toNat), a')
    | (false, a') => .ok (none, a')

/-- The pending entries, oldest first. -/
def pendingEntries (o : Outbox) : List OutboxEntry := (o.slots.rotate o.head).take o.count

/-- The offset of the oldest pending payload. -/
def live (o : Outbox) : ℕ := (o.slots.getD o.head ⟨0, 0, 0, .readModelUpdate⟩).offset

/-- Where a payload of `len` bytes goes, or that there is no room for it. -/
def place (o : Outbox) (len : ℕ) : Except Status ℕ :=
  if o.count = 0 then .ok 0
  else if o.live ≤ o.bufHead then
    if o.buf.length < add32 o.bufHead len then
      if o.live < len then .error (.fail .arenaExhausted (UInt32.ofNat len)) else .ok 0
    else .ok o.bufHead
  else if o.live < add32 o.bufHead len then .error (.fail .arenaExhausted (UInt32.ofNat len))
  else .ok o.bufHead

/-- `stage`: the entry is queued behind the others, or the outbox is left as it was. A length is
taken as a 32-bit number, and stored in 16 bits. -/
def stage (o : Outbox) (lsn : ℕ) (kind : OutKind) (payload : Bytes) : Exec (Status × Outbox) :=
  let len := payload.length % 2 ^ 32
  if o.slots.length ≤ o.count then .ok (.fail .arenaExhausted (UInt32.ofNat o.count), o)
  else if o.buf.length < len then .ok (.fail .outOfRange (UInt32.ofNat len), o)
  else
    match o.place len with
    | .error st => .ok (st, o)
    | .ok at_ =>
      if o.buf.length < at_ + len then .error .outOfBounds
      else
        .ok (.kOk, { o with
          buf := writeAt o.buf at_ (payload.take len)
          slots := o.slots.set ((o.head + o.count) % o.slots.length)
            ⟨lsn, at_, len % 2 ^ 16, kind⟩
          bufHead := add32 at_ len
          count := o.count + 1
          stagedTotal := o.stagedTotal + 1 })

/-- The only way to abort is a copy past the end of the buffer. -/
theorem stage_eq_error {o : Outbox} {lsn : ℕ} {kind : OutKind} {payload : Bytes} {d : Abort}
    (h : o.stage lsn kind payload = .error d) : d = .outOfBounds := by
  unfold stage at h
  dsimp only at h
  split_ifs at h
  split at h
  · cases h
  · split_ifs at h
    exact (Except.error.inj h).symm

/-- The bytes of an entry. -/
def payload (o : Outbox) (e : OutboxEntry) : Bytes := slice o.buf e.offset e.len

/-- Room for that many entries and bytes, in the worst case. -/
def hasRoom (o : Outbox) (entries bytes : ℕ) : Bool :=
  if o.slots.length < add32 o.count entries then false
  else if o.buf.length < bytes then false
  else if o.count = 0 then true
  else
    let free :=
      if o.live ≤ o.bufHead then
        if o.live < o.buf.length - o.bufHead then o.buf.length - o.bufHead else o.live
      else o.live - o.bufHead
    decide (bytes ≤ free)

/-- The longest prefix with `lsn ≤ durable`; nothing once frozen. -/
def ready (o : Outbox) (durable : ℕ) : ℕ :=
  if o.frozen then 0 else (o.pendingEntries.takeWhile fun e => decide (e.lsn ≤ durable)).length

def commit (o : Outbox) (n : ℕ) : Outbox :=
  { o with
    head := (o.head + min n o.count) % o.slots.length
    count := o.count - min n o.count
    releasedTotal := o.releasedTotal + min n o.count }

def freeze (o : Outbox) : Outbox := { o with frozen := true }

end Outbox

end MotorRv
