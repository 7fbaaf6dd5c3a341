import MotorRv.Lib.Bytes

/-!
# The inbox of a partition

A queue of frames between one producer and one consumer. Each side keeps a copy of the other's
cursor and reads it again before it reports full or empty, so what it reports is the truth: the
queue is a list with a bound.

Here the queue is used by a partition, which runs alone between two looks at its inbox, so a list
with a bound is a faithful picture; that the ring behind it behaves so under every interleaving of
its two sides is proved for the ring itself. A frame whose payload exceeds the slot cannot be built,
and claiming and publishing are two calls, as in the code, with nothing in between that could fail.
-/

namespace MotorRv

open Lib

def kMaxIngressPayload : ℕ := 496

/-- A frame: its length is that of its payload, which is at most that of the slot. -/
structure IngressFrame where
  arrivalTsNs : UInt64
  tmpl : UInt16
  payload : Bytes
  len_le : payload.length ≤ kMaxIngressPayload
  deriving DecidableEq

/-- The frames published and not yet popped, oldest first. -/
structure Inbox where
  frames : List IngressFrame
  deriving DecidableEq

namespace Inbox

/-- `Inbox`'s capacity. -/
def kCapacity : ℕ := 4096

def empty : Inbox := ⟨[]⟩

/-- `claim`: there is a free slot. -/
def claim (q : Inbox) : Bool := decide (q.frames.length < kCapacity)

/-- Write the claimed slot and publish it. -/
def publish (q : Inbox) (f : IngressFrame) : Inbox := ⟨q.frames ++ [f]⟩

def peek (q : Inbox) : Option IngressFrame := q.frames.head?

def pop (q : Inbox) : Inbox := ⟨q.frames.tail⟩

end Inbox

end MotorRv
