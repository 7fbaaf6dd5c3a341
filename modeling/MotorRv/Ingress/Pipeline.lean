import MotorRv.Codec.Events
import MotorRv.Core.Inbox

/-!
# Framing and routing

The pipeline cuts a stream of bytes into messages and puts each one into the inbox of its partition,
or into all inboxes. What has arrived of the next message waits at the front of a buffer of fixed
size; behind it stand the bytes of earlier messages, which nothing clears. A message whose inbox is
full stays where it is.

The consumers pop while `feed` runs. Which of them pop before which turn of its loop is a parameter:
a pop after the claim of a slot changes nothing that the producer reads, so no other moment matters.

The frame of a message carries what the partition needs to log it: the payload, the template, and a
time of arrival, which is that of the call. Events that concern everybody are broadcast, and then
either all inboxes have room, or none receives anything and the message stays where it is, to be
tried again.

Errors in a header do not stop the pipeline: bytes that cannot be a message are dropped with
everything behind them in the buffer (`discard`), since there is no way to find the next header. The
counters are natural numbers; nothing depends on their wrap.
-/

namespace MotorRv

open Lib

def kSchemaId : UInt16 := 1
def kSchemaVersion : UInt16 := 1

/-- The header of a message on the wire. -/
structure SbeMessageHeader where
  blockLength : UInt16
  templateId : UInt16
  schemaId : UInt16
  version : UInt16

/-- `sizeof(SbeMessageHeader)`. -/
def kSbeHeaderBytes : ℕ := 8

def SbeMessageHeader.ofBytes (b : Bytes) : SbeMessageHeader where
  blockLength := u16At b 0
  templateId := u16At b 2
  schemaId := u16At b 4
  version := u16At b 6

/-- `Partitioner::of`, with `n` partitions: the mask has 32 bits, the result 16. -/
def partitionOf (n : ℕ) (doc : UInt64) : UInt16 :=
  (mix64 doc &&& (UInt32.ofNat n - 1).toUInt64).toUInt16

structure IngressStats where
  bytesReceived : ℕ
  eventsReceived : ℕ
  eventsRouted : ℕ
  eventsBroadcast : ℕ
  backpressureStalls : ℕ
  parseErrors : ℕ
  deriving DecidableEq

def IngressStats.zero : IngressStats := ⟨0, 0, 0, 0, 0, 0⟩

/-- `IngressPipeline::kMaxPartitions`. -/
def kMaxPartitions : ℕ := 64

/-- `IngressPipeline::kBufferSize`. -/
def kIngressBufferSize : ℕ := 64 * 1024

/-- An inbox may be missing; none is used twice. -/
structure IngressPipeline where
  inboxes : List (Option Inbox)
  buffer : Bytes
  buffered : ℕ
  stats : IngressStats

/-! ### Routing -/

/-- The templates that go to all partitions. -/
def Tmpl.isBroadcast : Tmpl → Bool
  | .dayOpened | .closingPriceSet | .custodyReconciled | .eodMarked => true
  | _ => false

/-- Where the document that decides the partition stands in the payload; of an allocation it is the
account that receives. -/
def Tmpl.docOffset : Tmpl → Option ℕ
  | .tradeExecuted => some 16
  | .tradeAllocated => some 24
  | .batchNetted | .tradeSettled | .corporateActionApplied | .dividendPaid => some 8
  | _ => none

/-- The document of a message; what is read is not checked against the length of its block. -/
def docOf (t : Tmpl) (payload : Bytes) : UInt64 :=
  match t.docOffset with
  | some off => u64At payload off
  | none => 0

/-- The first inbox without a free slot. -/
def firstFull (inboxes : List (Option Inbox)) : Option ℕ :=
  inboxes.findIdx? fun q => match q with
    | some q => !q.claim
    | none => false

namespace IngressPipeline

/-- A pipeline over the given inboxes. There is room for `kMaxPartitions`; with more than that the
source goes on counting them and reads past its arrays, which the model does not follow. -/
def init (inboxes : List (Option Inbox)) : IngressPipeline where
  inboxes := inboxes.take kMaxPartitions
  buffer := List.replicate kIngressBufferSize 0
  buffered := 0
  stats := .zero

/-- The bytes that have not been dispatched. -/
def pending (p : IngressPipeline) : Bytes := p.buffer.take p.buffered

def count (f : IngressStats → IngressStats) (p : IngressPipeline) : IngressPipeline :=
  { p with stats := f p.stats }

/-- A field of the message could not be used. -/
def countError : IngressPipeline → IngressPipeline :=
  count fun s => { s with parseErrors := s.parseErrors + 1 }

def countStall : IngressPipeline → IngressPipeline :=
  count fun s => { s with backpressureStalls := s.backpressureStalls + 1 }

/-- All inboxes get the frame, or, when one of them is full, none. -/
def broadcast (p : IngressPipeline) (f : IngressFrame) : Status × IngressPipeline :=
  match firstFull p.inboxes with
  | some i => (.fail .wouldBlock (UInt32.ofNat i), p.countStall)
  | none =>
    (.kOk, count (fun s => { s with eventsBroadcast := s.eventsBroadcast + 1 })
      { p with inboxes := p.inboxes.map (Option.map fun q => q.publish f) })

/-- The inbox of one partition gets the frame. -/
def route (p : IngressPipeline) (f : IngressFrame) (i : UInt16) : Status × IngressPipeline :=
  match p.inboxes[i.toNat]? with
  | some (some q) =>
    if q.claim then
      (.kOk, count (fun s => { s with eventsRouted := s.eventsRouted + 1 })
        { p with inboxes := p.inboxes.set i.toNat (some (q.publish f)) })
    else (.fail .wouldBlock i.toUInt32, p.countStall)
  | _ => (.fail .outOfRange i.toUInt32, p.countError)

/-- `route_and_dispatch`; `payload` is what stands in the buffer from the payload on. -/
def routeAndDispatch (p : IngressPipeline) (f : IngressFrame) (payload : Bytes) :
    Status × IngressPipeline :=
  match Tmpl.ofId f.tmpl.toNat with
  | none => (.fail .unknownTemplate f.tmpl.toUInt32, p.countError)
  | some t =>
    if t.isBroadcast then p.broadcast f
    else p.route f (partitionOf p.inboxes.length (docOf t payload))

/-! ### Framing -/

/-- The frame of a message at the front of the buffer. -/
def frameAt (p : IngressPipeline) (hdr : SbeMessageHeader) (nowNs : UInt64)
    (h : hdr.blockLength.toNat ≤ kMaxIngressPayload) : IngressFrame where
  arrivalTsNs := nowNs
  tmpl := hdr.templateId
  payload := slice p.buffer kSbeHeaderBytes hdr.blockLength.toNat
  len_le := (List.length_take_le _ _).trans h

/-- Slide the consumed bytes out of the buffer. -/
def consume (p : IngressPipeline) (n : ℕ) : IngressPipeline :=
  { p with
    buffer := writeAt p.buffer 0 (slice p.buffer n (p.buffered - n))
    buffered := p.buffered - n }

/-- Everything that is buffered is dropped. -/
def discard (p : IngressPipeline) : IngressPipeline := { p.countError with buffered := 0 }

/-- How a turn of the loop ends. -/
inductive FeedTurn
  /-- Less than one message is buffered. -/
  | waits
  /-- `feed` returns at once. -/
  | returns (st : Status)
  /-- A message was consumed, with this answer. -/
  | consumed (st : Status)

/-- One turn of the loop of `feed`. -/
def turn (p : IngressPipeline) (nowNs : UInt64) : FeedTurn × IngressPipeline :=
  if p.buffered < kSbeHeaderBytes then (.waits, p)
  else
    let hdr := SbeMessageHeader.ofBytes p.buffer
    if hdr.schemaId ≠ kSchemaId ∨ hdr.version ≠ kSchemaVersion then
      (.returns (.fail .unknownTemplate hdr.templateId.toUInt32), p.discard)
    else if h : hdr.blockLength.toNat ≤ kMaxIngressPayload then
      if p.buffered < kSbeHeaderBytes + hdr.blockLength.toNat then (.waits, p)
      else
        match p.routeAndDispatch (p.frameAt hdr nowNs h) (p.buffer.drop kSbeHeaderBytes) with
        | (st, p') =>
          -- the frame stays in the buffer, to be tried again
          if st.code = .wouldBlock then (.returns st, p')
          else
            (.consumed st, (count (fun s => { s with eventsReceived := s.eventsReceived + 1 })
              p').consume (kSbeHeaderBytes + hdr.blockLength.toNat))
    else (.returns (.fail .shortPayload hdr.blockLength.toUInt32), p.discard)

/-- Consumers pop, one after the other; what they find is returned with the number of the inbox. A
consumer that finds its inbox empty does nothing. -/
def popAll : List ℕ → List (Option Inbox) → List (ℕ × IngressFrame) × List (Option Inbox)
  | [], qs => ([], qs)
  | i :: is, qs =>
    match qs[i]? with
    | some (some q) =>
      match q.peek with
      | some f =>
        let (out, qs') := popAll is (qs.set i (some q.pop))
        ((i, f) :: out, qs')
      | none => popAll is qs
    | _ => popAll is qs

def pops (p : IngressPipeline) (is : List ℕ) : List (ℕ × IngressFrame) × IngressPipeline :=
  let (out, qs) := popAll is p.inboxes
  (out, { p with inboxes := qs })

/-- The loop of `feed`, with the consumers `env n` popping before turn `n`; it returns the last
error. Each turn but the last consumes a header. -/
def loop (env : ℕ → List ℕ) (nowNs : UInt64) : ℕ → Status → IngressPipeline →
    Status × List (ℕ × IngressFrame) × IngressPipeline
  | 0, last, p => (last, [], p)
  | n + 1, last, p =>
    let (out, p₁) := p.pops (env n)
    match p₁.turn nowNs with
    | (.waits, p₂) => (last, out, p₂)
    | (.returns st, p₂) => (st, out, p₂)
    | (.consumed st, p₂) =>
      let (st', out', p₃) := loop env nowNs n (if st.isOk then last else st) p₂
      (st', out ++ out', p₃)

/-- `feed`: a chunk that does not fit is refused. -/
def feed (p : IngressPipeline) (chunk : Bytes) (nowNs : UInt64) (env : ℕ → List ℕ) :
    Status × List (ℕ × IngressFrame) × IngressPipeline :=
  let p₀ := count (fun s => { s with bytesReceived := s.bytesReceived + chunk.length }) p
  if kIngressBufferSize < p.buffered + chunk.length then (.fail .outOfRange, [], p₀.countError)
  else
    let p₁ := { p₀ with
      buffer := writeAt p.buffer p.buffered chunk
      buffered := p.buffered + chunk.length }
    loop env nowNs (p₁.buffered / kSbeHeaderBytes + 1) .kOk p₁

end IngressPipeline

end MotorRv
