import MotorRv.Core.Records
import MotorRv.Ingress.Pipeline

/-!
# Framing loses, duplicates and reorders nothing

A stream of well-formed messages is cut into chunks anywhere, retried after backpressure and read by
consumers that pop whenever they like. At every moment there is a number `k` such that the bytes fed
are the first `k` messages and what is buffered, and every inbox has received the messages among
these that are routed to it (`Framed`). One turn of the loop of `feed` waits, answers `WouldBlock`
and changes nothing, or moves `k` by one for all inboxes at once (`turn_of_prefix`).

`Framed` is the invariant of whole runs and speaks of what has been fed and popped only; where the
bytes stand inside the buffer is left to `Sized` and `pending`. A call of `feed` is a loop, and
`Framed.loop` follows it turn by turn until it drains what is complete (`Drained`) or is stopped by
an inbox that is full (`Blocked`); the answer of the call tells which. `Feeding` generates the runs:
a chunk is fed with the consumers popping during the call, or the partitions pop between two calls.

Nothing is assumed of the chunks but that each fits into the buffer when it comes, and nothing of
the consumers. That the messages are well formed is assumed: what the pipeline does with others is
in its definition, not in this result.
-/

namespace MotorRv

open Lib

/-! ### Messages -/

/-- The fields of a header on the wire. -/
theorem SbeMessageHeader.ofBytes_of_holdsAt {len id schema version : UInt16} {b : Bytes}
    (h : HoldsAt b 0 (encU16 len ++ encU16 id ++ encU16 schema ++ encU16 version)) :
    SbeMessageHeader.ofBytes b = ⟨len, id, schema, version⟩ := by
  have hlen := h.left.left.left.slice_eq
  have hid := h.left.left.right.slice_eq
  have hs := h.left.right.slice_eq
  have hv := h.right.slice_eq
  simp only [length_encU16, List.length_append] at hlen hid hs hv
  simp only [SbeMessageHeader.ofBytes, u16At]
  rw [hlen, hid, hs, hv]
  simp only [decU16_encU16]

/-- A well-formed message: the length of its block is that of its template, save for the custody
report, whose length is that of its group. -/
structure Message where
  tmpl : Tmpl
  payload : Bytes
  len_ok : payload.length = tmpl.blockLength ∨
    tmpl = .custodyReconciled ∧ payload.length ≤ kMaxIngressPayload

namespace Message

def header (m : Message) : Bytes :=
  encU16 (UInt16.ofNat m.payload.length) ++ encU16 m.tmpl.id ++ encU16 kSchemaId ++
    encU16 kSchemaVersion

/-- The bytes of a message on the wire. -/
def encode (m : Message) : Bytes := m.header ++ m.payload

/-- What a consumer sees of a message. -/
def body (m : Message) : UInt16 × Bytes := (m.tmpl.id, m.payload)

/-- With `n` inboxes, inbox `i` is to receive the message. -/
def routes (n i : ℕ) (m : Message) : Bool :=
  m.tmpl.isBroadcast || decide ((partitionOf n (docOf m.tmpl m.payload)).toNat = i)

@[simp] theorem length_header (m : Message) : m.header.length = kSbeHeaderBytes := by
  simp [header, kSbeHeaderBytes]

/-- A message is a header and a payload. -/
theorem length_encode (m : Message) : m.encode.length = kSbeHeaderBytes + m.payload.length := by
  rw [encode, List.length_append, length_header]

/-- The payload of a message is not larger than the pipeline takes. -/
theorem length_le (m : Message) : m.payload.length ≤ kMaxIngressPayload := by
  rcases m.len_ok with h | ⟨-, h⟩
  · rw [h]
    cases m.tmpl <;> decide
  · exact h

/-- The length of a payload fits its field. -/
theorem toNat_length (m : Message) :
    (UInt16.ofNat m.payload.length).toNat = m.payload.length := by
  have h := m.length_le
  rw [UInt16.toNat_ofNat']
  exact Nat.mod_eq_of_lt (lt_of_le_of_lt h (by decide))

/-- The fields of the header, read from any bytes that begin with it. -/
theorem ofBytes_header {m : Message} {b : Bytes} (h : HoldsAt b 0 m.header) :
    SbeMessageHeader.ofBytes b =
      ⟨UInt16.ofNat m.payload.length, m.tmpl.id, kSchemaId, kSchemaVersion⟩ :=
  SbeMessageHeader.ofBytes_of_holdsAt h

/-- The document of a message stands inside its block. -/
theorem docOf_append (m : Message) (rest : Bytes) :
    docOf m.tmpl (m.payload ++ rest) = docOf m.tmpl m.payload := by
  have hin : ∀ off, m.tmpl.docOffset = some off → off + 8 ≤ m.payload.length := by
    rcases m.len_ok with h | ⟨h, -⟩
    · rw [h]
      cases m.tmpl <;> simp [Tmpl.docOffset, Tmpl.blockLength]
    · simp [h, Tmpl.docOffset]
  unfold docOf
  cases ht : m.tmpl.docOffset with
  | none => rfl
  | some off =>
    have := hin off ht
    simp only [u64At, slice]
    rw [List.drop_append_of_le_length (by omega), List.take_append_of_le_length (by
      rw [List.length_drop]; omega)]

end Message

/-! ### What stands in the inboxes -/

/-- There is an inbox of this number. -/
def hasInbox (qs : List (Option Inbox)) (i : ℕ) : Prop := ∃ q, qs[i]? = some (some q)

/-- The frames that wait in an inbox. -/
def queued (qs : List (Option Inbox)) (i : ℕ) : List IngressFrame :=
  match qs[i]? with
  | some (some q) => q.frames
  | _ => []

/-- Of the frames popped, those of one inbox. -/
def taken (got : List (ℕ × IngressFrame)) (i : ℕ) : List IngressFrame :=
  (got.filter fun g => g.1 = i).map Prod.snd

/-- What a consumer sees of a frame; the time of arrival is that of the call. -/
def IngressFrame.body (f : IngressFrame) : UInt16 × Bytes := (f.tmpl, f.payload)

/-- What a partition has taken in two rounds. -/
theorem taken_append (a b : List (ℕ × IngressFrame)) (i : ℕ) :
    taken (a ++ b) i = taken a i ++ taken b i := by
  simp [taken]

/-- Replacing an inbox by another leaves which partitions have one. -/
theorem hasInbox_set {qs : List (Option Inbox)} {i j : ℕ} {q q' : Inbox}
    (h : qs[j]? = some (some q)) : hasInbox (qs.set j (some q')) i ↔ hasInbox qs i := by
  unfold hasInbox
  rcases eq_or_ne j i with rfl | hne
  · have hlt : j < qs.length := (List.getElem?_eq_some_iff.mp h).1
    simp [h, List.getElem?_set_self hlt]
  · rw [List.getElem?_set_ne hne]

/-- Replacing an inbox replaces what is queued there. -/
theorem queued_set {qs : List (Option Inbox)} {j : ℕ} (hj : j < qs.length) (q : Inbox) (i : ℕ) :
    queued (qs.set j (some q)) i = if j = i then q.frames else queued qs i := by
  simp only [queued]
  split_ifs with h
  · subst h
    rw [List.getElem?_set_self hj]
  · rw [List.getElem?_set_ne h]

/-- Consumers take from the front: what was popped and what is left is what was there. -/
theorem popAll_spec : ∀ (is : List ℕ) (qs : List (Option Inbox)) (out : List (ℕ × IngressFrame))
    (qs' : List (Option Inbox)), IngressPipeline.popAll is qs = (out, qs') →
      qs'.length = qs.length ∧ (∀ i, hasInbox qs' i ↔ hasInbox qs i) ∧
        ∀ i, taken out i ++ queued qs' i = queued qs i
  | [], qs, out, qs', h => by
    cases h
    exact ⟨rfl, fun _ => Iff.rfl, fun _ => rfl⟩
  | j :: is, qs, out, qs', h => by
    rw [IngressPipeline.popAll] at h
    split at h
    · next q hq =>
      split at h
      · next f hf =>
        obtain ⟨hout, hqs⟩ := Prod.mk.inj h
        have ih := popAll_spec is (qs.set j (some q.pop)) _ _ rfl
        rw [hqs] at ih
        have hlt : j < qs.length := (List.getElem?_eq_some_iff.mp hq).1
        have hfront : q.frames = f :: q.pop.frames := by
          rw [Inbox.peek, List.head?_eq_some_iff] at hf
          obtain ⟨fs, hfs⟩ := hf
          rw [Inbox.pop, hfs, List.tail_cons]
        refine ⟨by rw [ih.1, List.length_set], fun i => (ih.2.1 i).trans (hasInbox_set hq),
          fun i => ?_⟩
        have := ih.2.2 i
        rw [queued_set hlt] at this
        rw [← hout]
        split_ifs at this with hji
        · subst hji
          rw [show queued qs j = q.frames by rw [queued, hq], hfront, ← this]
          simp [taken]
        · rw [← this]
          simp [taken, hji]
      · exact popAll_spec is qs out qs' h
    · exact popAll_spec is qs out qs' h

/-! ### One turn of the loop -/

/-- With `n` inboxes, a message is for inbox `i`; `payload` is what stands in the buffer. -/
def isFor (n : ℕ) (t : Tmpl) (payload : Bytes) (i : ℕ) : Bool :=
  t.isBroadcast || decide ((partitionOf n (docOf t payload)).toNat = i)

/-- The inboxes that are chosen receive the frame. -/
def publishTo (chosen : ℕ → Bool) (f : IngressFrame) (qs : List (Option Inbox)) :
    List (Option Inbox) :=
  qs.mapIdx fun i => Option.map fun q => if chosen i then q.publish f else q

/-- The inboxes once a message has been dispatched. -/
def delivered (m : Message) (f : IngressFrame) (qs : List (Option Inbox)) : List (Option Inbox) :=
  qs.mapIdx fun i => Option.map fun q => if m.routes qs.length i then q.publish f else q

/-- A delivery leaves which partitions have an inbox. -/
theorem hasInbox_delivered {m : Message} {f : IngressFrame} {qs : List (Option Inbox)} {i : ℕ} :
    hasInbox (delivered m f qs) i ↔ hasInbox qs i := by
  simp only [hasInbox, delivered, List.getElem?_mapIdx]
  cases hq : qs[i]? with
  | none => simp
  | some o => cases o <;> simp

/-- A delivery queues the frame where the message is routed to. -/
theorem queued_delivered {m : Message} {f : IngressFrame} {qs : List (Option Inbox)} {i : ℕ}
    (h : hasInbox qs i) :
    queued (delivered m f qs) i = queued qs i ++ if m.routes qs.length i then [f] else [] := by
  obtain ⟨q, hq⟩ := h
  simp only [queued, delivered, List.getElem?_mapIdx, hq, Option.map_some]
  split_ifs
  · rfl
  · rw [List.append_nil]

namespace IngressPipeline

/-- The size of the buffer never changes, and what is buffered fits. -/
structure Sized (p : IngressPipeline) : Prop where
  length_eq : p.buffer.length = kIngressBufferSize
  le : p.buffered ≤ kIngressBufferSize

/-- As many bytes are pending as the pipeline counts. -/
theorem Sized.length_pending {p : IngressPipeline} (h : p.Sized) :
    p.pending.length = p.buffered := by
  rw [pending, List.length_take, h.length_eq, Nat.min_eq_left h.le]

/-- Everything but the counters is unchanged. -/
structure Kept (p p' : IngressPipeline) : Prop where
  inboxes_eq : p'.inboxes = p.inboxes
  buffer_eq : p'.buffer = p.buffer
  buffered_eq : p'.buffered = p.buffered

/-- What dispatching does with a frame: on `WouldBlock` no inbox receives it. -/
theorem routeAndDispatch_publishTo (p : IngressPipeline) (t : Tmpl) (f : IngressFrame)
    (payload : Bytes) (htmpl : f.tmpl = t.id) {st : Status} {p' : IngressPipeline}
    (h : p.routeAndDispatch f payload = (st, p')) :
    p'.buffer = p.buffer ∧ p'.buffered = p.buffered ∧
      p'.inboxes = if st.code = .wouldBlock then p.inboxes else
        publishTo (isFor p.inboxes.length t payload) f p.inboxes := by
  rw [routeAndDispatch, htmpl, Tmpl.ofId_id] at h
  dsimp only at h
  split at h
  · next hb =>
    rw [broadcast] at h
    split at h
    · cases h
      exact ⟨rfl, rfl, rfl⟩
    · cases h
      refine ⟨rfl, rfl, ?_⟩
      rw [if_neg (by decide), publishTo]
      refine List.ext_getElem? fun i => ?_
      simp [count, isFor, hb]
  · next hb =>
    rw [route] at h
    have hroutes : ∀ i, isFor p.inboxes.length t payload i =
        decide ((partitionOf p.inboxes.length (docOf t payload)).toNat = i) := fun i => by
      simp [isFor, hb]
    generalize (partitionOf p.inboxes.length (docOf t payload)) = j at h hroutes
    split at h
    · next q hq =>
      split at h
      · cases h
        refine ⟨rfl, rfl, ?_⟩
        rw [if_neg (by decide), publishTo]
        refine List.ext_getElem? fun i => ?_
        simp only [count, List.getElem?_mapIdx, hroutes, List.getElem?_set]
        obtain ⟨hlt, hget⟩ := List.getElem?_eq_some_iff.mp hq
        rcases eq_or_ne j.toNat i with rfl | hne
        · simp [hlt, hget]
        · simp [hne]
      · cases h
        exact ⟨rfl, rfl, rfl⟩
    · next hq =>
      cases h
      refine ⟨rfl, rfl, ?_⟩
      -- there is no inbox to receive the message
      have hcode : ¬ (Status.fail .outOfRange j.toUInt32).code = .wouldBlock :=
        show ¬ Err.outOfRange = Err.wouldBlock by decide
      rw [if_neg hcode, publishTo]
      refine List.ext_getElem? fun i => ?_
      simp only [countError, count, List.getElem?_mapIdx, hroutes]
      rcases eq_or_ne j.toNat i with rfl | hne
      · cases ho : p.inboxes[j.toNat]? with
        | none => rfl
        | some o =>
          cases o with
          | none => rfl
          | some q => exact absurd ho (hq q)
      · simp [hne]

/-- `WouldBlock` is the answer of an inbox that should receive the message and is full. -/
theorem full_of_wouldBlock {p : IngressPipeline} {t : Tmpl} {f : IngressFrame} {payload : Bytes}
    (htmpl : f.tmpl = t.id) {st : Status} {p' : IngressPipeline}
    (h : p.routeAndDispatch f payload = (st, p')) (hst : st.code = .wouldBlock) :
    ∃ i q, p.inboxes[i]? = some (some q) ∧ isFor p.inboxes.length t payload i = true ∧
      Inbox.kCapacity ≤ q.frames.length := by
  have hfull : ∀ {q : Inbox}, q.claim = false → Inbox.kCapacity ≤ q.frames.length := fun hq =>
    not_lt.mp (of_decide_eq_false hq)
  rw [routeAndDispatch, htmpl, Tmpl.ofId_id] at h
  dsimp only at h
  split at h
  · next hb =>
    -- to all: the first inbox that refuses answers for the rest
    rw [broadcast] at h
    split at h
    · next i hi =>
      obtain ⟨hlt, hclaim, -⟩ := List.findIdx?_eq_some_iff_getElem.mp hi
      rcases hq : p.inboxes[i] with _ | q
      · rw [hq] at hclaim
        cases hclaim
      · rw [hq] at hclaim
        refine ⟨i, q, List.getElem?_eq_some_iff.mpr ⟨hlt, hq⟩, by rw [isFor, hb, Bool.true_or], ?_⟩
        exact hfull (by simpa using hclaim)
    · cases h
      cases hst
  · next hb =>
    -- to one: the inbox of the account
    rw [route] at h
    split at h
    · next q hq =>
      split at h
      · cases h
        cases hst
      · next hclaim =>
        refine ⟨_, q, hq, ?_, hfull (Bool.eq_false_of_not_eq_true hclaim)⟩
        rw [isFor, decide_eq_true rfl, Bool.or_true]
    · cases h
      cases hst

/-- The same for a well-formed message, whatever follows it. -/
theorem routeAndDispatch_spec (p : IngressPipeline) (m : Message) (f : IngressFrame)
    (rest : Bytes) (htmpl : f.tmpl = m.tmpl.id) {st : Status} {p' : IngressPipeline}
    (h : p.routeAndDispatch f (m.payload ++ rest) = (st, p')) :
    (p'.buffer = p.buffer ∧ p'.buffered = p.buffered ∧
      p'.inboxes = if st.code = .wouldBlock then p.inboxes else delivered m f p.inboxes) ∧
    (st.code = .wouldBlock → ∃ i q, p.inboxes[i]? = some (some q) ∧
      m.routes p.inboxes.length i = true ∧ Inbox.kCapacity ≤ q.frames.length) := by
  have hspec := p.routeAndDispatch_publishTo m.tmpl f _ htmpl h
  have hfull := full_of_wouldBlock htmpl h
  have hroutes : isFor p.inboxes.length m.tmpl (m.payload ++ rest) = fun i =>
      m.routes p.inboxes.length i := by
    funext i
    rw [isFor, m.docOf_append, Message.routes]
  rw [hroutes] at hspec hfull
  exact ⟨hspec, hfull⟩

/-- The buffer begins with the bytes that have not been dispatched. -/
theorem buffer_eq (p : IngressPipeline) : p.buffer = p.pending ++ p.buffer.drop p.buffered :=
  (List.take_append_drop _ _).symm

/-- Consuming a frame leaves what is behind it. -/
theorem pending_consume {p : IngressPipeline} (hp : p.Sized) {xs rest : Bytes}
    (h : p.pending = xs ++ rest) :
    (p.consume xs.length).Sized ∧ (p.consume xs.length).pending = rest := by
  have hlen := hp.length_pending
  rw [h, List.length_append] at hlen
  have hrest : slice p.buffer xs.length (p.buffered - xs.length) = rest := by
    rw [slice, p.buffer_eq, h, List.append_assoc, List.drop_left,
      List.take_left' (by omega)]
  have hle := hp.le
  have hsize : (writeAt p.buffer 0 rest).length = p.buffer.length :=
    length_writeAt_of_le (by rw [hp.length_eq]; omega)
  refine ⟨⟨?_, ?_⟩, ?_⟩
  · rw [consume, hrest, hsize, hp.length_eq]
  · exact (Nat.sub_le _ _).trans hle
  · have hshift := take_writeAt rest (Nat.zero_le p.buffer.length)
    rw [Nat.zero_add, List.take_zero, List.nil_append] at hshift
    rw [consume, pending, hrest, show p.buffered - xs.length = rest.length by omega, hshift]

/-- A turn that finds the header of a message. -/
theorem turn_of_header {p : IngressPipeline} {m : Message} (h8 : kSbeHeaderBytes ≤ p.buffered)
    (hhdr : HoldsAt p.buffer 0 m.header) (nowNs : UInt64) :
    ∃ f : IngressFrame, f.tmpl = m.tmpl.id ∧
      f.payload = slice p.buffer kSbeHeaderBytes m.payload.length ∧
      p.turn nowNs =
        if p.buffered < kSbeHeaderBytes + m.payload.length then (.waits, p)
        else
          match p.routeAndDispatch f (p.buffer.drop kSbeHeaderBytes) with
          | (st, p') =>
            if st.code = .wouldBlock then (.returns st, p')
            else
              (.consumed st, (count (fun s => { s with eventsReceived := s.eventsReceived + 1 })
                p').consume (kSbeHeaderBytes + m.payload.length)) := by
  have hlen := m.toNat_length
  have hhd := Message.ofBytes_header hhdr
  unfold turn
  rw [if_neg (by omega)]
  generalize SbeMessageHeader.ofBytes p.buffer = hdr at hhd ⊢
  subst hhd
  have hle : (UInt16.ofNat m.payload.length).toNat ≤ kMaxIngressPayload := by
    rw [hlen]
    exact m.length_le
  refine ⟨p.frameAt ⟨UInt16.ofNat m.payload.length, m.tmpl.id, kSchemaId, kSchemaVersion⟩ nowNs
    hle, rfl, congrArg (slice p.buffer kSbeHeaderBytes) hlen, ?_⟩
  dsimp only
  rw [if_neg (by simp), dif_pos hle, hlen]

/-- **One turn.** When what is buffered is a beginning of a message and of what follows it, the
turn waits for the rest, answers `WouldBlock` because an inbox of the message is full, or dispatches
the message. -/
theorem turn_of_prefix {p : IngressPipeline} (hp : p.Sized) {m : Message} {tail : Bytes}
    (hpre : p.pending <+: m.encode ++ tail) (nowNs : UInt64) :
    (p.turn nowNs = (.waits, p) ∧ p.pending.length < m.encode.length) ∨
    (∃ st p', p.turn nowNs = (.returns st, p') ∧ st.code = .wouldBlock ∧ Kept p p' ∧
      m.encode.length ≤ p.pending.length ∧ ∃ i q, p.inboxes[i]? = some (some q) ∧
        m.routes p.inboxes.length i = true ∧ Inbox.kCapacity ≤ q.frames.length) ∨
    ∃ st f p', p.turn nowNs = (.consumed st, p') ∧ st.code ≠ .wouldBlock ∧ f.body = m.body ∧
      p'.Sized ∧ p.pending = m.encode ++ p'.pending ∧
      p'.inboxes = delivered m f p.inboxes := by
  have hlen := hp.length_pending
  rcases Nat.lt_or_ge p.buffered kSbeHeaderBytes with h8 | h8
  · refine .inl ⟨by rw [turn, if_pos h8], ?_⟩
    rw [m.length_encode]
    omega
  -- the header of the message is in the buffer
  have hhdr : HoldsAt p.buffer 0 m.header := by
    have hm : m.header <+: m.encode ++ tail := by
      rw [Message.encode, List.append_assoc]
      exact List.prefix_append _ _
    have := List.prefix_of_prefix_length_le hm hpre (by rw [m.length_header]; omega)
    exact this.trans (List.take_prefix _ _)
  obtain ⟨f, htmpl, hpayload, hturn⟩ := turn_of_header h8 hhdr nowNs
  rcases Nat.lt_or_ge p.buffered (kSbeHeaderBytes + m.payload.length) with hshort | hfull
  · rw [if_pos hshort] at hturn
    refine .inl ⟨hturn, ?_⟩
    rw [m.length_encode]
    omega
  rw [if_neg (by omega)] at hturn
  -- the whole message is there, and what is behind it stays for the next turn
  obtain ⟨rest, hrest⟩ : m.encode <+: p.pending :=
    List.prefix_of_prefix_length_le (List.prefix_append _ _) hpre (by
      rw [m.length_encode]
      omega)
  have hdrop : p.buffer.drop kSbeHeaderBytes =
      m.payload ++ (rest ++ p.buffer.drop p.buffered) := by
    conv_lhs => rw [p.buffer_eq, ← hrest, Message.encode, List.append_assoc, List.append_assoc]
    exact List.drop_left' m.length_header
  have hbody : f.body = m.body := by
    rw [IngressFrame.body, Message.body, htmpl, hpayload, slice, hdrop, List.take_left]
  generalize hrd : p.routeAndDispatch f _ = r at hturn
  obtain ⟨st, p'⟩ := r
  rw [hdrop] at hrd
  obtain ⟨⟨hbuf, hbuffered, hin⟩, hfull⟩ := p.routeAndDispatch_spec m f _ htmpl hrd
  simp only at hturn
  split at hturn
  · next hwb =>
    rw [if_pos hwb] at hin
    refine .inr (.inl ⟨st, p', hturn, hwb, ⟨hin, hbuf, hbuffered⟩, ?_, hfull hwb⟩)
    rw [← hrest, List.length_append]
    exact Nat.le_add_right _ _
  · next hwb =>
    rw [if_neg hwb] at hin
    refine .inr (.inr ⟨st, f, _, hturn, hwb, hbody, ?_⟩)
    set p₁ := count (fun s => { s with eventsReceived := s.eventsReceived + 1 }) p' with hp₁
    -- the frame is counted before the bytes are consumed
    have hpend : p₁.pending = m.encode ++ rest := by
      rw [hrest, pending, pending, hp₁, count, hbuf, hbuffered]
    have hsized : p₁.Sized := ⟨by rw [hp₁, count, hbuf, hp.length_eq], by
      rw [hp₁, count, hbuffered]; exact hp.le⟩
    have hcons := pending_consume hsized hpend
    rw [m.length_encode] at hcons
    exact ⟨hcons.1, by rw [hcons.2, hrest], hin⟩

/-- With nothing buffered the turn waits. -/
theorem turn_of_nil {p : IngressPipeline} (hp : p.Sized) (h : p.pending = []) (nowNs : UInt64) :
    p.turn nowNs = (.waits, p) := by
  have hlen := hp.length_pending
  rw [h, List.length_nil] at hlen
  rw [turn, if_pos (by rw [← hlen]; decide)]

/-! ### Runs -/

/-- The first `k` messages have been dispatched, of the bytes `fed` so far into inboxes that held
`qs` at the start; the consumers popped `got`. -/
structure Framed (ms : List Message) (qs : List (Option Inbox)) (k : ℕ) (fed : Bytes)
    (got : List (ℕ × IngressFrame)) (p : IngressPipeline) : Prop where
  le : k ≤ ms.length
  sized : p.Sized
  count_eq : p.inboxes.length = qs.length
  present : ∀ i, hasInbox p.inboxes i ↔ hasInbox qs i
  split : fed = (ms.take k).flatMap Message.encode ++ p.pending
  received : ∀ i, hasInbox qs i →
    (taken got i ++ queued p.inboxes i).map IngressFrame.body =
      (queued qs i).map IngressFrame.body ++
        ((ms.take k).filter fun m => m.routes qs.length i).map Message.body

namespace Framed

variable {ms : List Message} {qs : List (Option Inbox)} {k : ℕ} {fed : Bytes}
  {got : List (ℕ × IngressFrame)} {p : IngressPipeline}

/-- Before any byte nothing was delivered. -/
theorem init (ms : List Message) {qs : List (Option Inbox)} (hqs : qs.length ≤ kMaxPartitions) :
    Framed ms qs 0 [] [] (IngressPipeline.init qs) := by
  have hin : (IngressPipeline.init qs).inboxes = qs := List.take_of_length_le hqs
  exact
    { le := Nat.zero_le _
      sized := ⟨List.length_replicate, Nat.zero_le _⟩
      count_eq := by rw [hin]
      present := fun i => by rw [hin]
      split := rfl
      received := fun i _ => by
        rw [hin]
        simp [taken] }

/-- What is buffered is a beginning of the messages that have not been dispatched. -/
theorem pending_prefix (h : Framed ms qs k fed got p) (hfed : fed <+: ms.flatMap Message.encode) :
    p.pending <+: (ms.drop k).flatMap Message.encode := by
  rw [h.split] at hfed
  conv_rhs at hfed => rw [← List.take_append_drop k ms, List.flatMap_append]
  exact (List.prefix_append_right_inj _).mp hfed

/-- The partitions may take frames at any time. -/
theorem pops (h : Framed ms qs k fed got p) {is : List ℕ} {out : List (ℕ × IngressFrame)}
    {p' : IngressPipeline} (hp : p.pops is = (out, p')) : Framed ms qs k fed (got ++ out) p' := by
  rw [IngressPipeline.pops] at hp
  generalize hall : popAll is p.inboxes = r at hp
  obtain ⟨out', qs'⟩ := r
  cases hp
  obtain ⟨hlen, hpresent, hqueued⟩ := popAll_spec _ _ _ _ hall
  refine ⟨h.le, ⟨h.sized.length_eq, h.sized.le⟩, hlen.trans h.count_eq,
    fun i => (hpresent i).trans (h.present i), h.split, fun i hi => ?_⟩
  rw [taken_append, List.append_assoc, hqueued i]
  exact h.received i hi

/-- What keeps the bytes and the inboxes keeps the framing. -/
theorem kept (h : Framed ms qs k fed got p) {p' : IngressPipeline} (hk : Kept p p') :
    Framed ms qs k fed got p' where
  le := h.le
  sized := ⟨hk.buffer_eq ▸ h.sized.length_eq, hk.buffered_eq ▸ h.sized.le⟩
  count_eq := by rw [hk.inboxes_eq, h.count_eq]
  present := fun i => by rw [hk.inboxes_eq, h.present]
  split := by rw [h.split, pending, pending, hk.buffer_eq, hk.buffered_eq]
  received := fun i hi => by rw [hk.inboxes_eq, h.received i hi]

/-- The next message has been dispatched. -/
theorem consumed (h : Framed ms qs k fed got p) {m : Message} (hm : ms[k]? = some m)
    {f : IngressFrame} {p' : IngressPipeline} (hbody : f.body = m.body) (hsized : p'.Sized)
    (hpend : p.pending = m.encode ++ p'.pending) (hin : p'.inboxes = delivered m f p.inboxes) :
    Framed ms qs (k + 1) fed got p' := by
  have htake : ms.take (k + 1) = ms.take k ++ [m] := by
    rw [List.take_add_one, hm, Option.toList_some]
  refine ⟨(List.getElem?_eq_some_iff.mp hm).1, hsized, ?_, fun i => ?_, ?_, fun i hi => ?_⟩
  · rw [hin, delivered, List.length_mapIdx, h.count_eq]
  · rw [hin, hasInbox_delivered, h.present]
  · rw [htake, List.flatMap_append, List.flatMap_singleton, List.append_assoc, ← hpend, h.split]
  · rw [hin, queued_delivered ((h.present i).mpr hi), ← List.append_assoc, List.map_append,
      h.received i hi, htake, List.filter_append, List.map_append, List.append_assoc, h.count_eq]
    congr 2
    cases hr : m.routes qs.length i <;> simp [hbody, hr]

/-- A chunk that fits is appended to what is buffered. -/
theorem extended (h : Framed ms qs k fed got p) {chunk : Bytes} (s : IngressStats)
    (hfit : p.buffered + chunk.length ≤ kIngressBufferSize) :
    Framed ms qs k (fed ++ chunk) got
      { p with
        buffer := writeAt p.buffer p.buffered chunk
        buffered := p.buffered + chunk.length
        stats := s } := by
  have hlen := h.sized.length_eq
  refine ⟨h.le, ⟨?_, hfit⟩, h.count_eq, h.present, ?_, h.received⟩
  · rw [length_writeAt_of_le (by rw [hlen]; exact hfit), hlen]
  · rw [pending, take_writeAt chunk (by rw [hlen]; exact h.sized.le), h.split, List.append_assoc]
    rfl

end Framed

/-- The next message, if there is one, is not complete. -/
def Drained (ms : List Message) (k : ℕ) (p : IngressPipeline) : Prop :=
  ∀ m, ms[k]? = some m → p.pending.length < m.encode.length

/-- The next message is complete, and an inbox that is to receive it is full. -/
def Blocked (ms : List Message) (n k : ℕ) (p : IngressPipeline) : Prop :=
  ∃ m, ms[k]? = some m ∧ m.encode.length ≤ p.pending.length ∧
    ∃ i q, p.inboxes[i]? = some (some q) ∧ m.routes n i = true ∧
      Inbox.kCapacity ≤ q.frames.length

/-- How a call ends: everything complete has been dispatched, or an inbox is full. -/
structure Ended (ms : List Message) (n k : ℕ) (st : Status) (p : IngressPipeline) : Prop where
  drained : st.code ≠ .wouldBlock → Drained ms k p
  blocked : st.code = .wouldBlock → Blocked ms n k p

/-- What keeps the bytes keeps what is pending. -/
theorem Kept.pending_eq {p p' : IngressPipeline} (h : Kept p p') : p'.pending = p.pending := by
  rw [pending, pending, h.buffer_eq, h.buffered_eq]

/-- The loop of `feed` dispatches what it can; it stops early only when it answers `WouldBlock`, and
it answers that only when an inbox is full. -/
theorem Framed.loop {ms : List Message} {qs : List (Option Inbox)} {fed : Bytes}
    (hfed : fed <+: ms.flatMap Message.encode) (env : ℕ → List ℕ) (nowNs : UInt64) :
    ∀ (n : ℕ) (last : Status) {k : ℕ} {got : List (ℕ × IngressFrame)} {p : IngressPipeline},
      Framed ms qs k fed got p → p.buffered < kSbeHeaderBytes * n → last.code ≠ .wouldBlock →
      ∀ {st out p'}, p.loop env nowNs n last = (st, out, p') →
        ∃ k', Framed ms qs k' fed (got ++ out) p' ∧ Ended ms qs.length k' st p'
  | 0, last, k, got, p, _, hfuel, _, _, _, _, _ => by
    rw [Nat.mul_zero] at hfuel
    exact absurd hfuel (Nat.not_lt_zero _)
  | n + 1, last, k, got, p, h, hfuel, hlast, st, out, p', hloop => by
    rw [IngressPipeline.loop] at hloop
    generalize hpops : p.pops (env n) = r at hloop
    obtain ⟨out₁, p₁⟩ := r
    have hbuf : p₁.buffered = p.buffered := by
      have := congrArg (fun r => r.2.buffered) hpops
      exact this.symm
    have h₁ := h.pops hpops
    dsimp only at hloop
    cases hk : ms[k]? with
    | none =>
      -- every message has been dispatched, so nothing is buffered
      have hnil : p₁.pending = [] := by
        have := h₁.pending_prefix hfed
        rwa [List.drop_eq_nil_of_le (List.getElem?_eq_none_iff.mp hk), List.flatMap_nil,
          List.prefix_nil] at this
      rw [turn_of_nil h₁.sized hnil] at hloop
      cases hloop
      refine ⟨k, h₁, fun _ m hm => ?_, fun hwb => absurd hwb hlast⟩
      rw [hk] at hm
      cases hm
    | some m =>
      have hpre := h₁.pending_prefix hfed
      obtain ⟨hlt, hget⟩ := List.getElem?_eq_some_iff.mp hk
      rw [List.drop_eq_getElem_cons hlt, hget, List.flatMap_cons] at hpre
      rcases turn_of_prefix h₁.sized hpre nowNs with
        ⟨ht, hshort⟩ | ⟨st₁, p₂, ht, hwb, hkept, hle, i, q, hq, hroutes, hfull⟩ |
          ⟨st₁, f, p₂, ht, hne, hbody, hsized, hpend, hin⟩
      · rw [ht] at hloop
        cases hloop
        refine ⟨k, h₁, fun _ m' hm' => ?_, fun hwb => absurd hwb hlast⟩
        obtain rfl := Option.some.inj (hk.symm.trans hm')
        exact hshort
      · rw [ht] at hloop
        cases hloop
        refine ⟨k, h₁.kept hkept, fun hne => absurd hwb hne, fun _ =>
          ⟨m, hk, hkept.pending_eq ▸ hle, i, q, ?_, ?_, hfull⟩⟩
        · rw [hkept.inboxes_eq, hq]
        · rw [← h₁.count_eq, hroutes]
      · rw [ht] at hloop
        dsimp only at hloop
        generalize hrest : p₂.loop env nowNs n _ = r at hloop
        obtain ⟨st₂, out₂, p₃⟩ := r
        cases hloop
        have h₂ := h₁.consumed hk hbody hsized hpend hin
        have hless : p₂.buffered < kSbeHeaderBytes * n := by
          have hl := congrArg List.length hpend
          rw [List.length_append, h₁.sized.length_pending, hsized.length_pending, m.length_encode,
            hbuf] at hl
          rw [Nat.mul_succ] at hfuel
          omega
        have hlast' : (if st₁.isOk then last else st₁).code ≠ .wouldBlock := by
          split_ifs
          · exact hlast
          · exact hne
        have := Framed.loop hfed env nowNs n _ h₂ hless hlast' hrest
        rwa [List.append_assoc] at this

/-- One more chunk, of any size that fits: the messages it completes are delivered. -/
theorem Framed.feed {ms : List Message} {qs : List (Option Inbox)} {k : ℕ} {fed : Bytes}
    {got : List (ℕ × IngressFrame)} {p : IngressPipeline} (h : Framed ms qs k fed got p)
    {chunk : Bytes} (hfed : fed ++ chunk <+: ms.flatMap Message.encode)
    (hfit : p.buffered + chunk.length ≤ kIngressBufferSize) {nowNs : UInt64} {env : ℕ → List ℕ}
    {st : Status} {out : List (ℕ × IngressFrame)} {p' : IngressPipeline}
    (hf : p.feed chunk nowNs env = (st, out, p')) :
    ∃ k', Framed ms qs k' (fed ++ chunk) (got ++ out) p' ∧ Ended ms qs.length k' st p' := by
  rw [IngressPipeline.feed] at hf
  dsimp only at hf
  rw [if_neg (by omega)] at hf
  refine Framed.loop hfed env nowNs _ _ (h.extended _ hfit) ?_ (by decide) hf
  rw [Nat.mul_add, Nat.mul_one]
  exact Nat.lt_mul_div_succ _ (by decide)

/-- The runs of a pipeline over the inboxes `qs`: the bytes fed so far, the last answer of `feed`
and what the consumers popped. Consumers pop during the calls and between them. -/
inductive Feeding (qs : List (Option Inbox)) :
    Bytes → Status → List (ℕ × IngressFrame) → IngressPipeline → Prop
  | start : Feeding qs [] .kOk [] (.init qs)
  | feed {fed st got p chunk nowNs env st' out p'} : Feeding qs fed st got p →
      p.buffered + chunk.length ≤ kIngressBufferSize →
      p.feed chunk nowNs env = (st', out, p') → Feeding qs (fed ++ chunk) st' (got ++ out) p'
  | pops {fed st got p is out p'} : Feeding qs fed st got p → p.pops is = (out, p') →
      Feeding qs fed st (got ++ out) p'

/-- By induction on the chunks and the rounds of the partitions. -/
theorem Feeding.framed {ms : List Message} {qs : List (Option Inbox)} {fed : Bytes} {st : Status}
    {got : List (ℕ × IngressFrame)} {p : IngressPipeline} (h : Feeding qs fed st got p)
    (hqs : qs.length ≤ kMaxPartitions) (hfed : fed <+: ms.flatMap Message.encode) :
    ∃ k, Framed ms qs k fed got p ∧ (st.code ≠ .wouldBlock → Drained ms k p) := by
  induction h with
  | start =>
    refine ⟨0, .init ms hqs, fun _ m _ => ?_⟩
    rw [m.length_encode]
    exact Nat.lt_add_right _ (show 0 < kSbeHeaderBytes by decide)
  | feed _ hfit hf ih =>
    obtain ⟨k, hk, -⟩ := ih ((List.prefix_append _ _).trans hfed)
    obtain ⟨k', hk', hend⟩ := hk.feed hfed hfit hf
    exact ⟨k', hk', hend.drained⟩
  | @pops fed st got p is out p' _ hp ih =>
    obtain ⟨k, hk, hdrained⟩ := ih hfed
    have hpend : p'.pending = p.pending := by
      have := congrArg (fun r => r.2.pending) hp
      exact this.symm
    exact ⟨k, hk.pops hp, fun hne m hm => by rw [hpend]; exact hdrained hne m hm⟩

/-- **Framing.** In every run over a stream of well-formed messages, with no more inboxes than there
is room for, there is a `k` such that the bytes fed are those of the first `k` messages and the
buffered ones, and every inbox has received, in this order, what it held at the start and those of
the `k` messages that are routed to it; unless `feed` answered `WouldBlock`, no complete message is
left. And `feed` answers `WouldBlock` only when the next message is complete and one of its inboxes
is full. -/
theorem framing_exact (ms : List Message) {qs : List (Option Inbox)}
    (hqs : qs.length ≤ kMaxPartitions) {fed : Bytes} {st : Status} {got : List (ℕ × IngressFrame)}
    {p : IngressPipeline} (h : Feeding qs fed st got p)
    (hfed : fed <+: ms.flatMap Message.encode) :
    (∃ k ≤ ms.length,
      fed = (ms.take k).flatMap Message.encode ++ p.pending ∧
      (∀ i, hasInbox qs i →
        (taken got i ++ queued p.inboxes i).map IngressFrame.body =
          (queued qs i).map IngressFrame.body ++
            ((ms.take k).filter fun m => m.routes qs.length i).map Message.body) ∧
      (st.code ≠ .wouldBlock → ∀ m, ms[k]? = some m → p.pending.length < m.encode.length)) ∧
    ∀ chunk nowNs env st' out p', fed ++ chunk <+: ms.flatMap Message.encode →
      p.buffered + chunk.length ≤ kIngressBufferSize →
      p.feed chunk nowNs env = (st', out, p') → st'.code = .wouldBlock →
        ∃ k, fed ++ chunk = (ms.take k).flatMap Message.encode ++ p'.pending ∧
          Blocked ms qs.length k p' := by
  obtain ⟨k, hk, hdrained⟩ := h.framed hqs hfed
  refine ⟨⟨k, hk.le, hk.split, hk.received, hdrained⟩, ?_⟩
  intro chunk nowNs env st' out p' hfed' hfit hf hwb
  obtain ⟨k', hk', hend⟩ := hk.feed hfed' hfit hf
  exact ⟨k', hk'.split, hend.blocked hwb⟩

/-- The opening of a day and a trade. -/
def dayAndTrade : List Message :=
  [⟨.dayOpened, firstDay.encode, .inl (by decide)⟩,
    ⟨.tradeExecuted, boughtOne.encode, .inl (by decide)⟩]

/-- The first bytes of them, fed to a pipeline with two inboxes. -/
def firstCall : Status × List (ℕ × IngressFrame) × IngressPipeline :=
  (IngressPipeline.init [some .empty, some .empty]).feed
    ((dayAndTrade.flatMap Message.encode).take 20) 7 fun _ => []

/-- The rest, while the first inbox is read. -/
def secondCall : Status × List (ℕ × IngressFrame) × IngressPipeline :=
  firstCall.2.2.feed ((dayAndTrade.flatMap Message.encode).drop 20) 8 fun _ => [0]

/-- Two partitions are fed `dayAndTrade`, cut inside the first payload, while the first of them is
read: both are told of the day, and the second of the trade. -/
theorem framing_exact_dayAndTrade :
    ∃ got p, Feeding [some .empty, some .empty] (dayAndTrade.flatMap Message.encode) .kOk got p ∧
      taken got 0 ≠ [] ∧ p.pending = [] ∧
      (taken got 0 ++ queued p.inboxes 0).map IngressFrame.body = [(1, firstDay.encode)] ∧
      (taken got 1 ++ queued p.inboxes 1).map IngressFrame.body =
        [(1, firstDay.encode), (2, boughtOne.encode)] := by
  obtain ⟨got, p, h, hgot⟩ : ∃ got p, Feeding [some .empty, some .empty]
      (dayAndTrade.flatMap Message.encode) .kOk got p ∧ taken got 0 ≠ [] := by
    have hst : secondCall.1 = .kOk := by decide +kernel
    have h₁ : Feeding [some .empty, some .empty]
      ([] ++ (dayAndTrade.flatMap Message.encode).take 20)
        firstCall.1 ([] ++ firstCall.2.1) firstCall.2.2 :=
      .feed .start (by decide +kernel)
        (show (IngressPipeline.init [some .empty, some .empty]).feed _ 7 (fun _ => []) = _ from rfl)
    have h₂ : Feeding [some .empty, some .empty] _ secondCall.1
        ([] ++ firstCall.2.1 ++ secondCall.2.1) secondCall.2.2 :=
      .feed h₁ (show _ + ((dayAndTrade.flatMap Message.encode).drop 20).length ≤ _ by
        decide +kernel) (show firstCall.2.2.feed _ 8 (fun _ => [0]) = _ from rfl)
    rw [hst, List.nil_append, List.take_append_drop] at h₂
    exact ⟨_, _, h₂, by decide +kernel⟩
  obtain ⟨⟨k, hk, hsplit, hreceived, hdrained⟩, -⟩ := framing_exact dayAndTrade (by decide) h
    List.prefix_rfl
  -- everything has been dispatched
  obtain rfl : k = 2 := by
    by_contra hne
    have hlt : k < dayAndTrade.length := lt_of_le_of_ne hk hne
    have hshort := hdrained (by decide) _ (List.getElem?_eq_getElem hlt)
    conv_lhs at hsplit => rw [← List.take_append_drop k dayAndTrade, List.flatMap_append]
    rw [← List.append_cancel_left hsplit, List.drop_eq_getElem_cons hlt, List.flatMap_cons,
      List.length_append] at hshort
    omega
  have hpend : p.pending = [] := by
    have := hsplit.symm
    rwa [List.take_of_length_le (by decide), List.append_right_eq_self] at this
  refine ⟨got, p, h, hgot, hpend, ?_, ?_⟩
  · rw [hreceived 0 ⟨.empty, rfl⟩]
    decide +kernel
  · rw [hreceived 1 ⟨.empty, rfl⟩]
    decide +kernel

end IngressPipeline

end MotorRv
