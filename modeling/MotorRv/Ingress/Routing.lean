import MotorRv.Ingress.Framing

/-!
# What the choice of an inbox depends on

The account that decides the partition is read at a fixed offset behind the header. Nothing compares
the offset with the length of the block, which the sender chooses: in a short block the bytes of the
account are those of the next message, or of an earlier one.

`Fronts` says that a message stands at the front of the buffer and passes the checks of its header,
whatever follows it; `frontIsFor` is the choice of the inbox as a function of the message and the
buffer. Two pipelines with the same message in front may differ behind it, and `RoutesAlike` asks
that they nevertheless choose alike.

One direction of `routesAlike_iff` is that the choice reads the document and nothing else
(`routesAlike_of_docInBlock`). For the other one, two buffers are built that show the same message
and differ in a single byte behind it, and the hash of the document is seen to fall on different
inboxes (`exists_partitionOf_ne`), unless there is only one.
-/

namespace MotorRv

open Lib

namespace IngressPipeline

/-- A message of a template with a block of `len` bytes stands at the front of the buffer, and
passes the checks of its header. -/
structure Fronts (p : IngressPipeline) (t : Tmpl) (len : UInt16) : Prop where
  sized : p.Sized
  header : SbeMessageHeader.ofBytes p.buffer = ⟨len, t.id, kSchemaId, kSchemaVersion⟩
  complete : kSbeHeaderBytes + len.toNat ≤ p.buffered

/-- The dispatch of the message at the front. -/
def dispatchFront (p : IngressPipeline) (t : Tmpl) {len : UInt16} (nowNs : UInt64)
    (h : len.toNat ≤ kMaxIngressPayload) : Status × IngressPipeline :=
  p.routeAndDispatch (p.frameAt ⟨len, t.id, kSchemaId, kSchemaVersion⟩ nowNs h)
    (p.buffer.drop kSbeHeaderBytes)

/-- The message at the front of `p` is for inbox `i`. -/
def frontIsFor (p : IngressPipeline) (t : Tmpl) (i : ℕ) : Bool :=
  isFor p.inboxes.length t (p.buffer.drop kSbeHeaderBytes) i

/-- The frame of the message at the front goes to the inboxes that it is for, or, on `WouldBlock`,
to none. -/
theorem dispatchFront_publishTo (p : IngressPipeline) (t : Tmpl) {len : UInt16} (nowNs : UInt64)
    (h : len.toNat ≤ kMaxIngressPayload) : (p.dispatchFront t nowNs h).2.inboxes =
      if (p.dispatchFront t nowNs h).1.code = .wouldBlock then p.inboxes else
        publishTo (p.frontIsFor t) (p.frameAt ⟨len, t.id, kSchemaId, kSchemaVersion⟩ nowNs h)
          p.inboxes :=
  (p.routeAndDispatch_publishTo t _ _ rfl rfl).2.2

end IngressPipeline

/-- Two buffers with the same message in front choose the same inboxes. -/
def RoutesAlike (qs : List (Option Inbox)) (t : Tmpl) (len : UInt16) : Prop :=
  ∀ p p' : IngressPipeline, p.inboxes = qs → p'.inboxes = qs → p.Fronts t len → p'.Fronts t len →
    p.buffer.take (kSbeHeaderBytes + len.toNat) = p'.buffer.take (kSbeHeaderBytes + len.toNat) →
      ∀ i < qs.length, p.frontIsFor t i = p'.frontIsFor t i

/-- The document of a message stands inside its block. -/
def Tmpl.docInBlock (t : Tmpl) (len : UInt16) : Prop :=
  ∃ off, t.docOffset = some off ∧ off + 8 ≤ len.toNat

/-! ### Blocks that hold their document -/

/-- With one inbox there is nothing to choose. -/
theorem partitionOf_one (doc : UInt64) : partitionOf 1 doc = 0 := by
  rw [partitionOf, show (UInt32.ofNat 1 - 1).toUInt64 = 0 from rfl, UInt64.and_zero]
  rfl

theorem u64At_congr {b b' : Bytes} {off n : ℕ} (h : b.take n = b'.take n) (hn : off + 8 ≤ n) :
    u64At b off = u64At b' off := by
  rw [u64At, u64At, ← slice_take hn, h, slice_take hn]

theorem routesAlike_of_docInBlock {qs : List (Option Inbox)} {t : Tmpl} {len : UInt16}
    (h : t.isBroadcast = true ∨ qs.length ≤ 1 ∨ t.docInBlock len) : RoutesAlike qs t len := by
  intro p p' hp hp' _ _ hown i hi
  rw [IngressPipeline.frontIsFor, IngressPipeline.frontIsFor, hp, hp', isFor, isFor]
  obtain hb | hone | ⟨off, hoff, hin⟩ := h
  · rw [hb, Bool.true_or, Bool.true_or]
  · rw [show qs.length = 1 by omega, partitionOf_one, partitionOf_one]
  · have hdoc : docOf t (p.buffer.drop kSbeHeaderBytes) =
        docOf t (p'.buffer.drop kSbeHeaderBytes) := by
      rw [docOf, docOf, hoff]
      refine u64At_congr ?_ hin
      have := congrArg (List.drop kSbeHeaderBytes) hown
      rwa [List.drop_take, List.drop_take, Nat.add_sub_cancel_left] at this
    rw [hdoc]

/-! ### Blocks that do not -/

/-- A buffer with a message of `len` zeros in front, where the last byte of the document at `off` is
`x`. -/
def shortBuffer (t : Tmpl) (len : UInt16) (off : ℕ) (x : UInt8) : Bytes :=
  (encU16 len ++ encU16 t.id ++ encU16 kSchemaId ++ encU16 kSchemaVersion) ++
    (List.replicate off 0 ++ ((List.replicate 7 0 ++ [x]) ++
      List.replicate (kIngressBufferSize - kSbeHeaderBytes - off - 8) 0))

def shortPipeline (qs : List (Option Inbox)) (t : Tmpl) (len : UInt16) (off : ℕ) (x : UInt8) :
    IngressPipeline where
  inboxes := qs
  buffer := shortBuffer t len off x
  buffered := kSbeHeaderBytes + len.toNat
  stats := .zero

theorem docOffset_le {t : Tmpl} {off : ℕ} (h : t.docOffset = some off) : off ≤ 24 := by
  cases t <;> simp_all [Tmpl.docOffset] <;> omega

section Short

variable {qs : List (Option Inbox)} {t : Tmpl} {len : UInt16} {off : ℕ}

theorem fronts_shortPipeline (hlen : len.toNat ≤ kMaxIngressPayload) (hoff : off ≤ 24) (x : UInt8) :
    (shortPipeline qs t len off x).Fronts t len where
  sized := by
    refine ⟨?_, ?_⟩
    · simp only [shortPipeline, shortBuffer, List.length_append, length_encU16,
        List.length_replicate, List.length_singleton, kIngressBufferSize, kSbeHeaderBytes]
      omega
    · simp only [shortPipeline, kIngressBufferSize, kSbeHeaderBytes, kMaxIngressPayload] at hlen ⊢
      omega
  header := SbeMessageHeader.ofBytes_of_holdsAt (List.prefix_append _ _)
  complete := le_rfl

/-- What is read as the document of the message. -/
theorem docOf_shortPipeline (hoff : t.docOffset = some off) (x : UInt8) :
    docOf t ((shortPipeline qs t len off x).buffer.drop kSbeHeaderBytes) =
      decU64 (List.replicate 7 0 ++ [x]) := by
  rw [docOf, hoff]
  dsimp only [shortPipeline, shortBuffer]
  rw [List.drop_left' (by simp [kSbeHeaderBytes]), u64At, slice,
    List.drop_left' (List.length_replicate), List.take_left' (by simp)]

/-- The message itself does not show the last byte. -/
theorem take_shortBuffer (h : len.toNat < off + 8) (x y : UInt8) :
    (shortBuffer t len off x).take (kSbeHeaderBytes + len.toNat) =
      (shortBuffer t len off y).take (kSbeHeaderBytes + len.toNat) := by
  set own := encU16 len ++ encU16 t.id ++ encU16 kSchemaId ++ encU16 kSchemaVersion ++
    List.replicate off 0 ++ List.replicate 7 0 with hown
  have hsplit : ∀ z, shortBuffer t len off z = own ++
      ([z] ++ List.replicate (kIngressBufferSize - kSbeHeaderBytes - off - 8) 0) := fun z => by
    simp only [shortBuffer, hown, List.append_assoc]
  have hle : kSbeHeaderBytes + len.toNat ≤ own.length := by
    simp only [hown, List.length_append, length_encU16, List.length_replicate, kSbeHeaderBytes]
    omega
  rw [hsplit, hsplit, List.take_append_of_le_length hle, List.take_append_of_le_length hle]

/-- With two inboxes or more, the last byte of the document matters. -/
theorem exists_partitionOf_ne : ∀ n ∈ List.range (kMaxPartitions + 1), 2 ≤ n → ∃ x < 4,
    partitionOf n (decU64 (List.replicate 7 0 ++ [UInt8.ofNat x])) ≠
      partitionOf n (decU64 (List.replicate 7 0 ++ [0])) := by
  decide +kernel

theorem partitionOf_lt {n : ℕ} (h : 1 ≤ n) (hn : n ≤ kMaxPartitions) (doc : UInt64) :
    (partitionOf n doc).toNat < n := by
  unfold kMaxPartitions at hn
  have hmask : (UInt32.ofNat n - 1).toUInt64.toNat = n - 1 := by
    rw [UInt32.toNat_toUInt64, UInt32.toNat_sub_of_le, UInt32.toNat_ofNat_of_lt' (by
      simp only [UInt32.size]; omega)]
    · rfl
    · rw [UInt32.le_iff_toNat_le, UInt32.toNat_ofNat_of_lt' (by simp only [UInt32.size]; omega)]
      exact h
  have hle : (mix64 doc &&& (UInt32.ofNat n - 1).toUInt64).toNat ≤ n - 1 := by
    rw [UInt64.toNat_and, hmask]
    exact Nat.and_le_right
  rw [partitionOf, UInt64.toNat_toUInt16]
  omega

theorem docInBlock_of_routesAlike (hn : qs.length ≤ kMaxPartitions)
    (hlen : len.toNat ≤ kMaxIngressPayload) (h : RoutesAlike qs t len) :
    t.isBroadcast = true ∨ qs.length ≤ 1 ∨ t.docInBlock len := by
  by_contra hnone
  push Not at hnone
  obtain ⟨hb, hmany, hdoc⟩ := hnone
  obtain ⟨off, hoff⟩ : ∃ off, t.docOffset = some off := by
    cases t <;> simp_all [Tmpl.docOffset, Tmpl.isBroadcast]
  have hshort : len.toNat < off + 8 := by
    by_contra hin
    exact hdoc ⟨off, hoff, by omega⟩
  obtain ⟨x, -, hx⟩ := exists_partitionOf_ne qs.length (List.mem_range.mpr (by omega)) (by omega)
  have hle := docOffset_le hoff
  have hlt := partitionOf_lt (by omega) hn (decU64 (List.replicate 7 0 ++ [UInt8.ofNat x]))
  have hsame := h (shortPipeline qs t len off (UInt8.ofNat x))
    (shortPipeline qs t len off 0) rfl rfl
    (fronts_shortPipeline hlen hle _) (fronts_shortPipeline hlen hle _)
    (take_shortBuffer hshort _ _) _ hlt
  rw [IngressPipeline.frontIsFor, IngressPipeline.frontIsFor, isFor, isFor,
    docOf_shortPipeline hoff, docOf_shortPipeline hoff, Bool.eq_false_of_not_eq_true hb,
    Bool.false_or, Bool.false_or] at hsame
  have hother := of_decide_eq_true (hsame.symm.trans (decide_eq_true rfl))
  exact hx (UInt16.toNat_inj.mp hother.symm)

end Short

/-- **What routing depends on.** The inboxes of a message are those that `frontIsFor` tells; and a
message is routed by its own bytes exactly when it goes to all inboxes, there is no other inbox, or
its block is long enough to hold the account. -/
theorem routesAlike_iff {qs : List (Option Inbox)} (hn : qs.length ≤ kMaxPartitions) (t : Tmpl)
    {len : UInt16} (hlen : len.toNat ≤ kMaxIngressPayload) :
    (∀ (p : IngressPipeline) (nowNs : UInt64), (p.dispatchFront t nowNs hlen).2.inboxes =
      if (p.dispatchFront t nowNs hlen).1.code = .wouldBlock then p.inboxes else
        publishTo (p.frontIsFor t) (p.frameAt ⟨len, t.id, kSchemaId, kSchemaVersion⟩ nowNs hlen)
          p.inboxes) ∧
      (RoutesAlike qs t len ↔ t.isBroadcast = true ∨ qs.length ≤ 1 ∨ t.docInBlock len) :=
  ⟨fun p nowNs => p.dispatchFront_publishTo t nowNs hlen,
    docInBlock_of_routesAlike hn hlen, routesAlike_of_docInBlock⟩

/-- A trade of 24 bytes holds its account. -/
theorem routesAlike_iff_trade : RoutesAlike [some .empty, some .empty] .tradeExecuted 24 :=
  (routesAlike_iff (by decide) .tradeExecuted (by decide)).2.mpr (.inr (.inr ⟨16, rfl, by decide⟩))

/-- The account of a trade without a payload is not its own. -/
theorem not_forall_routesAlike : ¬ ∀ (qs : List (Option Inbox)) (t : Tmpl) (len : UInt16),
    len.toNat ≤ kMaxIngressPayload → RoutesAlike qs t len := by
  intro hall
  have h := hall [some .empty, some .empty] .tradeExecuted 0 (by decide)
  obtain hb | hone | ⟨off, hoff, hin⟩ := docInBlock_of_routesAlike (by decide) (by decide) h
  · cases hb
  · exact absurd hone (by decide)
  · cases hoff
    exact absurd hin (by decide)

end MotorRv
