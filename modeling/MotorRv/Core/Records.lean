import MotorRv.Codec.Encode
import MotorRv.Core.Effects

/-!
# The record of an event

Every event has a record that stands for it; the group of a reconciliation holds at most sixteen
divergences.

`Event.payload` encodes an event with the encoders of the codec, `Event.record` numbers it, and
`LogRecord.event` reads it back. Through it a feed of events is a list of records to apply, and
statements about records can be illustrated by events.

The runs that illustrate the theorems of other modules are checked in one evaluation: a run from the
initial state computes its steps, and a decidable test on steps and last state is evaluated together
with it (`exists_of_passes`, `exists_of_runPasses`), so that the state itself never has to be
written down.
-/

namespace MotorRv

open Lib PartitionState

/-- The id of a template. -/
def Tmpl.id : Tmpl → UInt16
  | .dayOpened => 1
  | .tradeExecuted => 2
  | .tradeAllocated => 3
  | .batchNetted => 4
  | .tradeSettled => 5
  | .corporateActionApplied => 6
  | .dividendPaid => 7
  | .closingPriceSet => 8
  | .custodyReconciled => 9
  | .eodMarked => 10

theorem Tmpl.ofId_id (t : Tmpl) : Tmpl.ofId t.id.toNat = some t := by
  cases t <;> rfl

def Divergence.encode (d : Divergence) : Bytes :=
  encU64 d.account ++ encI64 d.qtyDelta ++ encU32 d.instrument ++ pad 4

/-- A group, after its header. -/
def encodeGroup (ds : List Divergence) : Bytes :=
  encU16 24 ++ encU16 (UInt16.ofNat ds.length) ++ pad 4 ++ ds.flatMap Divergence.encode

/-- The template and the payload of an event. -/
def Event.payload : Event → Tmpl × Bytes
  | .dayOpened e => (.dayOpened, e.encode)
  | .tradeExecuted e => (.tradeExecuted, e.encode)
  | .tradeAllocated e => (.tradeAllocated, e.encode)
  | .batchNetted e => (.batchNetted, e.encode)
  | .tradeSettled e => (.tradeSettled, e.encode)
  | .corporateActionApplied e => (.corporateActionApplied, e.encode)
  | .dividendPaid e => (.dividendPaid, e.encode)
  | .closingPriceSet e => (.closingPriceSet, e.encode)
  | .custodyReconciled date ds => (.custodyReconciled, encU32 date ++ pad 12 ++ encodeGroup ds)
  | .eodMarked e => (.eodMarked, e.encode)

/-- The record of an event. -/
def Event.record (lsn : ℕ) (x : Event) : EventView := ⟨lsn, 0, x.payload.1.id, x.payload.2⟩

theorem Divergence.length_encode (d : Divergence) : d.encode.length = kDivergenceBytes := by
  simp [encode, kDivergenceBytes]

theorem Divergence.ofBytes_encode (d : Divergence) : ofBytes d.encode = d := by
  simp [ofBytes, encode, u64At, i64At, u32At, slice, List.drop_append, List.drop_of_length_le]

theorem viewGroup_encodeGroup {ds : List Divergence} (h : ds.length ≤ kMaxDivergence) :
    viewGroup (encodeGroup ds) = .ok ds := by
  have hcount : (UInt16.ofNat ds.length).toNat = ds.length := by
    rw [UInt16.toNat_ofNat']
    exact Nat.mod_eq_of_lt (by rw [kMaxDivergence] at h; omega)
  have hlen : (ds.flatMap Divergence.encode).length = ds.length * kDivergenceBytes := by
    rw [List.length_flatMap, List.map_congr_left fun d _ => d.length_encode, List.map_const',
      List.sum_replicate, smul_eq_mul]
  have hhead : u16At (encodeGroup ds) 0 = 24 ∧ (u16At (encodeGroup ds) 2).toNat = ds.length := by
    constructor
    · simp [u16At, encodeGroup, slice]
    · simp [u16At, encodeGroup, slice, hcount]
  have hbody : (encodeGroup ds).drop 8 = ds.flatMap Divergence.encode := by
    simp [encodeGroup, List.drop_append, List.drop_of_length_le]
  have hshort : ¬ (encodeGroup ds).length < 8 := by
    simp only [encodeGroup, List.length_append, length_encU16, length_pad]
    omega
  rw [viewGroup, if_neg hshort, hhead.1, if_neg (by decide), hhead.2, if_neg (by omega), hbody,
    if_neg (by omega)]
  congr 1
  refine List.ext_getElem (by simp) fun i h1 h2 => ?_
  rw [List.getElem_map, List.getElem_range, Nat.mul_comm,
    slice_flatMap _ Divergence.length_encode ds i h2, Divergence.ofBytes_encode]

/-- The events that fit in a record. -/
def Event.Fits : Event → Prop
  | .custodyReconciled _ ds => ds.length ≤ kMaxDivergence
  | _ => True

/-- **Round trip of events.** The record of an event stands for it. -/
theorem LogRecord.event_record {x : Event} (h : x.Fits) (lsn : ℕ) :
    LogRecord.event (x.record lsn) = some x := by
  have hblock : x.payload.1.blockLength ≤ x.payload.2.length := by
    cases x <;> simp [Event.payload, Tmpl.blockLength, DayOpened.encode, TradeExecuted.encode,
      TradeAllocated.encode, BatchNetted.encode, TradeSettled.encode,
      CorporateActionApplied.encode, DividendPaid.encode, ClosingPriceSet.encode, EodMarked.encode]
    omega
  have hevent : Event.ofPayload x.payload.2 x.payload.1 = some x := by
    cases x with
    | custodyReconciled date ds =>
      have hdrop : (encU32 date ++ pad 12 ++ encodeGroup ds).drop 16 = encodeGroup ds := by
        simp [List.drop_append, List.drop_of_length_le]
      have hdate : u32At (encU32 date ++ pad 12 ++ encodeGroup ds) 0 = date := by
        simp [u32At, slice]
      simp only [Event.payload, Event.ofPayload, Tmpl.blockLength, hdrop, hdate,
        viewGroup_encodeGroup h]
    | _ => simp only [Event.payload, Event.ofPayload, DayOpened.ofBytes_encode,
        TradeExecuted.ofBytes_encode, TradeAllocated.ofBytes_encode, BatchNetted.ofBytes_encode,
        TradeSettled.ofBytes_encode, CorporateActionApplied.ofBytes_encode,
        DividendPaid.ofBytes_encode, ClosingPriceSet.ofBytes_encode, EodMarked.ofBytes_encode]
  unfold LogRecord.event
  simp only [Event.record, Tmpl.ofId_id, if_pos hblock, hevent]

/-! ### Feeds -/

/-- The records of a feed, applied without an outbox. -/
def feed (xs : List Event) : List (EventView × Option Outbox) :=
  xs.mapIdx fun i x => (x.record (i + 1), none)

theorem event_of_mem_feed {xs : List Event} (h : ∀ x ∈ xs, x.Fits) {ev : EventView}
    (hev : ev ∈ (feed xs).map Prod.fst) : ∃ x ∈ xs, LogRecord.event ev = some x := by
  obtain ⟨r, hr, rfl⟩ := List.mem_map.mp hev
  obtain ⟨i, hi, rfl⟩ := List.mem_mapIdx.mp hr
  exact ⟨xs[i], List.getElem_mem hi, LogRecord.event_record (h _ (List.getElem_mem hi)) _⟩

/-! ### Checked runs -/

/-- The steps of a run. -/
def stepsOf : PartitionState → List (EventView × Option Outbox) → Exec (List Step × PartitionState)
  | s, [] => .ok ([], s)
  | s, (ev, o) :: evs => do
    let (st, e) ← apply ⟨s, o⟩ ev
    let (steps, s') ← stepsOf e.s evs
    .ok (⟨s, ev, st, e.s⟩ :: steps, s')

theorem session_of_stepsOf {s₀ : PartitionState} {evs : List (EventView × Option Outbox)} :
    ∀ {past steps : List Step} {s s' : PartitionState}, Session s₀ past s →
      stepsOf s evs = .ok (steps, s') → Session s₀ (past ++ steps) s' := by
  induction evs with
  | nil =>
    intro past steps s s' h hrun
    obtain ⟨rfl, rfl⟩ := Prod.mk.inj (Except.ok.inj hrun)
    rwa [List.append_nil]
  | cons x evs ih =>
    intro past steps s s' h hrun
    simp only [stepsOf, bind, except_bind_eq_ok] at hrun
    obtain ⟨⟨st, e⟩, happ, ⟨more, s''⟩, hmore, hrun⟩ := hrun
    obtain ⟨rfl, rfl⟩ := Prod.mk.inj (Except.ok.inj hrun)
    have := ih (h.event happ) hmore
    rwa [List.append_assoc] at this

/-- A run from the initial state, each step and the last state checked. -/
def passes (c : PartitionCapacity) (xs : List Event) (P : Step → Bool) (Q : PartitionState → Bool) :
    Bool :=
  match blank.init ⟨2 ^ 16, 0, false, false⟩ 1 c with
  | .ok (true, s₀, _) =>
    match stepsOf s₀ (feed xs) with
    | .ok (steps, s) => steps.all P && Q s
    | .error _ => false
  | _ => false

theorem exists_of_passes {c : PartitionCapacity} {xs : List Event} {P : Step → Bool}
    {Q : PartitionState → Bool} (h : passes c xs P Q = true) :
    ∃ s₀ arena₀ s steps, blank.init ⟨2 ^ 16, 0, false, false⟩ 1 c = .ok (true, s₀, arena₀) ∧
      Session s₀ steps s ∧ (∀ x ∈ steps, P x = true) ∧ Q s = true := by
  unfold passes at h
  split at h
  · next s₀ arena₀ hinit =>
    split at h
    · next steps s hrun =>
      obtain ⟨hsteps, hend⟩ := Bool.and_eq_true_iff.mp h
      exact ⟨s₀, arena₀, s, steps, hinit, session_of_stepsOf .start hrun,
        List.all_eq_true.mp hsteps, hend⟩
    · cases h
  · cases h

/-- A run from the initial state, its steps and the last state checked together. -/
def runPasses (c : PartitionCapacity) (xs : List Event)
    (R : List Step → PartitionState → Bool) : Bool :=
  match blank.init ⟨2 ^ 16, 0, false, false⟩ 1 c with
  | .ok (true, s₀, _) =>
    match stepsOf s₀ (feed xs) with
    | .ok (steps, s) => R steps s
    | .error _ => false
  | _ => false

theorem exists_of_runPasses {c : PartitionCapacity} {xs : List Event}
    {R : List Step → PartitionState → Bool} (h : runPasses c xs R = true) :
    ∃ s₀ arena₀ s steps, blank.init ⟨2 ^ 16, 0, false, false⟩ 1 c = .ok (true, s₀, arena₀) ∧
      Session s₀ steps s ∧ R steps s = true := by
  unfold runPasses at h
  split at h
  · next s₀ arena₀ hinit =>
    split at h
    · next steps s hrun => exact ⟨s₀, arena₀, s, steps, hinit, session_of_stepsOf .start hrun, h⟩
    · cases h
  · cases h

/-! ### Some runs -/

/-- Two and a half shares are bought and delivered. -/
def twoAndAHalf : List Event :=
  [.closingPriceSet quoted, .dayOpened firstDay,
    .tradeExecuted { boughtOne with qty := 250000000, price := 1000000000 },
    .tradeSettled ⟨1, 250000000, 0, 250001, 1, 20260903, 1, 1⟩]

/-- Three shares for two. -/
def threeForTwo : CorporateActionApplied := ⟨1, 1, 0, 0, 0, 0, 1, 20260901, 3, 2, 2, 0⟩

end MotorRv
