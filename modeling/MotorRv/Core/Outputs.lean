import MotorRv.Core.Apply
import MotorRv.Core.OutboxQueue

/-!
# What an event puts into the outbox

A handler touches the outbox only where it publishes a position. Whatever the handler and whatever
its answer, the pending entries stay and those it adds come after them, with the LSN of the event;
the outbox is neither frozen nor released on the way.

`StagesAt lsn` is carried through the handlers by the rules of the library for postconditions; it
holds of every part but publishing for the simple reason that the part does not look at the outbox,
and of publishing by the specification of `stage`. An event with two positions stages two entries,
both with its own LSN. If the handler ends fatally behind an entry, the entry is staged all the
same; that it never leaves is because the partition then freezes the outbox.
-/

namespace MotorRv

open Lib

/-- The entries `es` have been staged under an LSN, and nothing else has happened. -/
structure Outbox.Grows (o : Outbox) (lsn : ℕ) (es : List OutboxEntry) (o' : Outbox) : Prop where
  pending : o'.pendingEntries = o.pendingEntries ++ es
  lsn_eq : ∀ x ∈ es, x.lsn = lsn
  head_eq : o'.head = o.head
  slots_eq : o'.slots.length = o.slots.length
  frozen_eq : o'.frozen = o.frozen
  count_le : o.count ≤ o.slots.length → o'.count ≤ o'.slots.length

namespace Outbox

variable {o o' o'' : Outbox} {lsn : ℕ} {es es' : List OutboxEntry}

/-- An outbox grows by nothing. -/
theorem Grows.refl (o : Outbox) (lsn : ℕ) : o.Grows lsn [] o where
  pending := (List.append_nil _).symm
  lsn_eq _ hx := absurd hx List.not_mem_nil
  head_eq := rfl
  slots_eq := rfl
  frozen_eq := rfl
  count_le h := h

/-- An outbox that grows twice grows by both. -/
theorem Grows.trans (h : o.Grows lsn es o') (h' : o'.Grows lsn es' o'') :
    o.Grows lsn (es ++ es') o'' where
  pending := by rw [h'.pending, h.pending, List.append_assoc]
  lsn_eq x hx := by
    obtain hx | hx := List.mem_append.mp hx
    · exact h.lsn_eq x hx
    · exact h'.lsn_eq x hx
  head_eq := h'.head_eq.trans h.head_eq
  slots_eq := h'.slots_eq.trans h.slots_eq
  frozen_eq := h'.frozen_eq.trans h.frozen_eq
  count_le hle := h'.count_le (h.count_le hle)

/-- An outbox starts with a ring and nothing pending. -/
theorem fresh_of_init {a a' : Arena} {slots payloadBytes : UInt32}
    (h : init a slots payloadBytes = .ok (some o, a')) : o.head < o.slots.length ∧ o.count = 0 := by
  unfold init at h
  split at h
  · cases h
  · rename_i n hn
    split at h
    · obtain ⟨ho, -⟩ := Prod.mk.inj (Except.ok.inj h)
      obtain rfl := Option.some.inj ho
      obtain ⟨k, -, rfl⟩ := List.mem_map.mp (List.mem_of_find?_eq_some hn)
      refine ⟨?_, rfl⟩
      simp [fresh]
    · cases h

/-- A call to `stage` stages at most one entry. -/
theorem grows_of_stage {kind : OutKind} {payload : Bytes} {st : Status}
    (h : o.stage lsn kind payload = .ok (st, o')) : ∃ es, o.Grows lsn es o' := by
  unfold stage at h
  dsimp only at h
  split_ifs at h with hfull hlen
  · obtain ⟨-, rfl⟩ := Prod.mk.inj (Except.ok.inj h)
    exact ⟨[], .refl o lsn⟩
  · obtain ⟨-, rfl⟩ := Prod.mk.inj (Except.ok.inj h)
    exact ⟨[], .refl o lsn⟩
  · split at h
    · obtain ⟨-, rfl⟩ := Prod.mk.inj (Except.ok.inj h)
      exact ⟨[], .refl o lsn⟩
    · rename_i at_ _
      split_ifs at h
      obtain ⟨-, rfl⟩ := Prod.mk.inj (Except.ok.inj h)
      refine ⟨[⟨lsn, at_, payload.length % 2 ^ 32 % 2 ^ 16, kind⟩], ?_, ?_, rfl, List.length_set,
        rfl, fun _ => ?_⟩
      · exact pendingEntries_push (not_le.mp hfull) _
      · intro x hx
        rw [List.mem_singleton.mp hx]
      · dsimp only
        rw [List.length_set]
        omega

end Outbox

/-- The outbox of an engine, if it has one, only grows by entries with this LSN. -/
def Stages (lsn : ℕ) (e e' : Engine) : Prop :=
  ∀ o, e.outbox = some o → ∃ o' es, e'.outbox = some o' ∧ o.Grows lsn es o'

instance (lsn : ℕ) : IsPreorder Engine (Stages lsn) where
  refl e o ho := ⟨o, [], ho, .refl o lsn⟩
  trans e e' e'' h h' o ho := by
    obtain ⟨o', es, ho', hgrows⟩ := h o ho
    obtain ⟨o'', es', ho'', hgrows'⟩ := h' o' ho'
    exact ⟨o'', es ++ es', ho'', hgrows.trans hgrows'⟩

namespace Apply

open Proc

variable {α : Type} {lsn : ℕ}

/-- A procedure that stages nothing but entries with this LSN. -/
abbrev StagesAt (lsn : ℕ) (m : Apply α) : Prop := Respects (Stages lsn) m

/-- A change of the state stages nothing. -/
theorem stagesAt_change (f : PartitionState → Exec PartitionState) :
    StagesAt lsn (change f) := by
  refine .update fun e e' h o ho => ?_
  obtain ⟨s, -, rfl⟩ := map_eq_ok.mp h
  exact ⟨o, [], ho, .refl o lsn⟩

/-- Interning stages nothing. -/
theorem stagesAt_ask (f : PartitionState → α × PartitionState) : StagesAt lsn (ask f) :=
  .act fun _ o ho => ⟨o, [], ho, .refl o lsn⟩

theorem stagesAt_decode (t : Tmpl) (ofBytes : Bytes → α) (ev : EventView) :
    StagesAt lsn (decode t ofBytes ev) :=
  .bind (.guard _ _) fun _ => .pure _

theorem stagesAt_account (doc : UInt64) : StagesAt lsn (account doc) :=
  .bind (stagesAt_ask _) fun _ => .orFail _ _

theorem stagesAt_instrument (externalId : UInt32) : StagesAt lsn (instrument externalId) :=
  .bind (stagesAt_ask _) fun _ => .orFail _ _

theorem stagesAt_position (acct inst : ℕ) : StagesAt lsn (position acct inst) :=
  .bind (stagesAt_ask _) fun _ => .orFail _ _

theorem stagesAt_slot (date : DateYmd) : StagesAt lsn (slot date) :=
  .bind (.query _) fun _ => .orFail _ _

theorem stagesAt_checkBuckets (pos : ℕ) : StagesAt lsn (checkBuckets pos) :=
  .bind (.query _) fun _ => .guard _ _

theorem stagesAt_refusedBy (actionId : UInt64) (r : OpenTable.Inserted Unit) :
    StagesAt lsn (refusedBy actionId r) := by
  cases r with
  | present v => exact .fail _
  | added => exact .pure _
  | full => exact .fail _

theorem stagesAt_consumeAction (actionId : UInt64) (acct : ℕ) :
    StagesAt lsn (consumeAction actionId acct) :=
  .bind (stagesAt_ask _) fun r => stagesAt_refusedBy actionId r

theorem stagesAt_consumeIncome (actionId : UInt64) (acct : ℕ) :
    StagesAt lsn (consumeIncome actionId acct) :=
  .bind (stagesAt_ask _) fun r => stagesAt_refusedBy actionId r

theorem stagesAt_advanceAccount (acct : ℕ) (covered : TradeRow → Bool) (g : TradeTrigger) :
    StagesAt lsn (advanceAccount acct covered g) := by
  intro e r e' h o ho
  simp only [advanceAccount, bind, except_bind_eq_ok] at h
  obtain ⟨a, -, ⟨n, rows⟩, -, h⟩ := h
  obtain ⟨-, rfl⟩ := Prod.mk.inj (Except.ok.inj h)
  exact ⟨o, [], ho, .refl o lsn⟩

/-- The one place where something is staged. -/
theorem stagesAt_publicaPosicao (ev : EventView) (pos : ℕ) :
    StagesAt ev.lsn (publicaPosicao ev pos) := by
  intro e r e' h o ho
  unfold publicaPosicao at h
  rw [ho] at h
  simp only [bind, except_bind_eq_ok] at h
  obtain ⟨c, -, a, -, i, -, ⟨st, o'⟩, hstage, h⟩ := h
  obtain ⟨es, hgrows⟩ := Outbox.grows_of_stage hstage
  dsimp only at h
  split_ifs at h
  · obtain ⟨-, rfl⟩ := Prod.mk.inj (Except.ok.inj h)
    exact ⟨o', es, rfl, hgrows⟩
  · obtain ⟨-, rfl⟩ := Prod.mk.inj (Except.ok.inj h)
    exact ⟨o', es, rfl, hgrows⟩

/-! ### Handlers -/

theorem stagesAt_applyDayOpened (ev : EventView) : StagesAt ev.lsn (applyDayOpened ev) := by
  refine .bind (stagesAt_decode _ _ _) fun e => ?_
  refine .bind (.guard _ _) fun _ => ?_
  refine .bind (.query _) fun today => ?_
  exact .bind (.guard _ _) fun _ => stagesAt_change _

/-- An execution stages the update of its position. -/
theorem stagesAt_applyTradeExecuted (ev : EventView) :
    StagesAt ev.lsn (applyTradeExecuted ev) := by
  refine .bind (stagesAt_decode _ _ _) fun e => ?_
  refine .bind (.query _) fun full => .bind (.guard _ _) fun _ => ?_
  refine .bind (.query _) fun known => .bind (.guard _ _) fun _ => ?_
  refine .bind (stagesAt_account _) fun acct => .bind (stagesAt_instrument _) fun inst => ?_
  refine .bind (.query _) fun described => .bind (.guard _ _) fun _ => ?_
  refine .bind (stagesAt_slot _) fun k => .bind (stagesAt_position _ _) fun pos => ?_
  refine .bind (.guard _ _) fun _ => .bind (.guard _ _) fun _ => .bind (.guard _ _) fun _ => ?_
  refine .bind (.query _) fun gross => .bind (.orFail _ _) fun fees => ?_
  refine .bind (.query _) fun c => .bind (.guard _ _) fun _ => .bind (.query _) fun cash => ?_
  refine .bind (stagesAt_change _) fun _ => .bind (stagesAt_change _) fun _ => ?_
  refine .bind (stagesAt_change _) fun _ => .bind (stagesAt_checkBuckets _) fun _ => ?_
  exact stagesAt_publicaPosicao ev pos

theorem stagesAt_moveAllocation (e : TradeAllocated) (k : Fin 3) (de para inst t : ℕ) :
    StagesAt lsn (moveAllocation e k de para inst t) := by
  refine .bind (stagesAt_ask _) fun rDe => .bind (stagesAt_ask _) fun rPara => ?_
  refine .bind (.orFail _ _) fun posDe => .bind (.orFail _ _) fun posPara => ?_
  refine .bind ?_ fun _ => .bind (stagesAt_change _) fun _ => ?_
  · refine .bind (.query _) fun a => .bind (.query _) fun b => ?_
    exact .bind (.guard _ _) fun _ => .guard _ _
  · refine .bind (stagesAt_change _) fun _ => .bind (stagesAt_change _) fun _ => ?_
    refine .bind (stagesAt_change _) fun _ => .bind (stagesAt_change _) fun _ => ?_
    exact .bind (stagesAt_checkBuckets _) fun _ => stagesAt_checkBuckets _

/-- An allocation stages the updates of its two positions. -/
theorem stagesAt_applyTradeAllocated (ev : EventView) :
    StagesAt ev.lsn (applyTradeAllocated ev) := by
  refine .bind (stagesAt_decode _ _ _) fun e => ?_
  refine .bind (.query _) fun found => .bind (.orFail _ _) fun t => ?_
  refine .bind (.query _) fun trade => .bind (.query _) fun next => ?_
  refine .bind (.guard _ _) fun _ => ?_
  refine .bind (stagesAt_ask _) fun rDe => .bind (stagesAt_ask _) fun rPara => ?_
  refine .bind (.orFail _ _) fun de => .bind (.orFail _ _) fun para => ?_
  refine .bind (stagesAt_slot _) fun k => .bind (.guard _ _) fun _ => ?_
  exact .bind (.ite (stagesAt_moveAllocation _ _ _ _ _ _) (.pure _)) fun _ => stagesAt_change _

theorem stagesAt_applyBatchNetted (ev : EventView) : StagesAt ev.lsn (applyBatchNetted ev) := by
  refine .bind (stagesAt_decode _ _ _) fun e => .bind (stagesAt_account _) fun acct => ?_
  refine .bind (stagesAt_slot _) fun k => .bind (.query _) fun a => ?_
  refine .bind (.ite (.bind (stagesAt_change _) fun _ => .fail _) (.pure _)) fun _ => ?_
  refine .bind (stagesAt_advanceAccount _ _ _) fun counted => ?_
  exact .ite (stagesAt_change _) (.pure _)

/-- The buckets are moved without staging anything. -/
theorem stagesAt_settleBuckets (e : TradeSettled) (acct pos : ℕ) (outcome : SettleOutcome) :
    StagesAt lsn (settleBuckets e acct pos outcome) := by
  cases outcome with
  | settled =>
    refine .bind (stagesAt_slot _) fun k => .bind (.query _) fun c => ?_
    exact .bind (.guard _ _) fun _ => .bind (stagesAt_change _) fun _ => stagesAt_change _
  | deliveryFailure =>
    refine .bind (stagesAt_slot _) fun k => .bind (.query _) fun c => ?_
    refine .bind (.guard _ _) fun _ => .bind (stagesAt_change _) fun _ => ?_
    exact .bind (stagesAt_change _) fun _ => stagesAt_change _
  | boughtIn =>
    refine .bind (.query _) fun c => .bind (.guard _ _) fun _ => ?_
    exact .bind (stagesAt_change _) fun _ => stagesAt_change _

/-- A settlement stages the update of its position. -/
theorem stagesAt_applyTradeSettled (ev : EventView) : StagesAt ev.lsn (applyTradeSettled ev) := by
  refine .bind (stagesAt_decode _ _ _) fun e => ?_
  refine .bind (stagesAt_account _) fun acct => .bind (stagesAt_instrument _) fun inst => ?_
  refine .bind (.query _) fun found => .bind (.orFail _ _) fun pos => ?_
  refine .bind (.orFail _ _) fun outcome => .bind (stagesAt_settleBuckets _ _ _ _) fun _ => ?_
  refine .bind (stagesAt_advanceAccount _ _ _) fun _ => ?_
  exact .bind (stagesAt_checkBuckets _) fun _ => stagesAt_publicaPosicao ev pos

/-- The rows are changed without staging anything. -/
theorem stagesAt_actOn (e : CorporateActionApplied) (acct pos : ℕ) (base : Raw)
    (type : ActionType) : StagesAt lsn (actOn e acct pos base type) := by
  have hsplit : StagesAt lsn (actSplit e pos base) :=
    .bind (stagesAt_change _) fun _ => .bind (.query _) fun c => .bind (.query _) fun t => .query _
  cases type with
  | split => exact hsplit
  | reverseSplit => exact hsplit
  | bonus =>
    refine .bind (.query _) fun x => .bind (.query _) fun whole => .bind (.guard _ _) fun _ => ?_
    exact .bind (.query _) fun cost => .bind (stagesAt_change _) fun _ => .query _
  | subscription =>
    refine .bind (.ite (.bind (.query _) fun x => .guard _ _) (.pure _)) fun _ => ?_
    exact .bind (stagesAt_change _) fun _ => .bind (stagesAt_change _) fun _ => .pure _
  | leftoversAuction =>
    refine .bind (.query _) fun c => .bind (.query _) fun delta => ?_
    exact .bind (stagesAt_change _) fun _ => .bind (stagesAt_change _) fun _ => .pure _

/-- An action stages the update of its position. -/
theorem stagesAt_applyCorporateAction (ev : EventView) :
    StagesAt ev.lsn (applyCorporateAction ev) := by
  refine .bind (stagesAt_decode _ _ _) fun e => ?_
  refine .bind (stagesAt_account _) fun acct => .bind (stagesAt_instrument _) fun inst => ?_
  refine .bind (stagesAt_position _ _) fun pos => .bind (.orFail _ _) fun type => ?_
  refine .bind (.guard _ _) fun _ => .bind (stagesAt_consumeAction _ _) fun _ => ?_
  refine .bind (.query _) fun c => .bind (.query _) fun base => ?_
  refine .bind (stagesAt_actOn _ _ _ _ _) fun delta => .bind (stagesAt_change _) fun _ => ?_
  refine .bind (.ite (stagesAt_change _) (.pure _)) fun _ => ?_
  exact .bind (stagesAt_checkBuckets _) fun _ => stagesAt_publicaPosicao ev pos

theorem stagesAt_applyDividendPaid (ev : EventView) : StagesAt ev.lsn (applyDividendPaid ev) := by
  refine .bind (stagesAt_decode _ _ _) fun e => .bind (stagesAt_account _) fun acct => ?_
  refine .bind (.query _) fun net => .bind (.guard _ _) fun _ => .bind (.guard _ _) fun _ => ?_
  refine .bind (.query _) fun expected => ?_
  refine .bind (.ite (.bind (stagesAt_change _) fun _ => .fail _) (.pure _)) fun _ => ?_
  exact .bind (stagesAt_consumeIncome _ _) fun _ => stagesAt_change _

theorem stagesAt_applyClosingPrice (ev : EventView) : StagesAt ev.lsn (applyClosingPrice ev) := by
  refine .bind (stagesAt_decode _ _ _) fun e => .bind (.guard _ _) fun _ => ?_
  exact .bind (stagesAt_instrument _) fun inst => stagesAt_change _

theorem stagesAt_applyCustodyReconciled (ev : EventView) :
    StagesAt ev.lsn (applyCustodyReconciled ev) := by
  refine .bind (stagesAt_decode _ _ _) fun date => ?_
  exact .bind (.ofExcept _) fun ds => stagesAt_change _

theorem stagesAt_applyEodMarked (ev : EventView) : StagesAt ev.lsn (applyEodMarked ev) := by
  refine .bind (stagesAt_decode _ _ _) fun e => ?_
  refine .bind (.query _) fun custody => .bind (.query _) fun cash => ?_
  exact .bind (.guard _ _) fun _ => stagesAt_change _

/-- Every handler stages under the LSN of its record. -/
theorem stagesAt_dispatch (ev : EventView) : StagesAt ev.lsn (dispatch ev) := by
  unfold dispatch
  split
  · rename_i t _
    cases t with
    | dayOpened => exact stagesAt_applyDayOpened ev
    | tradeExecuted => exact stagesAt_applyTradeExecuted ev
    | tradeAllocated => exact stagesAt_applyTradeAllocated ev
    | batchNetted => exact stagesAt_applyBatchNetted ev
    | tradeSettled => exact stagesAt_applyTradeSettled ev
    | corporateActionApplied => exact stagesAt_applyCorporateAction ev
    | dividendPaid => exact stagesAt_applyDividendPaid ev
    | closingPriceSet => exact stagesAt_applyClosingPrice ev
    | custodyReconciled => exact stagesAt_applyCustodyReconciled ev
    | eodMarked => exact stagesAt_applyEodMarked ev
  · exact .fail _

end Apply

/-- Whatever `apply` answers, it has staged entries of its own event, behind the pending ones. -/
theorem grows_of_apply {s : PartitionState} {o : Outbox} {ev : EventView} {st : Status} {e : Engine}
    (h : apply ⟨s, some o⟩ ev = .ok (st, e)) :
    ∃ o' es, e.outbox = some o' ∧ o.Grows ev.lsn es o' := by
  simp only [apply, bind, except_bind_eq_ok] at h
  obtain ⟨⟨r, e'⟩, hdispatch, h⟩ := h
  obtain ⟨-, rfl⟩ := Prod.mk.inj (Except.ok.inj h)
  exact Apply.stagesAt_dispatch ev _ r e' hdispatch o rfl

end MotorRv
