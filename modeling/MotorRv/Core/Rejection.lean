import MotorRv.Codec.Encode
import MotorRv.Core.Session

/-!
# Rejected events

A handler checks before it changes anything, so an event that is turned down should leave only
empty rows of identities it was the first to name, and records in the exception queue. Nine
handlers keep to this. The tenth uses up the idempotency key of a corporate action before the last
two of its checks: a bonus that would take shares away and a subscription above the right are
turned down with the key gone.

Three predicates carry the proof along a handler. `Quiet` parts lose nothing however they end:
lookups, checks and interning. `Fatal` parts may change whatever they like, but if they fail they
fail fatally, which is no rejection. A handler is a sequence of quiet parts followed by fatal ones,
so it `Rejects` well, and the proof of a handler is the observation of where the one kind ends and
the other begins.

For corporate actions the two late checks stand behind the consumption of the key, which is neither.
There the outcome is computed from the state before the event (`refusedLate`, `RefusedAfterKey`),
and `kept_iff_not_lateRefusal` is the equivalence, for every reachable state and every event.
-/

namespace MotorRv

open Lib PartitionState

/-- What a rejected event may leave behind: empty rows of new identities and exception records;
the LSN is not looked at. -/
structure Kept (s s' : PartitionState) : Prop where
  custody : ∃ new, s'.custody = s.custody ++ new ∧ ∀ c ∈ new, ∃ a i, c = CustodyRow.cleared a i
  accounts : ∃ new, s'.accounts = s.accounts ++ new ∧ ∀ a ∈ new, ∃ doc, a = AccountRow.cleared doc
  instruments : ∃ new, s'.instruments = s.instruments ++ new ∧
    ∀ i ∈ new, ∃ id, i = InstrumentRow.cleared id
  trades : s'.trades = s.trades
  tradeIndex : s'.tradeIndex = s.tradeIndex
  window : s'.window = s.window
  businessDate : s'.businessDate = s.businessDate
  prevBusinessDate : s'.prevBusinessDate = s.prevBusinessDate
  appliedActions : s'.appliedActions = s.appliedActions
  appliedIncome : s'.appliedIncome = s.appliedIncome
  flags : s'.flags = s.flags
  id : s'.id = s.id
  cap : s'.cap = s.cap

namespace Kept

variable {s s' : PartitionState}

theorem refl (s : PartitionState) : Kept s s :=
  ⟨⟨[], by simp⟩, ⟨[], by simp⟩, ⟨[], by simp⟩, rfl, rfl, rfl, rfl, rfl, rfl, rfl, rfl, rfl, rfl⟩

/-- Interning an account leaves what a rejection may leave: at most an empty row. -/
theorem internAccount (h : Kept s s') (doc : UInt64) : Kept s (s'.internAccount doc).2 := by
  unfold PartitionState.internAccount
  split_ifs
  · exact h
  · split
    · exact { h with }
    · exact { h with }
    · obtain ⟨new, hnew, hall⟩ := h.accounts
      refine { h with accounts := ⟨new ++ [AccountRow.cleared doc], ?_, ?_⟩ }
      · rw [hnew, List.append_assoc]
      · intro a ha
        rcases List.mem_append.mp ha with ha | ha
        · exact hall a ha
        · exact ⟨doc, List.mem_singleton.mp ha⟩

/-- Interning an instrument leaves at most an empty row. -/
theorem internInstrument (h : Kept s s') (id : UInt32) : Kept s (s'.internInstrument id).2 := by
  unfold PartitionState.internInstrument
  split_ifs
  · exact h
  · split
    · exact { h with }
    · exact { h with }
    · obtain ⟨new, hnew, hall⟩ := h.instruments
      refine { h with instruments := ⟨new ++ [InstrumentRow.cleared id], ?_, ?_⟩ }
      · rw [hnew, List.append_assoc]
      · intro i hi
        rcases List.mem_append.mp hi with hi | hi
        · exact hall i hi
        · exact ⟨id, List.mem_singleton.mp hi⟩

/-- Interning a position leaves at most an empty row. -/
theorem internPosition (h : Kept s s') (account instrument : ℕ) :
    Kept s (s'.internPosition account instrument).2 := by
  unfold PartitionState.internPosition
  split_ifs
  · exact h
  · split
    · exact { h with }
    · exact { h with }
    · obtain ⟨new, hnew, hall⟩ := h.custody
      refine { h with custody := ⟨new ++ [CustodyRow.cleared account instrument], ?_, ?_⟩ }
      · rw [hnew, List.append_assoc]
      · intro c hc
        rcases List.mem_append.mp hc with hc | hc
        · exact hall c hc
        · exact ⟨account, instrument, List.mem_singleton.mp hc⟩

/-- A record in the ring of exceptions is what a rejection may leave. -/
theorem pushException (h : Kept s s') (r : ExceptionRecord) :
    Kept s (s'.pushException r false) := by
  unfold PartitionState.pushException
  split
  · exact h
  · exact { h with }

end Kept

/-! ### Parts of handlers -/

namespace Apply

variable {α β : Type} {s₀ : PartitionState}

/-- Nothing of `s₀` is lost, however the part ends. -/
def Quiet (s₀ : PartitionState) (m : Apply α) : Prop :=
  Proc.Ensures (fun e : Engine => Kept s₀ e.s) m (fun _ e => Kept s₀ e.s) (fun _ e => Kept s₀ e.s)

/-- Nothing of `s₀` is lost when the part ends in a rejection. -/
def Rejects (s₀ : PartitionState) (m : Apply α) : Prop :=
  Proc.Ensures (fun e : Engine => Kept s₀ e.s) m (fun _ _ => True)
    (fun st e => st.isFatal = false → Kept s₀ e.s)

/-- The part can only fail fatally. -/
def Fatal (m : Apply α) : Prop :=
  Proc.Ensures (fun _ : Engine => True) m (fun _ _ => True) (fun st _ => st.isFatal = true)

/-- Quiet parts may stand before one that rejects. -/
theorem Rejects.bind {m : Apply α} {f : α → Apply β} (hm : Quiet s₀ m)
    (hf : ∀ a, Rejects s₀ (f a)) : Rejects s₀ (m >>= f) :=
  Proc.Ensures.bind (Proc.Ensures.mono hm (fun _ h => h) (fun _ _ h => h) fun _ _ h _ => h) hf

/-- Quiet parts can be put one after the other. -/
theorem Quiet.bind {m : Apply α} {f : α → Apply β} (hm : Quiet s₀ m) (hf : ∀ a, Quiet s₀ (f a)) :
    Quiet s₀ (m >>= f) := Proc.Ensures.bind hm hf

/-- Parts that can only fail fatally can be put one after the other. -/
theorem Fatal.bind {m : Apply α} {f : α → Apply β} (hm : Fatal m) (hf : ∀ a, Fatal (f a)) :
    Fatal (m >>= f) := Proc.Ensures.bind hm hf

/-- What a part that fails only fatally leaves behind a rejection. -/
theorem Fatal.unless {m : Apply α} (h : Fatal m) {E : Status → Engine → Prop} :
    Proc.Ensures (fun _ => True) m (fun _ _ => True) (fun st e => st.isFatal = false → E st e) :=
  Proc.Ensures.mono h (fun _ _ => trivial) (fun _ _ _ => trivial) fun st _ hst hn => by
    rw [hst] at hn
    simp at hn

/-- What only fails fatally never rejects, whatever it has changed. -/
theorem Fatal.rejects {m : Apply α} (h : Fatal m) : Rejects s₀ m :=
  Proc.Ensures.mono h.unless (fun _ _ => trivial) (fun _ _ _ => trivial) fun _ _ h => h

/-- A part that rejects only before it changes anything may be followed by one that fails only
fatally. -/
theorem Rejects.then {m : Apply α} {f : α → Apply β} (hm : Rejects s₀ m)
    (hf : ∀ a, Fatal (f a)) : Rejects s₀ (m >>= f) :=
  Proc.Ensures.bind hm fun a => (hf a).unless

/-! #### Parts that change nothing -/

theorem Quiet.pure (a : α) : Quiet s₀ (pure a : Apply α) := Proc.Ensures.pure fun _ h => h

theorem Quiet.fail (st : Status) : Quiet s₀ (Proc.fail st : Apply α) :=
  Proc.Ensures.fail fun _ h => h

/-- A guard is quiet: it leaves the state alone either way. -/
theorem Quiet.guard (c : Prop) [Decidable c] (st : Status) :
    Quiet s₀ (Proc.guard c st : Apply PUnit) := Proc.Ensures.guard (fun _ h _ => h) fun _ h _ => h

theorem Quiet.orFail (o : Option α) (st : Status) : Quiet s₀ (Proc.orFail o st : Apply α) :=
  Proc.Ensures.orFail (fun _ _ h _ => h) fun _ h _ => h

theorem Quiet.ofExcept (x : Except Status α) : Quiet s₀ (Proc.ofExcept x : Apply α) :=
  Proc.Ensures.ofExcept (fun _ _ h _ => h) fun _ _ h _ => h

theorem Quiet.lift (x : Exec α) : Quiet s₀ (Proc.lift x : Apply α) :=
  Proc.Ensures.query fun _ _ h _ => h

/-- Looking at the state is quiet. -/
theorem Quiet.look (f : PartitionState → Exec α) : Quiet s₀ (look f) :=
  Proc.Ensures.query fun _ _ h _ => h

/-- A payload that is too short is refused before anything is touched. -/
theorem quiet_decode (t : Tmpl) (ofBytes : Bytes → α) (ev : EventView) :
    Quiet s₀ (decode t ofBytes ev) := .bind (.guard _ _) fun _ => .pure _

theorem quiet_slot (date : DateYmd) : Quiet s₀ (slot date) :=
  .bind (.look _) fun _ => .orFail _ _

/-! #### Parts that intern or record -/

/-- Interning is quiet where it adds empty rows only. -/
theorem Quiet.ask {f : PartitionState → α × PartitionState}
    (hf : ∀ s, Kept s₀ s → Kept s₀ (f s).2) : Quiet s₀ (ask f) :=
  Proc.Ensures.act fun e h => hf e.s h

theorem quiet_account (doc : UInt64) : Quiet s₀ (account doc) :=
  .bind (.ask fun _ h => h.internAccount doc) fun _ => .orFail _ _

theorem quiet_instrument (id : UInt32) : Quiet s₀ (instrument id) :=
  .bind (.ask fun _ h => h.internInstrument id) fun _ => .orFail _ _

theorem quiet_position (a i : ℕ) : Quiet s₀ (position a i) :=
  .bind (.ask fun _ h => h.internPosition a i) fun _ => .orFail _ _

/-- A change of the state is quiet where it leaves what a rejection may leave. -/
theorem Quiet.change {f : PartitionState → Exec PartitionState}
    (hf : ∀ s s', Kept s₀ s → f s = .ok s' → Kept s₀ s') : Quiet s₀ (change f) :=
  Proc.Ensures.update fun e e' h h' => by
    obtain ⟨s', hs', rfl⟩ := map_eq_ok.mp h'
    exact hf e.s s' h hs'

theorem quiet_pushException (r : ExceptionRecord) : Quiet s₀ (pushException r false) :=
  .change fun _ _ h hs => Except.ok.inj hs ▸ h.pushException r

/-! #### Parts that change the state for good -/

theorem Fatal.pure (a : α) : Fatal (pure a : Apply α) := Proc.Ensures.pure fun _ _ => trivial

theorem Fatal.look (f : PartitionState → Exec α) : Fatal (look f) :=
  Proc.Ensures.query fun _ _ _ _ => trivial

/-- A change of the state does not fail at all. -/
theorem Fatal.change (f : PartitionState → Exec PartitionState) : Fatal (change f) :=
  Proc.Ensures.update fun _ _ _ _ => trivial

/-- A guard whose failure stops the partition. -/
theorem Fatal.guard (c : Prop) [Decidable c] {st : Status} (h : st.isFatal = true) :
    Fatal (Proc.guard c st : Apply PUnit) :=
  Proc.Ensures.guard (fun _ _ _ => trivial) fun _ _ _ => h

/-- A value whose absence stops the partition. -/
theorem Fatal.orFail (o : Option α) {st : Status} (h : st.isFatal = true) :
    Fatal (Proc.orFail o st : Apply α) :=
  Proc.Ensures.orFail (fun _ _ _ _ => trivial) fun _ _ _ => h

theorem Fatal.lift (x : Exec α) : Fatal (Proc.lift x : Apply α) :=
  Proc.Ensures.query fun _ _ _ _ => trivial

theorem Fatal.ite {c : Prop} [Decidable c] {m n : Apply α} (hm : Fatal m) (hn : Fatal n) :
    Fatal (if c then m else n) := Proc.Ensures.ite (fun _ => hm) fun _ => hn

/-- A negative bucket stops the partition. -/
theorem fatal_checkBuckets (pos : ℕ) : Fatal (checkBuckets pos) :=
  .bind (.look _) fun _ => .guard _ rfl

theorem fatal_advanceAccount (acct : ℕ) (covered : TradeRow → Bool) (g : TradeTrigger) :
    Fatal (advanceAccount acct covered g) := by
  rintro e (st | n) e' - h
  · simp only [advanceAccount, bind, except_bind_eq_ok] at h
    obtain ⟨a, -, ⟨n, rows⟩, -, h⟩ := h
    simp at h
  · trivial

/-- An outbox without room stops the partition. -/
theorem fatal_publicaPosicao (ev : EventView) (pos : ℕ) : Fatal (publicaPosicao ev pos) := by
  rintro e (st | n) e' - h
  · unfold publicaPosicao at h
    split at h
    · simp at h
    · simp only [bind, except_bind_eq_ok] at h
      obtain ⟨c, -, a, -, i, -, ⟨st', o'⟩, -, h⟩ := h
      split_ifs at h
      · simp at h
      · obtain ⟨h, -⟩ := Prod.mk.inj (Except.ok.inj h)
        rw [← Except.error.inj h]
        rfl
  · trivial

/-! ### Handlers -/

theorem rejects_applyDayOpened (ev : EventView) : Rejects s₀ (applyDayOpened ev) := by
  refine .bind (quiet_decode _ _ _) fun e => ?_
  refine .bind (.guard _ _) fun _ => ?_
  refine .bind (.look _) fun today => ?_
  refine .bind (.guard _ _) fun _ => ?_
  exact (Fatal.change _).rejects

/-- All the checks of an execution come before its first change. -/
theorem rejects_applyTradeExecuted (ev : EventView) : Rejects s₀ (applyTradeExecuted ev) := by
  refine .bind (quiet_decode _ _ _) fun e => ?_
  refine .bind (.look _) fun full => ?_
  refine .bind (.guard _ _) fun _ => ?_
  refine .bind (.look _) fun known => ?_
  refine .bind (.guard _ _) fun _ => ?_
  refine .bind (quiet_account _) fun acct => ?_
  refine .bind (quiet_instrument _) fun inst => ?_
  refine .bind (.look _) fun described => ?_
  refine .bind (.guard _ _) fun _ => ?_
  refine .bind (quiet_slot _) fun k => ?_
  refine .bind (quiet_position _ _) fun pos => ?_
  refine .bind (.guard _ _) fun _ => ?_
  refine .bind (.guard _ _) fun _ => ?_
  refine .bind (.guard _ _) fun _ => ?_
  refine .bind (.lift _) fun gross => ?_
  refine .bind (.orFail _ _) fun fees => ?_
  refine .bind (.look _) fun c => ?_
  refine .bind (.guard _ _) fun _ => ?_
  refine .bind (.lift _) fun cash => ?_
  refine (Fatal.bind (.change _) fun _ => ?_).rejects
  refine .bind (.change _) fun _ => ?_
  refine .bind (.change _) fun _ => ?_
  exact .bind (fatal_checkBuckets _) fun _ => fatal_publicaPosicao _ _

/-- The part of an allocation behind its checks rejects only before its first change. -/
theorem rejects_moveAllocation (e : TradeAllocated) (k : Fin 3) (de para inst t : ℕ) :
    Rejects s₀ (moveAllocation e k de para inst t) := by
  refine .bind (.ask fun _ h => h.internPosition _ _) fun rDe => ?_
  refine .bind (.ask fun _ h => h.internPosition _ _) fun rPara => ?_
  refine .bind (.orFail _ _) fun posDe => ?_
  refine .bind (.orFail _ _) fun posPara => ?_
  refine .bind ?_ fun _ => ?_
  · refine .bind (.look _) fun de => .bind (.look _) fun para => ?_
    exact .bind (.guard _ _) fun _ => .guard _ _
  refine (Fatal.bind (.change _) fun _ => ?_).rejects
  refine .bind (.change _) fun _ => ?_
  refine .bind (.change _) fun _ => ?_
  refine .bind (.change _) fun _ => ?_
  refine .bind (.change _) fun _ => ?_
  exact .bind (fatal_checkBuckets _) fun _ => fatal_checkBuckets _

/-- All the checks of an allocation come before its first change. -/
theorem rejects_applyTradeAllocated (ev : EventView) : Rejects s₀ (applyTradeAllocated ev) := by
  refine .bind (quiet_decode _ _ _) fun e => ?_
  refine .bind (.look _) fun found => ?_
  refine .bind (.orFail _ _) fun t => ?_
  refine .bind (.look _) fun trade => ?_
  refine .bind (.lift _) fun next => ?_
  refine .bind (.guard _ _) fun _ => ?_
  refine .bind (.ask fun _ h => h.internAccount _) fun rDe => ?_
  refine .bind (.ask fun _ h => h.internAccount _) fun rPara => ?_
  refine .bind (.orFail _ _) fun de => ?_
  refine .bind (.orFail _ _) fun para => ?_
  refine .bind (quiet_slot _) fun k => ?_
  refine .bind (.guard _ _) fun _ => ?_
  refine .then ?_ fun _ => .change _
  exact Proc.Ensures.ite (fun _ => rejects_moveAllocation _ _ _ _ _ _) fun _ =>
    (Fatal.pure _).rejects

theorem rejects_applyBatchNetted (ev : EventView) : Rejects s₀ (applyBatchNetted ev) := by
  refine .bind (quiet_decode _ _ _) fun e => ?_
  refine .bind (quiet_account _) fun acct => ?_
  refine .bind (quiet_slot _) fun k => ?_
  refine .bind (.look _) fun a => ?_
  refine .bind ?_ fun _ => ?_
  · exact Proc.Ensures.ite (fun _ => Quiet.bind (quiet_pushException _) fun _ => .fail _)
      fun _ => Quiet.pure _
  refine (Fatal.bind (fatal_advanceAccount _ _ _) fun counted => ?_).rejects
  exact .ite (.change _) (.pure _)

/-- Each outcome checks the quantity before it moves it. -/
theorem rejects_settleBuckets (e : TradeSettled) (acct pos : ℕ) (outcome : SettleOutcome) :
    Rejects s₀ (settleBuckets e acct pos outcome) := by
  cases outcome with
  | settled =>
    refine .bind (quiet_slot _) fun k => .bind (.look _) fun c => .bind (.guard _ _) fun _ => ?_
    exact (Fatal.bind (.change _) fun _ => .change _).rejects
  | deliveryFailure =>
    refine .bind (quiet_slot _) fun k => .bind (.look _) fun c => .bind (.guard _ _) fun _ => ?_
    exact (Fatal.bind (.change _) fun _ => .bind (.change _) fun _ => .change _).rejects
  | boughtIn =>
    refine .bind (.look _) fun c => .bind (.guard _ _) fun _ => ?_
    exact (Fatal.bind (.change _) fun _ => .change _).rejects

/-- All the checks of a settlement come before its first change. -/
theorem rejects_applyTradeSettled (ev : EventView) : Rejects s₀ (applyTradeSettled ev) := by
  refine .bind (quiet_decode _ _ _) fun e => ?_
  refine .bind (quiet_account _) fun acct => ?_
  refine .bind (quiet_instrument _) fun inst => ?_
  refine .bind (.look _) fun found => ?_
  refine .bind (.orFail _ _) fun pos => ?_
  refine .bind (.orFail _ _) fun outcome => ?_
  refine .then (rejects_settleBuckets _ _ _ _) fun _ => ?_
  refine .bind (fatal_advanceAccount _ _ _) fun _ => ?_
  exact .bind (fatal_checkBuckets _) fun _ => fatal_publicaPosicao _ _

/-- A set that has the pair already is not touched. -/
theorem insert_snd_of_present {t : TwoGenSet} {hi : UInt64} {lo : ℕ} {u : Unit}
    (h : (t.insert hi lo).1 = .present u) : (t.insert hi lo).2 = t := by
  unfold TwoGenSet.insert at h ⊢
  split_ifs at h ⊢
  · rfl
  · have hsame : (PairIndex.insert (t.gen t.current) hi lo).2 = t.gen t.current := by
      unfold PairIndex.insert OpenTable.insert at h ⊢
      split
      · rfl
      · split
        · rfl
        · rename_i hslot _ hfree
          simp only [hslot, hfree] at h
          split_ifs at h ⊢
    simp only [hsame, setGen_gen]

/-- A key that is refused leaves the set as it was. -/
theorem rejects_consumeIncome (actionId : UInt64) (acct : ℕ) :
    Rejects s₀ (consumeIncome actionId acct) := by
  refine Proc.Ensures.bind (Q := fun r e => (∃ u, r = .present u) → Kept s₀ e.s) ?_ fun r => ?_
  · refine Proc.Ensures.act fun e h => ?_
    rintro ⟨u, hu⟩
    exact { h with appliedIncome := (insert_snd_of_present hu).trans h.appliedIncome }
  · cases r with
    | added => exact Proc.Ensures.pure fun _ _ => trivial
    | present u => exact Proc.Ensures.fail fun _ h _ => h ⟨u, rfl⟩
    | full => exact Proc.Ensures.fail fun _ _ hn => absurd hn (by decide)

/-- The key of an income is the last check before the money is credited. -/
theorem rejects_applyDividendPaid (ev : EventView) : Rejects s₀ (applyDividendPaid ev) := by
  refine .bind (quiet_decode _ _ _) fun e => ?_
  refine .bind (quiet_account _) fun acct => ?_
  refine .bind (.lift _) fun net => ?_
  refine .bind (.guard _ _) fun _ => ?_
  refine .bind (.guard _ _) fun _ => ?_
  refine .bind (.lift _) fun expected => ?_
  refine .bind ?_ fun _ => ?_
  · exact Proc.Ensures.ite (fun _ => Quiet.bind (quiet_pushException _) fun _ => .fail _)
      fun _ => Quiet.pure _
  exact .then (rejects_consumeIncome _ _) fun _ => .change _

theorem rejects_applyClosingPrice (ev : EventView) : Rejects s₀ (applyClosingPrice ev) := by
  refine .bind (quiet_decode _ _ _) fun e => ?_
  refine .bind (.guard _ _) fun _ => ?_
  exact .bind (quiet_instrument _) fun inst => (Fatal.change _).rejects

theorem rejects_applyCustodyReconciled (ev : EventView) :
    Rejects s₀ (applyCustodyReconciled ev) := by
  refine .bind (quiet_decode _ _ _) fun date => ?_
  exact .bind (.ofExcept _) fun ds => (Fatal.change _).rejects

theorem rejects_applyEodMarked (ev : EventView) : Rejects s₀ (applyEodMarked ev) := by
  refine .bind (quiet_decode _ _ _) fun e => ?_
  refine .bind (.look _) fun custody => .bind (.look _) fun cash => ?_
  exact .bind (.guard _ _) fun _ => (Fatal.change _).rejects

/-! ### The exits after the key -/

/-- The row that a document has or would get. -/
def accountRow (s : PartitionState) (doc : UInt64) : ℕ :=
  (s.accountIndex.find doc).getD s.accounts.length

def instrumentRow (s : PartitionState) (externalId : UInt32) : ℕ :=
  (s.instrumentIndex.find (instrumentKey externalId)).getD s.instruments.length

/-- The position of an account in an instrument; a new one is empty. -/
def positionOf (s : PartitionState) (a i : ℕ) : CustodyRow :=
  match s.findPosition a i with
  | some p => s.custody.getD p (CustodyRow.cleared a i)
  | none => CustodyRow.cleared a i

/-- The two checks behind the key: a bonus must not take shares away, and a subscription must not
exceed the right. -/
def refusedLate (e : CorporateActionApplied) (base : Raw) : ActionType → Bool
  | .bonus =>
    match scaleQtyTrunc base e.factorNum e.factorDen with
    | .ok (total, _) => decide (total.toInt < base.toInt)
    | .error _ => false
  | .subscription =>
    decide (e.factorNum ≠ 0 ∧ e.factorDen ≠ 0) &&
      match scaleQtyTrunc base e.factorNum e.factorDen with
      | .ok (rights, _) => decide (rights < e.qtyDelta)
      | .error _ => false
  | _ => false

/-- A corporate action whose arguments are good and whose key is not used up yet. -/
def KeyFree (s : PartitionState) (ev : EventView) : Prop :=
  Tmpl.corporateActionApplied.blockLength ≤ ev.payload.length ∧
    ∃ type, ActionType.ofCode (CorporateActionApplied.ofBytes ev.payload).type = some type ∧
      validateAction (CorporateActionApplied.ofBytes ev.payload) type = true ∧
      s.appliedActions.contains (CorporateActionApplied.ofBytes ev.payload).actionId
        (accountRow s (CorporateActionApplied.ofBytes ev.payload).account) = false

/-- The refusal comes after the key: a bonus or a subscription that a late check turns down. -/
def RefusedAfterKey (s : PartitionState) (ev : EventView) : Prop :=
  KeyFree s ev ∧ ∃ type base,
    ActionType.ofCode (CorporateActionApplied.ofBytes ev.payload).type = some type ∧
    (positionOf s (accountRow s (CorporateActionApplied.ofBytes ev.payload).account)
      (instrumentRow s (CorporateActionApplied.ofBytes ev.payload).instrument)).custodyToday =
        .ok base ∧
    refusedLate (CorporateActionApplied.ofBytes ev.payload) base type = true

variable {e e' : Engine}

/-- What decoding does, in both of its outcomes. -/
theorem decode_eq_ok {t : Tmpl} {ofBytes : Bytes → α} {ev : EventView} {r : Except Status α} :
    decode t ofBytes ev e = .ok (r, e') ↔ e' = e ∧
      ((t.blockLength ≤ ev.payload.length ∧ r = .ok (ofBytes ev.payload)) ∨
        (¬ t.blockLength ≤ ev.payload.length ∧
          r = .error (.fail .shortPayload (UInt32.ofNat ev.payload.length)))) := by
  unfold decode
  rw [Proc.bind_eq_ok]
  simp only [Proc.guard_eq_ok, Proc.pure_eq_ok]
  by_cases hlen : t.blockLength ≤ ev.payload.length
  · simp [hlen, and_comm]
  · simp [hlen, and_comm]

theorem custodyAt_eq_value {i : ℕ} {c : CustodyRow} :
    custodyAt i e = .ok (.ok c, e') ↔ e.s.custody[i]? = some c ∧ e' = e := by
  rw [custodyAt, look, Proc.query_eq_ok, ← rowAt_eq_ok]
  constructor
  · rintro ⟨_, hc, hr, rfl⟩
    obtain rfl := Except.ok.inj hr
    exact ⟨hc, rfl⟩
  · rintro ⟨hc, rfl⟩
    exact ⟨c, hc, rfl, rfl⟩

/-- An interning that answers a row. -/
theorem ask_orFail_eq_ok {f : PartitionState → Option ℕ × PartitionState} {st : Status} {a : ℕ}
    (h : (ask f >>= fun r => Proc.orFail r st) e = .ok (.ok a, e')) :
    (f e.s).1 = some a ∧ e' = { e with s := (f e.s).2 } := by
  obtain ⟨r, e₁, hask, hr⟩ := Proc.bind_eq_value.mp h
  obtain ⟨hr₁, rfl⟩ := Proc.act_eq_ok.mp hask
  obtain ⟨rfl, ⟨b, hsome, hb⟩ | ⟨-, hb⟩⟩ := Proc.orFail_eq_ok.mp hr
  · obtain rfl := Except.ok.inj hr₁
    obtain rfl := Except.ok.inj hb
    exact ⟨hsome, rfl⟩
  · cases hb

/-- An account that is found or made has the row `accountRow`, and no other table is touched. -/
theorem account_eq_ok (hs : e.s.Sound) {doc : UInt64} {a : ℕ}
    (h : account doc e = .ok (.ok a, e')) : a = accountRow e.s doc ∧ e'.s.Sound ∧
      ∃ t rows, e'.s = { e.s with accountIndex := t, accounts := rows } := by
  obtain ⟨hsome, rfl⟩ := ask_orFail_eq_ok h
  have hs' := (hs.internAccount doc).1
  obtain heq | ⟨i, hi, heq⟩ | ⟨hnew, -, t, heq, -⟩ := internAccount_cases hs doc
  · rw [heq] at hsome
    cases hsome
  · rw [heq] at hsome hs' ⊢
    obtain rfl := Option.some.inj hsome
    refine ⟨?_, hs', _, _, rfl⟩
    rw [accountRow, (hs.accounts.index.find doc i).mpr hi, Option.getD_some]
  · rw [heq] at hsome hs' ⊢
    obtain rfl := Option.some.inj hsome
    refine ⟨?_, hs', _, _, rfl⟩
    rw [accountRow, hs.accounts.index.find_eq_none hnew, Option.getD_none]

/-- An instrument that is found or made has the row `instrumentRow`, and no other table is
touched. -/
theorem instrument_eq_ok (hs : e.s.Sound) {id : UInt32} {i : ℕ}
    (h : instrument id e = .ok (.ok i, e')) : i = instrumentRow e.s id ∧ e'.s.Sound ∧
      ∃ t rows, e'.s = { e.s with instrumentIndex := t, instruments := rows } := by
  obtain ⟨hsome, rfl⟩ := ask_orFail_eq_ok h
  have hs' := (hs.internInstrument id).1
  obtain heq | ⟨i, hi, heq⟩ | ⟨hnew, -, t, heq, -⟩ := internInstrument_cases hs id
  · rw [heq] at hsome
    cases hsome
  · rw [heq] at hsome hs' ⊢
    obtain rfl := Option.some.inj hsome
    refine ⟨?_, hs', _, _, rfl⟩
    rw [instrumentRow, (hs.instruments.index.find _ i).mpr hi, Option.getD_some]
  · rw [heq] at hsome hs' ⊢
    obtain rfl := Option.some.inj hsome
    refine ⟨?_, hs', _, _, rfl⟩
    rw [instrumentRow, hs.instruments.index.find_eq_none hnew, Option.getD_none]

/-- A position that is found or made is the one `positionOf` tells from the state before. -/
theorem position_eq_ok (hs : e.s.Sound) {a i p : ℕ} (h : position a i e = .ok (.ok p, e')) :
    e'.s.custody[p]? = some (positionOf e.s a i) ∧
      ∃ t rows, e'.s = { e.s with positionIndex := t, custody := rows } := by
  obtain ⟨hsome, rfl⟩ := ask_orFail_eq_ok h
  obtain heq | ⟨i', hi, heq⟩ | ⟨hnew, -, t, heq, -⟩ := internPosition_cases hs a i
  · rw [heq] at hsome
    cases hsome
  · rw [heq] at hsome ⊢
    obtain rfl := Option.some.inj hsome
    refine ⟨?_, _, _, rfl⟩
    rw [positionOf, PartitionState.findPosition, (hs.positions.index.find _ i').mpr hi]
    have hlt : i' < e.s.custody.length := by
      simpa [positionKeys] using (List.getElem?_eq_some_iff.mp hi).1
    simp [List.getD_eq_getElem?_getD, List.getElem?_eq_getElem hlt]
  · rw [heq] at hsome ⊢
    obtain rfl := Option.some.inj hsome
    refine ⟨?_, _, _, rfl⟩
    rw [positionOf, PartitionState.findPosition, hs.positions.index.find_eq_none hnew]
    simp

/-- A full table of accounts stops the partition. -/
theorem fatal_account (doc : UInt64) : Fatal (account doc) :=
  .bind (Proc.Ensures.act fun _ _ => trivial) fun _ => .orFail _ rfl

/-- A full table of instruments stops the partition. -/
theorem fatal_instrument (id : UInt32) : Fatal (instrument id) :=
  .bind (Proc.Ensures.act fun _ _ => trivial) fun _ => .orFail _ rfl

/-- A full table of positions stops the partition. -/
theorem fatal_position (a i : ℕ) : Fatal (position a i) :=
  .bind (Proc.Ensures.act fun _ _ => trivial) fun _ => .orFail _ rfl

/-- A new pair that is not added finds no room, and one that is added is there. -/
theorem insert_of_not_contains {n : ℕ} {t : TwoGenSet} (h : t.Sound n) {hi : UInt64} {lo : ℕ}
    (hnew : t.contains hi lo = false) :
    (t.insert hi lo).1 = .full ∨
      ((t.insert hi lo).1 = .added ∧ (t.insert hi lo).2.contains hi lo = true) := by
  have hg := h.gen t.current
  have hlim := (slotCount_eq_some hg.slots).2.2
  have hnone : OpenTable.find PairIndex.home (t.gen t.current) (hi, lo) = none := by
    simp only [TwoGenSet.contains, Bool.or_eq_false_iff, PairIndex.contains,
      Option.isSome_eq_false_iff, Option.isNone_iff_eq_none] at hnew
    exact hnew.1
  simp only [TwoGenSet.insert, hnew, Bool.false_eq_true, if_false, PairIndex.insert]
  rcases Nat.lt_or_ge (t.gen t.current).size
    (loadLimit (t.gen t.current).slots.length) with hlt | hge
  · obtain ⟨t', ht', hwf, -, -, hperm⟩ := OpenTable.insert_added hg.wf hlim hlt hnone ()
    have hmem : ((hi, lo), ()) ∈ t'.entries := hperm.mem_iff.mpr List.mem_cons_self
    have hfind := (OpenTable.find_eq_some hwf).mpr hmem
    have hcur : (t.setGen t.current t').current = t.current := by
      unfold TwoGenSet.setGen
      split_ifs <;> rfl
    rw [ht']
    refine .inr ⟨rfl, ?_⟩
    simp only [TwoGenSet.contains, hcur, gen_setGen, PairIndex.contains, hfind, Option.isSome_some,
      Bool.true_or]
  · rw [OpenTable.insert_full hge hnone]
    exact .inl rfl

/-- Using up a key: it is new and there afterwards, or nothing changes and it was there. -/
theorem consumeAction_eq_ok {n : ℕ} (hs : e.s.appliedActions.Sound n) {actionId : UInt64} {acct : ℕ}
    {r : Except Status PUnit} (h : consumeAction actionId acct e = .ok (r, e')) :
    (r = .ok ⟨⟩ ∧ e.s.appliedActions.contains actionId acct = false ∧
        e'.s.appliedActions.contains actionId acct = true ∧ e'.s.custody = e.s.custody) ∨
      (∃ st, r = .error st ∧ (st.isFatal = false →
        e.s.appliedActions.contains actionId acct = true ∧ e'.s = e.s)) := by
  obtain ⟨res, e₁, hask, hr⟩ | ⟨st, hask, -⟩ := Proc.bind_eq_ok.mp h
  swap
  · cases (Proc.act_eq_ok.mp hask).1
  obtain ⟨hres, rfl⟩ := Proc.act_eq_ok.mp hask
  obtain rfl := Except.ok.inj hres
  rcases hc : e.s.appliedActions.contains actionId acct with _ | _
  · obtain hfull | ⟨hadd, hthere⟩ := insert_of_not_contains hs hc
    · simp only [hfull, refusedBy, Proc.fail_eq_ok] at hr
      exact .inr ⟨_, hr.1, fun hn => absurd hn (by decide)⟩
    · simp only [hadd, refusedBy, Proc.pure_eq_ok] at hr
      obtain ⟨rfl, rfl⟩ := hr
      exact .inl ⟨rfl, rfl, hthere, rfl⟩
  · have hins : e.s.appliedActions.insert actionId acct = (.present (), e.s.appliedActions) := by
      rw [TwoGenSet.insert, if_pos hc]
    simp only [hins, refusedBy, Proc.fail_eq_ok] at hr
    obtain ⟨rfl, rfl⟩ := hr
    exact .inr ⟨_, rfl, fun _ => ⟨rfl, rfl⟩⟩

/-- A split is not turned down once its key is consumed. -/
theorem fatal_actSplit (a : CorporateActionApplied) (pos : ℕ) (base : Raw) :
    Fatal (actSplit a pos base) :=
  .bind (.change _) fun _ => .bind (.look _) fun _ => .bind (.lift _) fun _ => .lift _

/-- An auction is not turned down once its key is consumed. -/
theorem fatal_actAuction (a : CorporateActionApplied) (acct pos : ℕ) :
    Fatal (actAuction a acct pos) :=
  .bind (.look _) fun _ => .bind (.lift _) fun _ => .bind (.change _) fun _ =>
    .bind (.change _) fun _ => .pure _

/-- A part that is turned down only by one of the late checks, which change nothing. -/
def Late (a : CorporateActionApplied) (base : Raw) (type : ActionType) (e : Engine)
    (m : Apply α) : Prop :=
  Proc.Ensures (fun eng => eng = e) m (fun _ _ => True)
    (fun st eng => st.isFatal = false → refusedLate a base type = true ∧ eng = e)

/-- What only fails fatally is not turned down by a late check. -/
theorem Fatal.late {m : Apply α} (h : Fatal m) {a : CorporateActionApplied} {base : Raw}
    {type : ActionType} : Late a base type e m := Proc.Ensures.mono h.unless (fun _ _ => trivial)
  (fun _ _ _ => trivial) fun _ _ h => h

/-- The late check of a bonus. -/
theorem late_actBonus (a : CorporateActionApplied) (pos : ℕ) (base : Raw) :
    Late a base .bonus e (actBonus a pos base) := by
  refine Proc.Ensures.bind (Q := fun r eng => eng = e ∧
    scaleQtyTrunc base a.factorNum a.factorDen = .ok r) ?_ fun ⟨total, rest⟩ => ?_
  · exact Proc.Ensures.query fun _ _ he hr => ⟨he, hr⟩
  refine Proc.Ensures.bind (Q := fun whole eng => (eng = e ∧
    scaleQtyTrunc base a.factorNum a.factorDen = .ok (total, rest)) ∧
    Fixed.sub total base = .ok whole) ?_ fun whole => ?_
  · exact Proc.Ensures.query fun _ _ he hr => ⟨he, hr⟩
  refine Proc.Ensures.bind (Q := fun _ _ => True) (Proc.Ensures.guard (fun _ _ _ => trivial) ?_)
    fun _ => ?_
  · rintro eng ⟨⟨rfl, hscale⟩, hsub⟩ hneg -
    have hlt : whole.toInt < 0 := Int64.lt_iff_toInt_lt.mp (not_not.mp hneg)
    have hval := Fixed.sub_eq_ok hsub
    refine ⟨?_, rfl⟩
    simp only [refusedLate, hscale, decide_eq_true_eq]
    omega
  · have hrest : Fatal (do
        let cost ← Proc.lift (mulDiv .halfEven whole a.unitCost kQtyOne)
        modCustody pos fun c => do
          let avg ← averagePriceHalfEven base c.avgPrice whole cost
          let av ← Fixed.add c.available whole
          let lo ← Fixed.add c.leftovers rest
          .ok { c with avgPrice := avg, available := av, leftovers := lo }
        Proc.lift (Fixed.add whole rest)) :=
      .bind (.lift _) fun _ => .bind (.change _) fun _ => .lift _
    exact hrest.unless

/-- The late check of a subscription. -/
theorem late_actSubscription (a : CorporateActionApplied) (acct pos : ℕ) (base : Raw) :
    Late a base .subscription e (actSubscription a acct pos base) := by
  have hrest : Fatal (do
      modCustody pos fun c => do
        let avg ← averagePriceHalfEven base c.avgPrice a.qtyDelta a.cashDelta
        let av ← Fixed.add c.available a.qtyDelta
        .ok { c with avgPrice := avg, available := av }
      modAccount acct fun r => do
        let m ← Fixed.sub r.cash a.cashDelta
        .ok { r with cash := m }
      pure a.qtyDelta) :=
    .bind (.change _) fun _ => .bind (.change _) fun _ => .pure _
  refine Proc.Ensures.bind (Q := fun _ _ => True) (Proc.Ensures.ite (fun hratio => ?_) fun _ => ?_)
    fun _ => hrest.unless
  · refine Proc.Ensures.bind (Q := fun r eng => eng = e ∧
      scaleQtyTrunc base a.factorNum a.factorDen = .ok r) ?_ fun ⟨rights, rest⟩ => ?_
    · exact Proc.Ensures.query fun _ _ he hr => ⟨he, hr⟩
    refine Proc.Ensures.guard (fun _ _ _ => trivial) ?_
    rintro eng ⟨rfl, hscale⟩ hlt -
    refine ⟨?_, rfl⟩
    simp only [refusedLate, hscale, Bool.and_eq_true, decide_eq_true_eq]
    exact ⟨hratio, not_not.mp hlt⟩
  · exact Proc.Ensures.pure fun _ _ => trivial

/-- Of the actions only a bonus and a subscription are turned down late, each by its own check. -/
theorem late_actOn (a : CorporateActionApplied) (acct pos : ℕ) (base : Raw) (type : ActionType) :
    Late a base type e (actOn a acct pos base type) := by
  cases type with
  | split => exact (fatal_actSplit _ _ _).late
  | reverseSplit => exact (fatal_actSplit _ _ _).late
  | bonus => exact late_actBonus _ _ _
  | subscription => exact late_actSubscription _ _ _ _
  | leftoversAuction => exact (fatal_actAuction _ _ _).late

/-- The two ways in which a corporate action is rejected: before its key is used up, and after. -/
theorem applyCorporateAction_error (hs : e.s.Sound) {ev : EventView} {st : Status}
    (h : applyCorporateAction ev e = .ok (.error st, e')) (hst : st.isFatal = false) :
    (Kept e.s e'.s ∧ ¬ KeyFree e.s ev) ∨
      (RefusedAfterKey e.s ev ∧ e'.s.appliedActions.contains
        (CorporateActionApplied.ofBytes ev.payload).actionId
        (accountRow e.s (CorporateActionApplied.ofBytes ev.payload).account) = true) := by
  have hnf : ∀ {st' : Status} {P : Prop}, (Except.error st : Except Status PUnit) = .error st' →
      st'.isFatal = true → P := fun heq hf => by
    rw [← Except.error.inj heq, hst] at hf
    simp at hf
  have hk := Kept.refl e.s
  obtain ⟨a, e₁, h₁, k₁⟩ | ⟨st', h₁, -⟩ := Proc.bind_eq_ok.mp h
  swap
  · obtain ⟨rfl, ⟨-, hr⟩ | ⟨hlen, -⟩⟩ := decode_eq_ok.mp h₁
    · cases hr
    · exact .inl ⟨hk, fun hfree => hlen hfree.1⟩
  obtain ⟨rfl, ⟨hlen, hr⟩ | ⟨-, hr⟩⟩ := decode_eq_ok.mp h₁
  swap
  · cases hr
  obtain rfl := Except.ok.inj hr
  obtain ⟨acct, e₂, h₂, k₂⟩ | ⟨st', h₂, heq⟩ := Proc.bind_eq_ok.mp k₁
  swap
  · exact hnf heq (Proc.Ensures.error (fatal_account _) trivial h₂)
  obtain ⟨inst, e₃, h₃, k₃⟩ | ⟨st', h₃, heq⟩ := Proc.bind_eq_ok.mp k₂
  swap
  · exact hnf heq (Proc.Ensures.error (fatal_instrument _) trivial h₃)
  obtain ⟨pos, e₄, h₄, k₄⟩ | ⟨st', h₄, heq⟩ := Proc.bind_eq_ok.mp k₃
  swap
  · exact hnf heq (Proc.Ensures.error (fatal_position _ _) trivial h₄)
  have hk₄ : Kept e₁.s e₄.s := Proc.Ensures.ok (quiet_position _ _)
    (Proc.Ensures.ok (quiet_instrument _) (Proc.Ensures.ok (quiet_account _) hk h₂) h₃) h₄
  obtain ⟨rfl, hs₂, ta, ra, he₂⟩ := account_eq_ok hs h₂
  obtain ⟨hinst, hs₃, ti, ri, he₃⟩ := instrument_eq_ok hs₂ h₃
  obtain ⟨hrow, -⟩ := position_eq_ok hs₃ h₄
  rw [show instrumentRow e₂.s _ = instrumentRow e₁.s _ by rw [he₂]; rfl] at hinst
  rw [show positionOf e₃.s _ _ = positionOf e₁.s _ _ by rw [he₃, he₂]; rfl, hinst] at hrow
  -- the arguments of the action
  obtain ⟨type, e₅, h₅, k₅⟩ | ⟨st', h₅, -⟩ := Proc.bind_eq_ok.mp k₄
  swap
  · obtain ⟨rfl, ⟨_, -, hr⟩ | ⟨hnone, -⟩⟩ := Proc.orFail_eq_ok.mp h₅
    · cases hr
    · refine .inl ⟨hk₄, fun hfree => ?_⟩
      obtain ⟨-, type, htype, -⟩ := hfree
      rw [hnone] at htype
      cases htype
  obtain ⟨rfl, ⟨_, htype, hr⟩ | ⟨-, hr⟩⟩ := Proc.orFail_eq_ok.mp h₅
  swap
  · cases hr
  obtain rfl := Except.ok.inj hr
  obtain ⟨_, e₆, h₆, k₆⟩ | ⟨st', h₆, -⟩ := Proc.bind_eq_ok.mp k₅
  swap
  · obtain ⟨rfl, ⟨-, hr⟩ | ⟨hbad, -⟩⟩ := Proc.guard_eq_ok.mp h₆
    · cases hr
    · refine .inl ⟨hk₄, fun hfree => ?_⟩
      obtain ⟨-, type', htype', hgood, -⟩ := hfree
      obtain rfl := Option.some.inj (htype.symm.trans htype')
      exact hbad hgood
  obtain ⟨rfl, ⟨hgood, -⟩ | ⟨-, hr⟩⟩ := Proc.guard_eq_ok.mp h₆
  swap
  · cases hr
  -- the key
  have hset : e₆.s.appliedActions.Sound e₁.s.cap.corporateActionsPerGen.toNat := by
    rw [hk₄.appliedActions]
    exact hs.actions
  obtain ⟨_, e₇, h₇, k₇⟩ | ⟨st', h₇, heq⟩ := Proc.bind_eq_ok.mp k₆
  swap
  · obtain ⟨hr, -⟩ | ⟨st'', hr, hthere⟩ := consumeAction_eq_ok hset h₇
    · cases hr
    · obtain rfl := Except.error.inj hr
      obtain ⟨hc, he'⟩ := hthere (Except.error.inj heq ▸ hst)
      refine .inl ⟨he' ▸ hk₄, fun hfree => ?_⟩
      obtain ⟨-, -, -, -, hnew⟩ := hfree
      rw [hk₄.appliedActions, hnew] at hc
      cases hc
  obtain ⟨-, hnew, hused, hsame⟩ | ⟨st'', hr, -⟩ := consumeAction_eq_ok hset h₇
  swap
  · cases hr
  rw [hk₄.appliedActions] at hnew
  -- the change of the position
  obtain ⟨c, e₈, h₈, k₈⟩ | ⟨st', h₈, heq⟩ := Proc.bind_eq_ok.mp k₇
  swap
  · exact hnf heq (Proc.Ensures.error (Fatal.look _) trivial h₈)
  obtain ⟨hc, rfl⟩ := custodyAt_eq_value.mp h₈
  obtain ⟨base, e₉, h₉, k₉⟩ | ⟨st', h₉, heq⟩ := Proc.bind_eq_ok.mp k₈
  swap
  · exact hnf heq (Proc.Ensures.error (Fatal.lift _) trivial h₉)
  obtain ⟨_, hbase, hr, rfl⟩ := Proc.query_eq_ok.mp h₉
  obtain rfl := Except.ok.inj hr
  obtain ⟨delta, e₁₀, h₁₀, k₁₀⟩ | ⟨st', h₁₀, heq⟩ := Proc.bind_eq_ok.mp k₉
  · have hrest : Fatal (do
        modAccount (accountRow e₁.s (CorporateActionApplied.ofBytes ev.payload).account) fun a => do
          let m ← Fixed.sub a.incomeReceivable
            (CorporateActionApplied.ofBytes ev.payload).withheldTax
          .ok { a with incomeReceivable := m }
        (if (CorporateActionApplied.ofBytes ev.payload).flags &&& 1 ≠ 0 ∧
            delta ≠ (CorporateActionApplied.ofBytes ev.payload).qtyDelta then
          pushException ⟨(CorporateActionApplied.ofBytes ev.payload).account,
            delta - (CorporateActionApplied.ofBytes ev.payload).qtyDelta,
            (CorporateActionApplied.ofBytes ev.payload).instrument,
            (CorporateActionApplied.ofBytes ev.payload).exDate,
            UInt16.ofNat Err.qtyMismatch.code⟩ false
          else pure ⟨⟩)
        checkBuckets pos
        publicaPosicao ev pos) :=
      .bind (.change _) fun _ => .bind (.ite (.change _) (.pure _)) fun _ =>
        .bind (fatal_checkBuckets _) fun _ => fatal_publicaPosicao _ _
    exact hnf rfl (Proc.Ensures.error hrest trivial k₁₀)
  · obtain ⟨hlate, rfl⟩ := Proc.Ensures.error (late_actOn _ _ _ _ _) rfl h₁₀
      (Except.error.inj heq ▸ hst)
    rw [hsame, hrow] at hc
    obtain rfl := Option.some.inj hc
    exact .inr ⟨⟨⟨hlen, type, htype, hgood, hnew⟩, type, base, htype, hbase, hlate⟩, hused⟩

end Apply

/-! ### Rejected events -/

/-- The event is a corporate action that is refused after its key was used up. -/
def LateRefusal (s : PartitionState) (ev : EventView) : Prop :=
  Tmpl.ofId ev.tmpl.toNat = some .corporateActionApplied ∧ Apply.RefusedAfterKey s ev

/-- Every handler but that of the corporate actions. -/
theorem Apply.rejects_handler {s₀ : PartitionState} (ev : EventView) {t : Tmpl}
    (ht : t ≠ .corporateActionApplied) : Rejects s₀ (handler ev t) := by
  cases t with
  | dayOpened => exact rejects_applyDayOpened ev
  | tradeExecuted => exact rejects_applyTradeExecuted ev
  | tradeAllocated => exact rejects_applyTradeAllocated ev
  | batchNetted => exact rejects_applyBatchNetted ev
  | tradeSettled => exact rejects_applyTradeSettled ev
  | corporateActionApplied => exact absurd rfl ht
  | dividendPaid => exact rejects_applyDividendPaid ev
  | closingPriceSet => exact rejects_applyClosingPrice ev
  | custodyReconciled => exact rejects_applyCustodyReconciled ev
  | eodMarked => exact rejects_applyEodMarked ev

/-- **A rejected event keeps the state**, but for empty rows of new identities and exception
records, exactly when it is no corporate action refused by one of the checks behind its key. -/
theorem kept_iff_not_lateRefusal {s : PartitionState} (hreach : Reachable s) {o : Option Outbox}
    {ev : EventView} {st : Status} {e' : Engine} (h : apply ⟨s, o⟩ ev = .ok (st, e'))
    (hok : st.isOk = false) (hfatal : st.isFatal = false) :
    Kept s e'.s ↔ ¬ LateRefusal s ev := by
  have hs := hreach.sound
  simp only [apply, bind, except_bind_eq_ok] at h
  obtain ⟨⟨r, e₁⟩, hd, h⟩ := h
  obtain ⟨hst, rfl⟩ := Prod.mk.inj (Except.ok.inj h)
  -- the LSN is noted even for a rejected event, and is not part of what is kept
  have hlsn : ∀ t : PartitionState, Kept s t ↔
    Kept s { t with appliedLsn := UInt64.ofNat ev.lsn } :=
    fun t => ⟨fun h => { h with }, fun h => { h with }⟩
  rw [← hlsn]
  obtain ⟨st', rfl⟩ : ∃ st', r = .error st' := by
    rcases r with st' | u
    · exact ⟨st', rfl⟩
    · rw [← hst] at hok
      simp [statusOf] at hok
  obtain rfl : st' = st := hst
  unfold Apply.dispatch at hd
  rcases ht : Tmpl.ofId ev.tmpl.toNat with _ | t <;> rw [ht] at hd
  · obtain ⟨-, rfl⟩ := Proc.fail_eq_ok.mp hd
    refine ⟨fun _ hl => ?_, fun _ => Kept.refl s⟩
    rw [hl.1] at ht
    cases ht
  · by_cases hcorp : t = .corporateActionApplied
    · subst hcorp
      -- a corporate action may be refused after its key went in
      obtain ⟨hkept, hno⟩ | ⟨hlate, hused⟩ := Apply.applyCorporateAction_error hs hd hfatal
      · exact ⟨fun _ hl => hno hl.2.1, fun _ => hkept⟩
      · refine ⟨fun hkept => ?_, fun hl => absurd ⟨ht, hlate⟩ hl⟩
        obtain ⟨-, -, -, -, hnew⟩ := hlate.1
        rw [hkept.appliedActions, hnew] at hused
        cases hused
    · have hkept := Proc.Ensures.error (Apply.rejects_handler ev hcorp) (Kept.refl s) hd hfatal
      refine ⟨fun _ hl => hcorp ?_, fun _ => hkept⟩
      exact Option.some.inj (ht.symm.trans hl.1)

/-- A subscription of one unit against a right of none: ratio 1:1, empty position. -/
def subscriptionAboveRight : EventView where
  lsn := 1
  tsNs := 0
  tmpl := 6
  payload := List.replicate 16 0 ++ 1 :: List.replicate 55 0 ++ [1, 0, 0, 0, 1, 0, 0, 0, 4] ++
    List.replicate 7 0

/-- It is rejected on a fresh partition, and its key is gone. -/
theorem not_forall_kept :
    ¬ ∀ s, Reachable s → ∀ o ev st e', apply ⟨s, o⟩ ev = .ok (st, e') → st.isOk = false →
      st.isFatal = false → Kept s e'.s := by
  intro h
  have hreach : Reachable _ := .of_run
    (show blank.init ⟨2 ^ 16, 0, false, false⟩ 1 ⟨1, 1, 1, 1, 1, 1, 1, 1, 60⟩ = .ok (true, _, _)
      from rfl) (show applyAll _ [] = .ok ([], _) from rfl)
  have hkept := h _ hreach none subscriptionAboveRight (.fail .qtyMismatch 0) _ rfl rfl rfl
  exact absurd (congrArg TwoGenSet.size hkept.appliedActions) (by decide)

/-- An instrument is described, a day opens, and a purchase is executed. -/
def onePurchase : List EventView :=
  [⟨1, 0, 8, quoted.encode⟩, ⟨2, 0, 1, firstDay.encode⟩,
    ⟨3, 0, 2, boughtOne.encode⟩]

/-- The same purchase is rejected the second time, and keeps the rows of the first. -/
theorem kept_iff_not_lateRefusal_twice :
    ∃ s₀ arena₀ s sts e',
      blank.init ⟨2 ^ 16, 0, false, false⟩ 1 ⟨2, 2, 2, 2, 2, 2, 2, 2, 60⟩ = .ok (true, s₀, arena₀) ∧
      applyAll s₀ (onePurchase.map (·, none)) = .ok (sts, s) ∧
      (s.custody.length, s.accounts.length, s.trades.length) = (1, 1, 1) ∧
      apply ⟨s, none⟩ ⟨4, 0, 2, boughtOne.encode⟩ =
        .ok (.fail .alreadyApplied, e') ∧ Kept s e'.s := by
  obtain ⟨s₀, arena₀, s, sts, e', hinit, hrun, hrows, happ⟩ : ∃ s₀ arena₀ s sts e',
      blank.init ⟨2 ^ 16, 0, false, false⟩ 1 ⟨2, 2, 2, 2, 2, 2, 2, 2, 60⟩ = .ok (true, s₀, arena₀) ∧
      applyAll s₀ (onePurchase.map (·, none)) = .ok (sts, s) ∧
      (s.custody.length, s.accounts.length, s.trades.length) = (1, 1, 1) ∧
      apply ⟨s, none⟩ ⟨4, 0, 2, boughtOne.encode⟩ =
        .ok (.fail .alreadyApplied, e') := ⟨_, _, _, _, _, rfl, rfl, rfl, rfl⟩
  refine ⟨s₀, arena₀, s, sts, e', hinit, hrun, hrows, happ, ?_⟩
  refine (kept_iff_not_lateRefusal (.of_run hinit hrun) happ rfl rfl).mpr fun hlate => ?_
  have htmpl := hlate.1
  cases htmpl

end MotorRv
