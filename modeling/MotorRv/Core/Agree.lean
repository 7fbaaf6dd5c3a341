import MotorRv.Core.Apply
import MotorRv.Core.StateImage

/-!
# States that no event can tell apart

Two states agree when they have the same rows and scalars, indexes with the same answers, and
idempotency sets with the same members in each generation; the slots their tables use may differ,
and so may exception records that are no longer counted. `apply` gives the same status on states
that agree and keeps them so. The second run has no outbox: an output can then no longer fail, and
this is the only way in which the first run can end differently, fatally.

The parts that may differ are gathered in `Caches`, and `Agree` says that one state is the other
with its caches replaced by the same ones in this sense. So a part of a handler that does not look
at the caches follows by itself (`follows_look`, `follows_change`), and only interning, compaction
and the idempotency sets need an argument about tables. The handlers then go through by the rules of
the simulation, one combinator after the other, in the order of the code.

The relation is what survives saving and loading a state: a loaded state has its indexes filled in
another order, and its ring of exceptions cleared behind the records that count.
-/

namespace MotorRv

open Lib PartitionState

/-- Two indexes with the same answers and room. -/
structure DenseIndex.Same (a b : DenseIndex) : Prop where
  equiv : OpenTable.Equiv DenseIndex.home a b
  room : loadLimit a.slots.length < a.slots.length

namespace DenseIndex.Same

variable {a b : DenseIndex}

theorem find (h : Same a b) (k : UInt64) : a.find k = b.find k := h.equiv.find k

/-- The same insertion is answered the same by both, and leaves them the same. -/
theorem insertOrGet (h : Same a b) (k : UInt64) (v : ℕ) :
    (a.insertOrGet k v).1 = (b.insertOrGet k v).1 ∧
      Same (a.insertOrGet k v).2 (b.insertOrGet k v).2 := by
  obtain ⟨h1, h2⟩ := h.equiv.insert h.room k v
  simp only [DenseIndex.insertOrGet, ← h.equiv.slots]
  refine ⟨h1, h2, ?_⟩
  have hlen : (OpenTable.insert DenseIndex.home (loadLimit a.slots.length) a k v).2.slots.length =
      a.slots.length := by
    unfold OpenTable.insert
    split
    · rfl
    · split
      · rfl
      · split_ifs
        · rfl
        · exact List.length_set
  rw [hlen]
  exact h.room

theorem clear (h : Same a b) : Same a.clear b.clear := by
  have hlen : ∀ n, (OpenTable.empty n : DenseIndex).slots.length = n := fun n => by
    simp [OpenTable.empty]
  rw [DenseIndex.clear, DenseIndex.clear, ← h.equiv.slots]
  refine ⟨⟨OpenTable.wf_empty _, OpenTable.wf_empty _, rfl, rfl, fun _ => rfl⟩, ?_⟩
  rw [hlen]
  exact h.room

/-- Indexes made anew over the same keys are the same. -/
theorem insertKeysUnchecked (ks : List UInt64) : ∀ {a b : DenseIndex} (i : ℕ), Same a b →
    Same (PartitionState.insertKeysUnchecked a i ks)
      (PartitionState.insertKeysUnchecked b i ks) := by
  induction ks with
  | nil => exact fun _ h => h
  | cons k ks ih => exact fun i h => ih (i + 1) (h.insertOrGet k i).2

end DenseIndex.Same

/-! ### Agreement -/

/-- The parts of a state that two agreeing states may represent differently. -/
structure Caches where
  accountIndex : DenseIndex
  positionIndex : DenseIndex
  instrumentIndex : DenseIndex
  tradeIndex : DenseIndex
  appliedActions : TwoGenSet
  appliedIncome : TwoGenSet
  exceptions : List ExceptionRecord

/-- The state with other representations. -/
def PartitionState.withCaches (s : PartitionState) (c : Caches) : PartitionState :=
  { s with
    accountIndex := c.accountIndex
    positionIndex := c.positionIndex
    instrumentIndex := c.instrumentIndex
    tradeIndex := c.tradeIndex
    appliedActions := c.appliedActions
    appliedIncome := c.appliedIncome
    exceptions := c.exceptions }

/-- Representations with the same content as those of the state. -/
structure Caches.Same (s : PartitionState) (c : Caches) : Prop where
  accountIndex : s.accountIndex.Same c.accountIndex
  positionIndex : s.positionIndex.Same c.positionIndex
  instrumentIndex : s.instrumentIndex.Same c.instrumentIndex
  tradeIndex : s.tradeIndex.Same c.tradeIndex
  appliedActions : s.appliedActions.Equiv c.appliedActions
  appliedIncome : s.appliedIncome.Equiv c.appliedIncome
  exceptions : s.exceptions.take (keptExceptions s) = c.exceptions.take (keptExceptions s)
  exceptionRoom : s.exceptions.length = s.cap.tables.exceptions.toNat ∧
    c.exceptions.length = s.cap.tables.exceptions.toNat

/-- No event can tell the two states apart. -/
def Agree (s t : PartitionState) : Prop := ∃ c, t = s.withCaches c ∧ c.Same s

/-! ### Parts of handlers -/

namespace Apply

/-- The engines of the two runs: the first with any outbox, the second without. -/
def AgreeE (e f : Engine) : Prop := Agree e.s f.s ∧ f.outbox = none

/-- Both runs give the same answer, unless the first ends fatally. -/
abbrev Follows {α : Type} (m : Apply α) : Prop := Proc.Sim AgreeE (fun st => st.isFatal = true) m

variable {α : Type}

/-- What is looked at does not depend on the representation. -/
theorem follows_look {f : PartitionState → Exec α} (hf : ∀ s c, c.Same s →
    f (s.withCaches c) = f s) : Follows (look f) := by
  refine Proc.Sim.query fun e₁ e₂ a hA h => ?_
  obtain ⟨c, hc, hsame⟩ := hA.1
  rw [hc, hf _ _ hsame]
  exact h

/-- A change that does not look at the representations, nor touch them. -/
theorem follows_change {f : PartitionState → Exec PartitionState}
    (hf : ∀ s s' c, c.Same s → f s = .ok s' → ∃ c', f (s.withCaches c) = .ok (s'.withCaches c') ∧
      c'.Same s') : Follows (change f) := by
  refine Proc.Sim.update fun e₁ e₂ e₁' hA h => ?_
  obtain ⟨s', hs', rfl⟩ := map_eq_ok.mp h
  obtain ⟨c, hc, hsame⟩ := hA.1
  obtain ⟨c', hc', hsame'⟩ := hf _ _ _ hsame hs'
  refine ⟨{ e₂ with s := s'.withCaches c' }, ?_, ⟨c', rfl, hsame'⟩, hA.2⟩
  rw [hc, hc']
  rfl

/-- Interning answers the same from both, and leaves states that agree. -/
theorem follows_ask {f : PartitionState → α × PartitionState} (hf : ∀ s c, c.Same s → ∃ c',
    f (s.withCaches c) = ((f s).1, (f s).2.withCaches c') ∧ c'.Same (f s).2) :
    Follows (ask f) := by
  refine Proc.Sim.act fun e₁ e₂ hA => ?_
  obtain ⟨c, hc, hsame⟩ := hA.1
  obtain ⟨c', hc', hsame'⟩ := hf _ _ hsame
  rw [hc, hc']
  exact ⟨rfl, ⟨c', rfl, hsame'⟩, hA.2⟩

theorem follows_custodyAt (i : ℕ) : Follows (custodyAt i) := follows_look fun _ _ _ => rfl
theorem follows_accountAt (i : ℕ) : Follows (accountAt i) := follows_look fun _ _ _ => rfl
theorem follows_instrumentAt (i : ℕ) : Follows (instrumentAt i) := follows_look fun _ _ _ => rfl
theorem follows_tradeAt (i : ℕ) : Follows (tradeAt i) := follows_look fun _ _ _ => rfl

theorem follows_modCustody (i : ℕ) (f : CustodyRow → Exec CustodyRow) :
    Follows (modCustody i f) := by
  refine follows_change fun s s' c hsame h => ?_
  obtain ⟨rows, hrows, rfl⟩ := map_eq_ok.mp h
  exact ⟨c, map_eq_ok.mpr ⟨rows, hrows, rfl⟩, { hsame with }⟩

theorem follows_modAccount (i : ℕ) (f : AccountRow → Exec AccountRow) :
    Follows (modAccount i f) := by
  refine follows_change fun s s' c hsame h => ?_
  obtain ⟨rows, hrows, rfl⟩ := map_eq_ok.mp h
  exact ⟨c, map_eq_ok.mpr ⟨rows, hrows, rfl⟩, { hsame with }⟩

theorem follows_modInstrument (i : ℕ) (f : InstrumentRow → Exec InstrumentRow) :
    Follows (modInstrument i f) := by
  refine follows_change fun s s' c hsame h => ?_
  obtain ⟨rows, hrows, rfl⟩ := map_eq_ok.mp h
  exact ⟨c, map_eq_ok.mpr ⟨rows, hrows, rfl⟩, { hsame with }⟩

theorem follows_modTrade (i : ℕ) (f : TradeRow → Exec TradeRow) : Follows (modTrade i f) := by
  refine follows_change fun s s' c hsame h => ?_
  obtain ⟨rows, hrows, rfl⟩ := map_eq_ok.mp h
  exact ⟨c, map_eq_ok.mpr ⟨rows, hrows, rfl⟩, { hsame with }⟩

/-- Interning an account does not depend on the representation. -/
theorem same_internAccount {s : PartitionState} {c : Caches} (hsame : c.Same s) (doc : UInt64) :
    ∃ c', (s.withCaches c).internAccount doc =
      ((s.internAccount doc).1, (s.internAccount doc).2.withCaches c') ∧
      c'.Same (s.internAccount doc).2 := by
  obtain ⟨h1, h2⟩ := hsame.accountIndex.insertOrGet doc s.accounts.length
  rcases hs : s.accountIndex.insertOrGet doc s.accounts.length with ⟨r, t⟩
  rcases hc : c.accountIndex.insertOrGet doc s.accounts.length with ⟨r', t'⟩
  rw [hs, hc] at h1 h2
  obtain rfl : r = r' := h1
  have hc' : (s.withCaches c).accountIndex.insertOrGet doc (s.withCaches c).accounts.length =
    (r, t') := hc
  by_cases hfull : s.cap.tables.accounts.toNat ≤ s.accounts.length
  · have hs' : s.internAccount doc = (none, s) := if_pos hfull
    have hc'' : (s.withCaches c).internAccount doc = (none, s.withCaches c) := if_pos hfull
    rw [hs', hc'']
    exact ⟨c, rfl, hsame⟩
  · have hfull' : ¬ (s.withCaches c).cap.tables.accounts.toNat ≤ (s.withCaches c).accounts.length :=
      hfull
    unfold internAccount
    rw [if_neg hfull, if_neg hfull', hs, hc']
    cases r <;> exact ⟨{ c with accountIndex := t' }, rfl, { hsame with accountIndex := h2 }⟩

/-- Interning an instrument does not depend on the representation. -/
theorem same_internInstrument {s : PartitionState} {c : Caches} (hsame : c.Same s)
    (externalId : UInt32) :
    ∃ c', (s.withCaches c).internInstrument externalId =
      ((s.internInstrument externalId).1, (s.internInstrument externalId).2.withCaches c') ∧
      c'.Same (s.internInstrument externalId).2 := by
  obtain ⟨h1, h2⟩ := hsame.instrumentIndex.insertOrGet (instrumentKey externalId)
    s.instruments.length
  rcases hs : s.instrumentIndex.insertOrGet (instrumentKey externalId) s.instruments.length
    with ⟨r, t⟩
  rcases hc : c.instrumentIndex.insertOrGet (instrumentKey externalId) s.instruments.length
    with ⟨r', t'⟩
  rw [hs, hc] at h1 h2
  obtain rfl : r = r' := h1
  have hc' : (s.withCaches c).instrumentIndex.insertOrGet (instrumentKey externalId)
    (s.withCaches c).instruments.length =
    (r, t') := hc
  by_cases hfull : s.cap.tables.instruments.toNat ≤ s.instruments.length
  · have hs' : s.internInstrument externalId = (none, s) := if_pos hfull
    have hc'' : (s.withCaches c).internInstrument externalId = (none, s.withCaches c) :=
      if_pos hfull
    rw [hs', hc'']
    exact ⟨c, rfl, hsame⟩
  · have hfull' : ¬ (s.withCaches c).cap.tables.instruments.toNat ≤
      (s.withCaches c).instruments.length := hfull
    unfold internInstrument
    rw [if_neg hfull, if_neg hfull', hs, hc']
    cases r <;> exact ⟨{ c with instrumentIndex := t' }, rfl, { hsame with instrumentIndex := h2 }⟩

/-- Interning a position does not depend on the representation. -/
theorem same_internPosition {s : PartitionState} {c : Caches} (hsame : c.Same s) (a i : ℕ) :
    ∃ c', (s.withCaches c).internPosition a i =
      ((s.internPosition a i).1, (s.internPosition a i).2.withCaches c') ∧
      c'.Same (s.internPosition a i).2 := by
  obtain ⟨h1, h2⟩ := hsame.positionIndex.insertOrGet (positionKey a i) s.custody.length
  rcases hs : s.positionIndex.insertOrGet (positionKey a i) s.custody.length with ⟨r, t⟩
  rcases hc : c.positionIndex.insertOrGet (positionKey a i) s.custody.length with ⟨r', t'⟩
  rw [hs, hc] at h1 h2
  obtain rfl : r = r' := h1
  have hc' : (s.withCaches c).positionIndex.insertOrGet (positionKey a i)
    (s.withCaches c).custody.length =
    (r, t') := hc
  by_cases hfull : s.cap.tables.positions.toNat ≤ s.custody.length
  · have hs' : s.internPosition a i = (none, s) := if_pos hfull
    have hc'' : (s.withCaches c).internPosition a i = (none, s.withCaches c) := if_pos hfull
    rw [hs', hc'']
    exact ⟨c, rfl, hsame⟩
  · have hfull' : ¬ (s.withCaches c).cap.tables.positions.toNat ≤ (s.withCaches c).custody.length :=
      hfull
    unfold internPosition
    rw [if_neg hfull, if_neg hfull', hs, hc']
    cases r <;> exact ⟨{ c with positionIndex := t' }, rfl, { hsame with positionIndex := h2 }⟩

theorem follows_account (doc : UInt64) : Follows (account doc) :=
  .bind (follows_ask fun _ _ h => same_internAccount h doc) fun r => .orFail r _

theorem follows_instrument (externalId : UInt32) : Follows (instrument externalId) :=
  .bind (follows_ask fun _ _ h => same_internInstrument h externalId) fun r => .orFail r _

theorem follows_position (a i : ℕ) : Follows (position a i) :=
  .bind (follows_ask fun _ _ h => same_internPosition h a i) fun r => .orFail r _

theorem follows_slot (date : DateYmd) : Follows (slot date) :=
  .bind (follows_look fun _ _ _ => rfl) fun k => .orFail k _

theorem follows_checkBuckets (pos : ℕ) : Follows (checkBuckets pos) :=
  .bind (follows_custodyAt pos) fun _ => .guard _ _

theorem follows_decode (t : Tmpl) (ofBytes : Bytes → α) (ev : EventView) :
    Follows (decode t ofBytes ev) :=
  .bind (.guard _ _) fun _ => .pure _

theorem follows_lift (x : Exec α) : Follows (Proc.lift x : Apply α) :=
  Proc.Sim.query fun _ _ _ _ h => h

/-- The records that count, after one more. -/
theorem take_set_kept {xs ys : List ExceptionRecord} {n cap : UInt32} (hcap : cap ≠ 0)
    (hx : xs.length = cap.toNat) (hy : ys.length = cap.toNat)
    (h : xs.take (min n.toNat cap.toNat) = ys.take (min n.toNat cap.toNat)) (r : ExceptionRecord) :
    (xs.set (n % cap).toNat r).take (min (n + 1).toNat cap.toNat) =
      (ys.set (n % cap).toNat r).take (min (n + 1).toNat cap.toNat) := by
  have hpos : 0 < cap.toNat := Nat.pos_of_ne_zero fun h0 => hcap (UInt32.toNat_inj.mp h0)
  have hsucc : (n + 1).toNat = (n.toNat + 1) % 2 ^ 32 := UInt32.toNat_add n 1
  have hn := n.toNat_lt
  have hc := cap.toNat_lt
  rw [UInt32.toNat_mod]
  refine List.ext_getElem? fun i => ?_
  have hold := congrArg (·[i]?) h
  simp only [List.getElem?_take] at hold ⊢
  split_ifs with hi
  · rw [List.getElem?_set, List.getElem?_set, hx, hy]
    split_ifs with heq
    · rfl
    · rfl
    · rw [if_pos, if_pos] at hold
      · exact hold
      all_goals
        rcases Nat.lt_or_ge n.toNat cap.toNat with hlt | hge
        · rw [Nat.mod_eq_of_lt hlt] at heq
          omega
        · omega
  · rfl

/-- A record that is pushed stands at the same place of both rings, which may differ only behind the
records that were pushed. -/
theorem same_pushException {s : PartitionState} {c : Caches} (hsame : c.Same s)
    (r : ExceptionRecord) (m : Bool) :
    ∃ c', (s.withCaches c).pushException r m = (s.pushException r m).withCaches c' ∧
      c'.Same (s.pushException r m) := by
  by_cases h0 : s.cap.tables.exceptions = 0
  · have hs : s.pushException r m = s := if_pos h0
    have hc : (s.withCaches c).pushException r m = s.withCaches c := if_pos h0
    rw [hs, hc]
    exact ⟨c, rfl, hsame⟩
  · have h0' : ¬ (s.withCaches c).cap.tables.exceptions = 0 := h0
    unfold PartitionState.pushException
    rw [if_neg h0, if_neg h0']
    refine ⟨{ c with exceptions :=
      c.exceptions.set (s.exceptionCount % s.cap.tables.exceptions).toNat r },
      rfl, { hsame with exceptions := ?_, exceptionRoom := ?_ }⟩
    · exact take_set_kept h0 hsame.exceptionRoom.1 hsame.exceptionRoom.2 hsame.exceptions r
    · simpa using hsame.exceptionRoom

theorem follows_pushException (r : ExceptionRecord) (m : Bool) : Follows (pushException r m) := by
  refine follows_change fun s s' c hsame h => ?_
  obtain rfl := Except.ok.inj h
  obtain ⟨c', h1, h2⟩ := same_pushException hsame r m
  exact ⟨c', by rw [h1], h2⟩

/-- Without an outbox nothing is staged: an output that fails in the first run is fatal there. -/
theorem follows_publicaPosicao (ev : EventView) (pos : ℕ) : Follows (publicaPosicao ev pos) := by
  intro e f r e' hA h hok
  have hs : e'.s = e.s ∧ r = .ok ⟨⟩ := by
    unfold publicaPosicao at h
    split at h
    · simp only [Except.ok.injEq, Prod.mk.injEq] at h
      exact ⟨by rw [← h.2], h.1.symm⟩
    · simp only [bind, except_bind_eq_ok] at h
      obtain ⟨c, -, a, -, i, -, ⟨st, o'⟩, -, h⟩ := h
      dsimp only at h
      split_ifs at h
      · simp only [Except.ok.injEq, Prod.mk.injEq] at h
        exact ⟨by rw [← h.2], h.1.symm⟩
      · simp only [Except.ok.injEq, Prod.mk.injEq] at h
        exact absurd rfl (hok _ h.1.symm)
  refine ⟨f, ?_, by rw [AgreeE, hs.1]; exact hA⟩
  unfold publicaPosicao
  rw [hA.2, hs.2]

theorem follows_advanceAccount (acct : ℕ) (covered : TradeRow → Bool) (g : TradeTrigger) :
    Follows (advanceAccount acct covered g) := by
  intro e f r e' hA h _
  obtain ⟨c, hc, hsame⟩ := hA.1
  simp only [advanceAccount, bind, except_bind_eq_ok] at h
  obtain ⟨a, ha, ⟨n, rows⟩, hadv, h⟩ := h
  simp only [Except.ok.injEq, Prod.mk.injEq] at h
  obtain ⟨rfl, rfl⟩ := h
  refine ⟨{ f with s := { f.s with trades := rows } }, ?_, ⟨c, ?_, { hsame with }⟩, hA.2⟩
  · simp only [advanceAccount, bind, except_bind_eq_ok]
    refine ⟨a, by rw [hc]; exact ha, (n, rows), by rw [hc]; exact hadv, rfl⟩
  · rw [hc]
    rfl

theorem follows_refusedBy (actionId : UInt64) (r : OpenTable.Inserted Unit) :
    Follows (refusedBy actionId r) := by
  cases r with
  | present v => exact .fail _
  | added => exact .pure _
  | full => exact .fail _

/-- A key of an action is new to both sets or to neither. -/
theorem follows_consumeAction (actionId : UInt64) (acct : ℕ) :
    Follows (consumeAction actionId acct) := by
  refine .bind (follows_ask fun s c hsame => ?_) fun r => follows_refusedBy actionId r
  obtain ⟨h1, h2⟩ := hsame.appliedActions.insert actionId acct
  refine ⟨{ c with appliedActions := (c.appliedActions.insert actionId acct).2 }, ?_,
    { hsame with appliedActions := h2 }⟩
  simp only [withCaches, h1]

/-- A key of an income is new to both sets or to neither. -/
theorem follows_consumeIncome (actionId : UInt64) (acct : ℕ) :
    Follows (consumeIncome actionId acct) := by
  refine .bind (follows_ask fun s c hsame => ?_) fun r => follows_refusedBy actionId r
  obtain ⟨h1, h2⟩ := hsame.appliedIncome.insert actionId acct
  refine ⟨{ c with appliedIncome := (c.appliedIncome.insert actionId acct).2 }, ?_,
    { hsame with appliedIncome := h2 }⟩
  simp only [withCaches, h1]

/-! ### Handlers -/

/-- Compaction makes the index of trades anew, the same from both. -/
theorem same_closeAndCompact {s s' : PartitionState} {c : Caches} (hsame : c.Same s)
    (h : s.closeAndCompactTrades = .ok s') :
    ∃ c', (s.withCaches c).closeAndCompactTrades = .ok (s'.withCaches c') ∧ c'.Same s' := by
  by_cases hany : s.trades.any (closes s.window) = true
  · have hany' : (s.withCaches c).trades.any (closes (s.withCaches c).window) = true := hany
    unfold closeAndCompactTrades at h ⊢
    rw [if_pos hany] at h
    rw [if_pos hany']
    simp only [bind, except_bind_eq_ok] at h ⊢
    obtain ⟨⟨trades, accounts⟩, hrel, h⟩ := h
    obtain rfl := Except.ok.inj h
    have hidx := DenseIndex.Same.insertKeysUnchecked (trades.map (·.tradeId)) 0
      hsame.tradeIndex.clear
    exact ⟨{ c with tradeIndex := _ }, ⟨(trades, accounts), hrel, rfl⟩,
      { hsame with tradeIndex := hidx }⟩
  · have hs : s.closeAndCompactTrades = .ok s := if_neg hany
    have hc : (s.withCaches c).closeAndCompactTrades = .ok (s.withCaches c) := if_neg hany
    rw [hs] at h
    obtain rfl := Except.ok.inj h
    exact ⟨c, hc, hsame⟩

theorem follows_applyDayOpened (ev : EventView) : Follows (applyDayOpened ev) := by
  refine .bind (follows_decode _ _ _) fun e => ?_
  refine .bind (.guard _ _) fun _ => ?_
  refine .bind (follows_look fun _ _ _ => rfl) fun today => ?_
  refine .bind (.guard _ _) fun _ => ?_
  refine follows_change fun s s' c hsame h => ?_
  simp only [openDay, bind, except_bind_eq_ok] at h ⊢
  obtain ⟨custody, hcust, accounts, hacc, h⟩ := h
  have hsame' : ({ c with
      appliedActions := c.appliedActions.maybeRotate e.businessDate s.cap.idempotencyWindowDays
      appliedIncome := c.appliedIncome.maybeRotate e.businessDate s.cap.idempotencyWindowDays } :
      Caches).Same { s with
        custody := custody
        accounts := accounts
        window := newWindow e
        businessDate := e.businessDate
        prevBusinessDate := e.prevBusinessDate
        appliedActions := s.appliedActions.maybeRotate e.businessDate s.cap.idempotencyWindowDays
        appliedIncome := s.appliedIncome.maybeRotate e.businessDate s.cap.idempotencyWindowDays } :=
    { hsame with
      appliedActions := hsame.appliedActions.maybeRotate _ _
      appliedIncome := hsame.appliedIncome.maybeRotate _ _ }
  obtain ⟨c', h1, h2⟩ := same_closeAndCompact hsame' h
  exact ⟨c', ⟨custody, hcust, accounts, hacc, h1⟩, h2⟩

theorem follows_insertTrade (e : TradeExecuted) (acct inst : ℕ) (cash : Raw) :
    Follows (change (insertTrade e acct inst cash)) := by
  refine follows_change fun s s' c hsame h => ?_
  simp only [insertTrade, bind, except_bind_eq_ok] at h ⊢
  obtain ⟨a, ha, h⟩ := h
  obtain rfl := Except.ok.inj h
  refine ⟨{ c with tradeIndex := (c.tradeIndex.insertOrGet e.tradeId s.trades.length).2 },
    ⟨a, ha, rfl⟩, { hsame with tradeIndex := ?_ }⟩
  exact (hsame.tradeIndex.insertOrGet e.tradeId s.trades.length).2

theorem follows_applyTradeExecuted (ev : EventView) : Follows (applyTradeExecuted ev) := by
  refine .bind (follows_decode _ _ _) fun e => ?_
  refine .bind (follows_look fun _ _ _ => rfl) fun full => ?_
  refine .bind (.guard _ _) fun _ => ?_
  refine .bind (follows_look fun s c hsame => ?_) fun known => ?_
  · simp only [withCaches, DenseIndex.contains, ← hsame.tradeIndex.find]
  refine .bind (.guard _ _) fun _ => ?_
  refine .bind (follows_account _) fun acct => ?_
  refine .bind (follows_instrument _) fun inst => ?_
  refine .bind (follows_instrumentAt _) fun described => ?_
  refine .bind (.guard _ _) fun _ => ?_
  refine .bind (follows_slot _) fun k => ?_
  refine .bind (follows_position _ _) fun pos => ?_
  refine .bind (.guard _ _) fun _ => ?_
  refine .bind (.guard _ _) fun _ => ?_
  refine .bind (.guard _ _) fun _ => ?_
  refine .bind (follows_lift _) fun gross => ?_
  refine .bind (.orFail _ _) fun fees => ?_
  refine .bind (follows_custodyAt _) fun c => ?_
  refine .bind (.guard _ _) fun _ => ?_
  refine .bind (follows_lift _) fun cash => ?_
  refine .bind (follows_modCustody _ _) fun _ => ?_
  refine .bind (follows_modAccount _ _) fun _ => ?_
  refine .bind (follows_insertTrade _ _ _ _) fun _ => ?_
  exact .bind (follows_checkBuckets _) fun _ => follows_publicaPosicao _ _

/-- Unlinking touches rows only. -/
theorem unlinkTrade_withCaches {s s' : PartitionState} (c : Caches) {acct t : ℕ} {b : Bool}
    (h : unlinkTrade s acct t = .ok (b, s')) :
    unlinkTrade (s.withCaches c) acct t = .ok (b, s'.withCaches c) ∧
      (c.Same s → c.Same s') := by
  unfold unlinkTrade at h ⊢
  simp only [bind, except_bind_eq_ok] at h ⊢
  obtain ⟨a, ha, h⟩ := h
  split at h
  · rename_i hnil
    simp only [Except.ok.injEq, Prod.mk.injEq] at h
    obtain ⟨rfl, rfl⟩ := h
    exact ⟨⟨a, ha, by rw [hnil]⟩, fun hsame => hsame⟩
  · rename_i first hfirst
    by_cases heq : first = t
    · rw [if_pos heq] at h
      simp only [except_bind_eq_ok] at h
      obtain ⟨r, hr, h⟩ := h
      simp only [Except.ok.injEq, Prod.mk.injEq] at h
      obtain ⟨rfl, rfl⟩ := h
      -- the walk reads rows and links only, and writes them: the caches are not touched
      refine ⟨⟨a, ha, ?_⟩, fun hsame => { hsame with }⟩
      simp only [hfirst, if_pos heq, except_bind_eq_ok]
      exact ⟨r, hr, rfl⟩
    · rw [if_neg heq] at h
      simp only [except_bind_eq_ok] at h
      obtain ⟨p, hp, h⟩ := h
      cases p with
      | none =>
        simp only [Except.ok.injEq, Prod.mk.injEq] at h
        obtain ⟨rfl, rfl⟩ := h
        refine ⟨⟨a, ha, ?_⟩, fun hsame => hsame⟩
        simp only [hfirst, if_neg heq, except_bind_eq_ok]
        exact ⟨none, hp, rfl⟩
      | some p =>
        simp only [except_bind_eq_ok] at h
        obtain ⟨r, hr, rows, hrows, h⟩ := h
        simp only [Except.ok.injEq, Prod.mk.injEq] at h
        obtain ⟨rfl, rfl⟩ := h
        refine ⟨⟨a, ha, ?_⟩, fun hsame => { hsame with }⟩
        simp only [hfirst, if_neg heq, except_bind_eq_ok]
        refine ⟨some p, hp, ?_⟩
        simp only [except_bind_eq_ok]
        exact ⟨r, hr, rows, hrows, rfl⟩

/-- The links are part of the rows, so a trade is moved the same way in both. -/
theorem follows_relinkTrade (de para t : ℕ) : Follows (change (relinkTrade de para t)) := by
  refine follows_change fun s s' c hsame h => ?_
  simp only [relinkTrade, bind, except_bind_eq_ok] at h ⊢
  obtain ⟨⟨b, s₁⟩, hun, a, ha, rows, hrows, h⟩ := h
  obtain ⟨h1, h2⟩ := unlinkTrade_withCaches c hun
  obtain rfl := Except.ok.inj h
  exact ⟨c, ⟨(b, s₁.withCaches c), h1, a, ha, rows, hrows, rfl⟩, { h2 hsame with }⟩

theorem follows_moveAllocation (e : TradeAllocated) (k : Fin 3) (de para inst t : ℕ) :
    Follows (moveAllocation e k de para inst t) := by
  refine .bind (follows_ask fun _ _ h => same_internPosition h de inst) fun rDe => ?_
  refine .bind (follows_ask fun _ _ h => same_internPosition h para inst) fun rPara => ?_
  refine .bind (.orFail _ _) fun posDe => ?_
  refine .bind (.orFail _ _) fun posPara => ?_
  refine .bind ?_ fun _ => ?_
  · refine .bind (follows_custodyAt _) fun cDe => .bind (follows_custodyAt _) fun cPara => ?_
    exact .bind (.guard _ _) fun _ => .guard _ _
  refine .bind (follows_modCustody _ _) fun _ => ?_
  refine .bind (follows_modCustody _ _) fun _ => ?_
  refine .bind (follows_modAccount _ _) fun _ => ?_
  refine .bind (follows_modAccount _ _) fun _ => ?_
  refine .bind (follows_relinkTrade _ _ _) fun _ => ?_
  exact .bind (follows_checkBuckets _) fun _ => follows_checkBuckets _

theorem follows_applyTradeAllocated (ev : EventView) : Follows (applyTradeAllocated ev) := by
  refine .bind (follows_decode _ _ _) fun e => ?_
  refine .bind (follows_look fun s c hsame => ?_) fun found => ?_
  · simp only [withCaches, ← hsame.tradeIndex.find]
  refine .bind (.orFail _ _) fun t => ?_
  refine .bind (follows_tradeAt _) fun trade => ?_
  refine .bind (follows_lift _) fun next => ?_
  refine .bind (.guard _ _) fun _ => ?_
  refine .bind (follows_ask fun _ _ h => same_internAccount h e.fromAccount) fun rDe => ?_
  refine .bind (follows_ask fun _ _ h => same_internAccount h e.toAccount) fun rPara => ?_
  refine .bind (.orFail _ _) fun de => ?_
  refine .bind (.orFail _ _) fun para => ?_
  refine .bind (follows_slot _) fun k => ?_
  refine .bind (.guard _ _) fun _ => ?_
  refine .bind (.ite (follows_moveAllocation _ _ _ _ _ _) (.pure _)) fun _ => ?_
  exact follows_modTrade _ _

theorem follows_applyBatchNetted (ev : EventView) : Follows (applyBatchNetted ev) := by
  refine .bind (follows_decode _ _ _) fun e => ?_
  refine .bind (follows_account _) fun acct => ?_
  refine .bind (follows_slot _) fun k => ?_
  refine .bind (follows_accountAt _) fun a => ?_
  refine .bind (.ite (.bind (follows_pushException _ _) fun _ => .fail _) (.pure _)) fun _ => ?_
  refine .bind (follows_advanceAccount _ _ _) fun n => ?_
  exact .ite (follows_pushException _ _) (.pure _)

theorem follows_settleBuckets (e : TradeSettled) (acct pos : ℕ) (outcome : SettleOutcome) :
    Follows (settleBuckets e acct pos outcome) := by
  cases outcome with
  | settled =>
    refine .bind (follows_slot _) fun k => .bind (follows_custodyAt _) fun c => ?_
    refine .bind (.guard _ _) fun _ => .bind (follows_modCustody _ _) fun _ => ?_
    exact follows_modAccount _ _
  | deliveryFailure =>
    refine .bind (follows_slot _) fun k => .bind (follows_custodyAt _) fun c => ?_
    refine .bind (.guard _ _) fun _ => .bind (follows_modCustody _ _) fun _ => ?_
    exact .bind (follows_modAccount _ _) fun _ => follows_pushException _ _
  | boughtIn =>
    refine .bind (follows_custodyAt _) fun c => .bind (.guard _ _) fun _ => ?_
    exact .bind (follows_modCustody _ _) fun _ => follows_modAccount _ _

theorem follows_applyTradeSettled (ev : EventView) : Follows (applyTradeSettled ev) := by
  refine .bind (follows_decode _ _ _) fun e => ?_
  refine .bind (follows_account _) fun acct => ?_
  refine .bind (follows_instrument _) fun inst => ?_
  refine .bind (follows_look fun s c hsame => ?_) fun found => ?_
  · simp only [withCaches, findPosition, ← hsame.positionIndex.find]
  refine .bind (.orFail _ _) fun pos => ?_
  refine .bind (.orFail _ _) fun outcome => ?_
  refine .bind (follows_settleBuckets _ _ _ _) fun _ => ?_
  refine .bind (follows_advanceAccount _ _ _) fun _ => ?_
  exact .bind (follows_checkBuckets _) fun _ => follows_publicaPosicao _ _

theorem follows_actOn (e : CorporateActionApplied) (acct pos : ℕ) (base : Raw)
    (type : ActionType) : Follows (actOn e acct pos base type) := by
  have hsplit : Follows (actSplit e pos base) :=
    .bind (follows_modCustody _ _) fun _ => .bind (follows_custodyAt _) fun _ =>
      .bind (follows_lift _) fun _ => follows_lift _
  cases type with
  | split => exact hsplit
  | reverseSplit => exact hsplit
  | bonus =>
    refine .bind (follows_lift _) fun x => .bind (follows_lift _) fun whole => ?_
    refine .bind (.guard _ _) fun _ => .bind (follows_lift _) fun cost => ?_
    exact .bind (follows_modCustody _ _) fun _ => follows_lift _
  | subscription =>
    refine .bind (.ite (.bind (follows_lift _) fun x => .guard _ _) (.pure _)) fun _ => ?_
    refine .bind (follows_modCustody _ _) fun _ => .bind (follows_modAccount _ _) fun _ => ?_
    exact .pure _
  | leftoversAuction =>
    refine .bind (follows_custodyAt _) fun c => .bind (follows_lift _) fun delta => ?_
    refine .bind (follows_modCustody _ _) fun _ => .bind (follows_modAccount _ _) fun _ => ?_
    exact .pure _

theorem follows_applyCorporateAction (ev : EventView) : Follows (applyCorporateAction ev) := by
  refine .bind (follows_decode _ _ _) fun e => ?_
  refine .bind (follows_account _) fun acct => ?_
  refine .bind (follows_instrument _) fun inst => ?_
  refine .bind (follows_position _ _) fun pos => ?_
  refine .bind (.orFail _ _) fun type => ?_
  refine .bind (.guard _ _) fun _ => ?_
  refine .bind (follows_consumeAction _ _) fun _ => ?_
  refine .bind (follows_custodyAt _) fun c => ?_
  refine .bind (follows_lift _) fun base => ?_
  refine .bind (follows_actOn _ _ _ _ _) fun delta => ?_
  refine .bind (follows_modAccount _ _) fun _ => ?_
  refine .bind (.ite (follows_pushException _ _) (.pure _)) fun _ => ?_
  exact .bind (follows_checkBuckets _) fun _ => follows_publicaPosicao _ _

theorem follows_applyDividendPaid (ev : EventView) : Follows (applyDividendPaid ev) := by
  refine .bind (follows_decode _ _ _) fun e => ?_
  refine .bind (follows_account _) fun acct => ?_
  refine .bind (follows_lift _) fun net => ?_
  refine .bind (.guard _ _) fun _ => ?_
  refine .bind (.guard _ _) fun _ => ?_
  refine .bind (follows_lift _) fun expected => ?_
  refine .bind (.ite (.bind (follows_pushException _ _) fun _ => .fail _) (.pure _)) fun _ => ?_
  exact .bind (follows_consumeIncome _ _) fun _ => follows_modAccount _ _

theorem follows_applyClosingPrice (ev : EventView) : Follows (applyClosingPrice ev) := by
  refine .bind (follows_decode _ _ _) fun e => ?_
  refine .bind (.guard _ _) fun _ => ?_
  exact .bind (follows_instrument _) fun inst => follows_modInstrument _ _

/-- Divergences are counted and pushed the same way. -/
theorem same_recordDivergences (date : DateYmd) (ds : List Divergence) :
    ∀ {s : PartitionState} {c : Caches}, c.Same s →
      ∃ c', recordDivergences date ds (s.withCaches c) =
        (recordDivergences date ds s).withCaches c' ∧
        c'.Same (recordDivergences date ds s) := by
  induction ds with
  | nil => exact fun hsame => ⟨_, rfl, hsame⟩
  | cons d ds ih =>
    intro s c hsame
    obtain ⟨c₁, h1, h2⟩ := same_pushException hsame ⟨d.account, d.qtyDelta, d.instrument, date,
      UInt16.ofNat Err.qtyMismatch.code⟩ true
    obtain ⟨c', h3, h4⟩ := ih h2
    refine ⟨c', ?_, h4⟩
    rw [recordDivergences, List.foldl_cons, h1]
    exact h3

theorem follows_applyCustodyReconciled (ev : EventView) : Follows (applyCustodyReconciled ev) := by
  refine .bind (follows_decode _ _ _) fun date => ?_
  refine .bind (.ofExcept _) fun ds => ?_
  refine follows_change fun s s' c hsame h => ?_
  obtain rfl := Except.ok.inj h
  obtain ⟨c', h1, h2⟩ := same_recordDivergences date ds hsame
  exact ⟨c', by rw [h1], h2⟩

theorem follows_applyEodMarked (ev : EventView) : Follows (applyEodMarked ev) := by
  refine .bind (follows_decode _ _ _) fun e => ?_
  refine .bind (follows_look fun _ _ _ => rfl) fun custody => ?_
  refine .bind (follows_look fun _ _ _ => rfl) fun cash => ?_
  refine .bind (.guard _ _) fun _ => ?_
  refine follows_change fun s s' c hsame h => ?_
  obtain rfl := Except.ok.inj h
  exact ⟨c, rfl, { hsame with }⟩

/-- Every handler does the same from states that agree. -/
theorem follows_dispatch (ev : EventView) : Follows (dispatch ev) := by
  unfold dispatch
  split
  · rename_i t _
    cases t with
    | dayOpened => exact follows_applyDayOpened ev
    | tradeExecuted => exact follows_applyTradeExecuted ev
    | tradeAllocated => exact follows_applyTradeAllocated ev
    | batchNetted => exact follows_applyBatchNetted ev
    | tradeSettled => exact follows_applyTradeSettled ev
    | corporateActionApplied => exact follows_applyCorporateAction ev
    | dividendPaid => exact follows_applyDividendPaid ev
    | closingPriceSet => exact follows_applyClosingPrice ev
    | custodyReconciled => exact follows_applyCustodyReconciled ev
    | eodMarked => exact follows_applyEodMarked ev
  · exact .fail _

end Apply

/-- One event on two states that agree: the same status, and they still agree. -/
theorem Agree.apply {s t : PartitionState} (hA : Agree s t) {o : Option Outbox} {ev : EventView}
    {st : Status} {e : Engine} (h : apply ⟨s, o⟩ ev = .ok (st, e)) (hok : st.isFatal = false) :
    ∃ t', MotorRv.apply ⟨t, none⟩ ev = .ok (st, ⟨t', none⟩) ∧ Agree e.s t' := by
  simp only [MotorRv.apply, bind, except_bind_eq_ok] at h ⊢
  obtain ⟨⟨r, e₁⟩, hd, h⟩ := h
  simp only [Except.ok.injEq, Prod.mk.injEq] at h
  obtain ⟨rfl, rfl⟩ := h
  obtain ⟨f, hf, ⟨c, hc, hsame⟩, hout⟩ := Apply.follows_dispatch ev ⟨s, o⟩ ⟨t, none⟩ r e₁
    ⟨hA, rfl⟩ hd (fun e' he' => by
      rw [he', statusOf] at hok
      simp [hok])
  refine ⟨{ f.s with appliedLsn := UInt64.ofNat ev.lsn }, ⟨(r, f), hf, ?_⟩, c, ?_, { hsame with }⟩
  · rw [← hout]
  · rw [hc]
    rfl

end MotorRv
