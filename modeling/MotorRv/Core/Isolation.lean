import MotorRv.Core.Counters

/-!
# Isolation

Positions, accounts and trades of everybody share the same columns, and two handlers walk lists
through the table of all trades. Whatever becomes of an event — accepted, rejected or fatal — the
rows it does not name are what they were, up to the links of the lists; and the average price of a
position moves only with a purchase that settles or a corporate action on that position.

What an event names is a definition on the event alone (`Event.NamesAccount`, `Event.NamesTrade`),
so the statement can be read without the handlers. The frame lemmas are one for each table, by cases
on the effect of an event; where a handler walks the trades of an account, the walk visits rows of
that account only, because the lists are disjoint, and that is an invariant of reachable states.

The opening of a day touches every row and is left out. For a fatal event the rows are those of its
effect or those before it; of a handler that aborts nothing is said, as it leaves no state.
-/

namespace MotorRv

open Lib PartitionState Apply

/-! ### Names -/

/-- The accounts that an event names. -/
def Event.NamesAccount (doc : UInt64) : Event → Prop
  | .dayOpened _ => True
  | .tradeExecuted e => doc = e.account
  | .tradeAllocated e => doc = e.fromAccount ∨ doc = e.toAccount
  | .batchNetted e => doc = e.account
  | .tradeSettled e => doc = e.account
  | .corporateActionApplied e => doc = e.account
  | .dividendPaid e => doc = e.account
  | _ => False

/-- The trades that an event names by their id. -/
def Event.NamesTrade (id : UInt64) : Event → Prop
  | .tradeExecuted e => id = e.tradeId
  | .tradeAllocated e => id = e.tradeId
  | _ => False

/-- The events that may move the average price of a position. -/
def Event.MovesPrice (s' : PartitionState) (c : CustodyRow) : Event → Prop
  | .tradeSettled e => s'.IsHeld c e.account e.instrument ∧ e.side = kSideBuy ∧
      SettleOutcome.ofCode e.outcome = some .settled
  | .corporateActionApplied e => s'.IsHeld c e.account e.instrument
  | _ => False

/-! ### The average price -/

section AvgPrice

variable {c c' : CustodyRow}

theorem avgPrice_rotateCustodySlot {old new : SettlementWindow} {k : Fin 3} {acc : CustodyRow}
    (h : rotateCustodySlot old new c acc k = .ok c') : c'.avgPrice = acc.avgPrice := by
  have hret : Returns (rotateCustodySlot old new c acc k) fun c' => c'.avgPrice = acc.avgPrice := by
    refine .ite (fun _ => .ok rfl) fun _ => ?_
    split
    · exact .bind fun _ _ => .bind fun _ _ => .ok rfl
    · exact .bind fun _ _ => .bind fun _ _ => .ok rfl
  exact hret c' h

/-- The rotation leaves the price; so do the other changes of quantities. -/
theorem avgPrice_rotateCustody {old new : SettlementWindow} (h : rotateCustody old new c = .ok c') :
    c'.avgPrice = c.avgPrice := by
  unfold rotateCustody at h
  split_ifs at h
  · rw [Except.ok.inj h]
  · simp only [bind, except_bind_eq_ok] at h
    obtain ⟨c₁, h₁, c₂, h₂, h₃⟩ := h
    rw [avgPrice_rotateCustodySlot h₃, avgPrice_rotateCustodySlot h₂,
      avgPrice_rotateCustodySlot h₁]

theorem avgPrice_executeCustody (e : TradeExecuted) (k : Fin 3) (c : CustodyRow) :
    Returns (executeCustody e k c) fun c' => c'.avgPrice = c.avgPrice :=
  .ite (fun _ => .bind fun _ _ => .ok rfl) fun _ => .bind fun _ _ => .bind fun _ _ => .ok rfl

theorem avgPrice_allocateFrom (e : TradeAllocated) (k : Fin 3) (c : CustodyRow) :
    Returns (allocateFrom e k c) fun c' => c'.avgPrice = c.avgPrice :=
  .ite (fun _ => .bind fun _ _ => .ok rfl) fun _ => .bind fun _ _ => .bind fun _ _ => .ok rfl

theorem avgPrice_allocateTo (e : TradeAllocated) (k : Fin 3) (c : CustodyRow) :
    Returns (allocateTo e k c) fun c' => c'.avgPrice = c.avgPrice :=
  .ite (fun _ => .bind fun _ _ => .ok rfl) fun _ => .bind fun _ _ => .bind fun _ _ => .ok rfl

theorem avgPrice_failCustody (e : TradeSettled) (k : Fin 3) (c : CustodyRow) :
    Returns (failCustody e k c) fun c' => c'.avgPrice = c.avgPrice :=
  .ite (fun _ => .bind fun _ _ => .bind fun _ _ => .ok rfl)
    fun _ => .bind fun _ _ => .bind fun _ _ => .ok rfl

theorem avgPrice_buyInCustody (e : TradeSettled) (c : CustodyRow) :
    Returns (buyInCustody e c) fun c' => c'.avgPrice = c.avgPrice :=
  .ite (fun _ => .bind fun _ _ => .bind fun _ _ => .ok rfl) fun _ => .bind fun _ _ => .ok rfl

/-- A sale that settles leaves the price. -/
theorem avgPrice_settleCustody (e : TradeSettled) (k : Fin 3) (c : CustodyRow) :
    Returns (settleCustody e k c) fun c' => e.side = kSideBuy ∨ c'.avgPrice = c.avgPrice :=
  .ite (fun hside _ _ => .inl hside) fun _ => .bind fun _ _ => .ok (.inr rfl)

/-- Only settled purchases and corporate actions change a price. -/
theorem CustodyStep.avgPrice {s s' : PartitionState} {x : Event} (h : CustodyStep s s' x c c') :
    c'.avgPrice = c.avgPrice ∨ x.MovesPrice s' c := by
  cases h with
  | same => exact .inl rfl
  | rotated h => exact .inl (avgPrice_rotateCustody h)
  | executed _ _ _ _ h => exact .inl (avgPrice_executeCustody _ _ _ _ h)
  | allocatedFrom _ _ _ _ _ _ _ h => exact .inl (avgPrice_allocateFrom _ _ _ _ h)
  | allocatedTo _ _ _ _ _ _ _ h => exact .inl (avgPrice_allocateTo _ _ _ _ h)
  | settled hheld hout h =>
    cases h with
    | settled _ _ hc _ =>
      exact (avgPrice_settleCustody _ _ _ _ hc).symm.imp_right fun hside => ⟨hheld, hside, hout⟩
    | deliveryFailure _ _ hc _ => exact .inl (avgPrice_failCustody _ _ _ _ hc)
    | boughtIn _ hc _ => exact .inl (avgPrice_buyInCustody _ _ _ hc)
  | acted hheld => exact .inr hheld

end AvgPrice

/-! ### Accounts -/

section Accounts

variable {s s₁ s' : PartitionState} {i : ℕ} {a : AccountRow}

/-- An account whose row is left alone. -/
theorem accountFrame_same (hI : Interned s s₁) (h : s'.accounts = s₁.accounts)
    (ha : s.accounts[i]? = some a) :
    ∃ a', s'.accounts[i]? = some a' ∧ a'.unlinked = a.unlinked :=
  ⟨a, by rw [h]; exact hI.accountRow ha, rfl⟩

/-- One account changes, and it is another. -/
theorem accountFrame_set (hI : Interned s s₁) {acct : ℕ} {doc : UInt64} {b : AccountRow}
    (hacct : s₁.accountKeys[acct]? = some doc)
    (h : s'.accounts.map AccountRow.unlinked = (s₁.accounts.set acct b).map AccountRow.unlinked)
    (ha : s.accounts[i]? = some a) (hdoc : a.document ≠ doc) :
    ∃ a', s'.accounts[i]? = some a' ∧ a'.unlinked = a.unlinked := by
  have ha₁ := hI.accountRow ha
  have hne : acct ≠ i := by
    rintro rfl
    rw [accountKeys, List.getElem?_map, ha₁, Option.map_some, Option.some.injEq] at hacct
    exact hdoc hacct
  have hi := congrArg (fun l => l[i]?) h
  simp only [List.getElem?_map, List.getElem?_set_ne hne, ha₁, Option.map_some] at hi
  exact Option.map_eq_some_iff.mp hi

/-- By cases on the effect: an account that the event does not name keeps its money. -/
theorem Effect.account_frame {x : Event} (h : Effect s x s') (hday : ∀ d, x ≠ .dayOpened d)
    (ha : s.accounts[i]? = some a) (hno : ¬ x.NamesAccount a.document) :
    ∃ a', s'.accounts[i]? = some a' ∧ a'.unlinked = a.unlinked := by
  cases h with
  | dayOpened => exact absurd rfl (hday _)
  | tradeExecuted hI _ _ hacct =>
    exact accountFrame_set hI hacct (by rfl) ha hno
  | allocatedInPlace hI => exact accountFrame_same hI (by rfl) ha
  | @allocated e s₁ s₂ r r' k c₁ c₁' c₂ c₂' a₁ a₁' a₂ a₂' t de para posDe posPara hI _ _ _ hfrom hto
      hne _ _ _ _ _ _ _ _ _ _ _ ha₁' _ _ hlink =>
    have ha' := hI.accountRow ha
    have hother : ∀ {row : ℕ} {doc : UInt64}, s₁.accountKeys[row]? = some doc → a.document ≠ doc →
        row ≠ i := by
      rintro row doc hrow hdoc rfl
      rw [accountKeys, List.getElem?_map, ha', Option.map_some, Option.some.injEq] at hrow
      exact hdoc hrow
    have hi := congrArg (fun l => l[i]?) (relinkTrade_rows hlink).1
    simp only [List.getElem?_map,
      List.getElem?_set_ne (hother hto fun heq => hno (.inr heq)),
      List.getElem?_set_ne (hother hfrom fun heq => hno (.inl heq)), ha', Option.map_some] at hi
    exact Option.map_eq_some_iff.mp hi
  | batchNetted hI _ _ _ _ _ hlog => exact accountFrame_same hI hlog.accounts ha
  | tradeSettled hI hfind _ _ _ hlog =>
    exact accountFrame_set hI hfind.account (congrArg _ hlog.accounts) ha hno
  | corporateActionApplied hI hacct _ _ _ _ _ _ _ _ _ _ _ _ hlog =>
    exact accountFrame_set hI hacct (congrArg _ hlog.accounts) ha hno
  | dividendPaid hI hacct => exact accountFrame_set hI hacct (by rfl) ha hno
  | closingPriceSet hI => exact accountFrame_same hI (by rfl) ha
  | custodyReconciled =>
    obtain ⟨xs, n, d, f, hrest⟩ := recordDivergences_rest _ _ s
    rw [hrest]
    exact ⟨a, ha, rfl⟩
  | eodMarked => exact ⟨a, ha, rfl⟩

end Accounts

/-! ### Trades -/

/-- A walk changes the state of covered trades, and nothing else. -/
theorem advance_row {covered : TradeRow → Bool} {g : TradeTrigger} {i : ℕ} : ∀ {fuel : ℕ}
    {l : Option ℕ} {trades rows : List TradeRow} {n : ℕ} {r : TradeRow},
    advance covered g fuel l trades = .ok (n, rows) → trades[i]? = some r →
      ∃ r', rows[i]? = some r' ∧
        (r' = r ∨ (covered r = true ∧ ∃ st, r' = { r with state := st })) := by
  intro fuel
  induction fuel with
  | zero =>
    intro l trades rows n r h hr
    cases l with
    | none =>
      obtain ⟨-, rfl⟩ := Prod.mk.inj (Except.ok.inj h)
      exact ⟨r, hr, .inl rfl⟩
    | some t => cases h
  | succ fuel ih =>
    intro l trades rows n r h hr
    cases l with
    | none =>
      obtain ⟨-, rfl⟩ := Prod.mk.inj (Except.ok.inj h)
      exact ⟨r, hr, .inl rfl⟩
    | some t =>
      simp only [advance, bind, except_bind_eq_ok] at h
      obtain ⟨q, hq, h⟩ := h
      -- a row that is not covered is walked past
      split_ifs at h with hc
      · simp only [except_bind_eq_ok] at h
        obtain ⟨st, -, h⟩ := h
        split_ifs at h
        · exact ih h hr
        · simp only [except_bind_eq_ok] at h
          obtain ⟨⟨m, rows'⟩, hrec, h⟩ := h
          obtain ⟨-, rfl⟩ := Prod.mk.inj (Except.ok.inj h)
          have hq := rowAt_eq_ok.mp hq
          -- a covered row changes its state; the rest of the walk may change it once more
          by_cases hi : t = i
          · subst hi
            obtain rfl := Option.some.inj (hr.symm.trans hq)
            obtain ⟨r', hr', hcases⟩ := ih hrec
              (List.getElem?_set_self (List.getElem?_eq_some_iff.mp hq).1)
            refine ⟨r', hr', .inr ⟨hc, ?_⟩⟩
            rcases hcases with rfl | ⟨-, st', rfl⟩
            · exact ⟨_, rfl⟩
            · exact ⟨st', rfl⟩
          · exact ih hrec (by rw [List.getElem?_set_ne hi]; exact hr)
      · exact ih h hr

section Trades

variable {s s₁ s' : PartitionState} {i : ℕ} {r : TradeRow}

/-- A walk from an account that the trade does not belong to. -/
theorem tradeFrame_advance (hI : Interned s s₁) {acct : ℕ} {doc : UInt64} {a : AccountRow}
    {covered : TradeRow → Bool} {g : TradeTrigger} {n : ℕ} {rows : List TradeRow}
    (howner : ∀ r, covered r = true → r.account = acct)
    (hacct : s₁.accountKeys[acct]? = some doc) (ha : s₁.accounts[acct]? = some a)
    (hadv : advance covered g s.trades.length a.firstTrade s.trades = .ok (n, rows))
    (hr : s.trades[i]? = some r) (hno : s.accountKeys[r.account]? ≠ some doc) :
    rows[i]? = some r := by
  obtain hold | ⟨-, doc', rfl⟩ := hI.accounts_cases ha
  · obtain ⟨r', hr', rfl | ⟨hc, -⟩⟩ := advance_row hadv hr
    · exact hr'
    · refine absurd ?_ hno
      rw [accountKeys, List.getElem?_map, ha, Option.map_some] at hacct
      rw [howner r hc, accountKeys, List.getElem?_map, hold, Option.map_some, hacct]
  · -- a new account has no trades
    have hempty : advance covered g s.trades.length none s.trades = .ok (0, s.trades) := by
      cases s.trades.length <;> rfl
    rw [AccountRow.cleared, hempty] at hadv
    obtain ⟨-, rfl⟩ := Prod.mk.inj (Except.ok.inj hadv)
    exact hr

/-- By cases on the effect: a trade that the event does not name, of an account it does not name,
keeps its row. -/
theorem Effect.trade_frame {x : Event} (h : Effect s x s') (hs : s.Sound)
    (hday : ∀ d, x ≠ .dayOpened d) (hr : s.trades[i]? = some r) (hid : ¬ x.NamesTrade r.tradeId)
    (hown : ∀ doc, s.accountKeys[r.account]? = some doc → ¬ x.NamesAccount doc) :
    ∃ r', s'.trades[i]? = some r' ∧ r'.unlinked = r.unlinked := by
  -- the row that an id is indexed with carries it
  have hne : ∀ {t : ℕ} {id : UInt64}, s.tradeIndex.find id = some t → r.tradeId ≠ id → t ≠ i := by
    rintro t id ht hrid rfl
    have hkey := (hs.trades.index.find id t).mp ht
    rw [tradeKeys, List.getElem?_map, hr, Option.map_some, Option.some.injEq] at hkey
    exact hrid hkey
  cases h with
  | dayOpened => exact absurd rfl (hday _)
  | tradeExecuted hI =>
    refine ⟨r, ?_, rfl⟩
    change (s.trades ++ _)[i]? = some r
    rw [List.getElem?_append_left (List.getElem?_eq_some_iff.mp hr).1, hr]
  | allocatedInPlace hI ht =>
    refine ⟨r, ?_, rfl⟩
    change (s.trades.set _ _)[i]? = some r
    rw [List.getElem?_set_ne (hne ht hid), hr]
  | allocated hI ht _ _ _ _ _ _ _ _ _ _ _ _ _ _ _ _ _ _ _ hlink =>
    obtain ⟨-, ⟨q, -, hrows⟩, -⟩ := relinkTrade_rows hlink
    have hti := hne ht hid
    have hi := congrArg (fun l => l[i]?) hrows
    simp only [List.getElem?_map, List.getElem?_set_ne hti, hI.trades, hr, Option.map_some] at hi
    obtain ⟨r', hr', heq⟩ := Option.map_eq_some_iff.mp hi
    refine ⟨r', ?_, heq⟩
    change (List.set _ _ _)[i]? = some r'
    rw [List.getElem?_set_ne hti, hr']
  | batchNetted hI hacct ha _ _ hadv hlog =>
    refine ⟨r, ?_, rfl⟩
    rw [hlog.trades]
    refine tradeFrame_advance hI (fun q hq => ?_) hacct ha hadv hr
      fun hdoc => hown _ hdoc rfl
    simp only [ofBatch, Bool.and_eq_true, decide_eq_true_eq] at hq
    exact hq.1
  | tradeSettled hI hfind _ _ hadv hlog =>
    refine ⟨r, ?_, rfl⟩
    rw [hlog.trades]
    refine tradeFrame_advance hI (fun q hq => ?_) hfind.account hfind.cash hadv hr
      fun hdoc => hown _ hdoc rfl
    simp only [covers, Bool.and_eq_true, decide_eq_true_eq] at hq
    exact hq.1.1.1
  | corporateActionApplied hI _ _ _ _ _ _ _ _ _ _ _ _ _ hlog =>
    exact ⟨r, by rw [hlog.trades]; exact hI.trades ▸ hr, rfl⟩
  | dividendPaid hI => exact ⟨r, hI.trades ▸ hr, rfl⟩
  | closingPriceSet hI => exact ⟨r, hI.trades ▸ hr, rfl⟩
  | custodyReconciled =>
    obtain ⟨xs, n, d, f, hrest⟩ := recordDivergences_rest _ _ s
    rw [hrest]
    exact ⟨r, hr, rfl⟩
  | eodMarked => exact ⟨r, hr, rfl⟩

end Trades

/-! ### Every event -/

/-- The position, the account or the trade is named by the event of a record. -/
def NamedPosition (s s' : PartitionState) (ev : EventView) (c : CustodyRow) : Prop :=
  ∃ x, LogRecord.event ev = some x ∧ x.NamesPosition s s' c

def NamedAccount (ev : EventView) (doc : UInt64) : Prop :=
  ∃ x, LogRecord.event ev = some x ∧ x.NamesAccount doc

def NamedTrade (s : PartitionState) (ev : EventView) (r : TradeRow) : Prop :=
  ∃ x, LogRecord.event ev = some x ∧ (x.NamesTrade r.tradeId ∨
    ∃ doc, s.accountKeys[r.account]? = some doc ∧ x.NamesAccount doc)

/-- However an event ends, it has kept the rows, or its effect can be seen in them. -/
theorem apply_rows {s : PartitionState} (hs : s.Sound) {o : Option Outbox} {ev : EventView}
    {st : Status} {e : Engine} (h : apply ⟨s, o⟩ ev = .ok (st, e)) :
    (∃ t, Kept { s with appliedActions := t } e.s) ∨ ∃ x s', LogRecord.event ev = some x ∧
      Effect s x s' ∧ (st.isOk = true ∨ st.isFatal = true) ∧ s'.custody = e.s.custody ∧
      s'.accounts = e.s.accounts ∧ s'.instruments = e.s.instruments ∧
      (s'.trades = e.s.trades ∨ ∃ t r a, s'.trades = e.s.trades.set t r ∧
        x = .tradeAllocated a ∧ s.tradeIndex.find a.tradeId = some t) := by
  obtain ⟨s', hs', ⟨rfl, x, hx, heff⟩ | hend⟩ := apply_cases hs h
  · rw [hs']
    exact .inr ⟨x, s', hx, heff, .inl rfl, rfl, rfl, rfl, .inl rfl⟩
  · rw [hs']
    rcases hfatal : st.isFatal with _ | _
    · obtain ⟨t, hkept⟩ := hend.kept hfatal
      exact .inl ⟨t, { hkept with }⟩
    · cases hend with
      | turned hkept => exact .inl ⟨s.appliedActions, { hkept with }⟩
      | executedBefore => cases hfatal
      | actionBefore => cases hfatal
      | incomeBefore => cases hfatal
      | diverged => exact .inl ⟨s.appliedActions, { Kept.refl s with }⟩
      | refused _ _ _ _ _ hst =>
        rw [hst] at hfatal
        cases hfatal
      | unpublished hev _ heff =>
        exact .inr ⟨_, _, hev, heff, .inr rfl, rfl, rfl, rfl, .inl rfl⟩
      | corrupt hev _ heff => exact .inr ⟨_, _, hev, heff, .inr rfl, rfl, rfl, rfl, .inl rfl⟩
      | corruptMove hev heff hrow =>
        exact .inr ⟨_, _, hev, heff, .inr rfl, rfl, rfl, rfl, .inr ⟨_, _, _, rfl, rfl, hrow⟩⟩

/-- **Isolation.** From a reachable state, whatever becomes of an event other than the opening of a
day, a position, an account or a trade that it does not name is what it was, links apart. And for
every event, the average price of a position moves only with a settled purchase or a corporate
action on it, which was accepted or ended fatally. -/
theorem isolation {s : PartitionState} (hreach : Reachable s) {o : Option Outbox} {ev : EventView}
    {st : Status} {e : Engine} (h : apply ⟨s, o⟩ ev = .ok (st, e)) :
    ((∀ d, LogRecord.event ev ≠ some (.dayOpened d)) →
      (∀ (p : ℕ) (c : CustodyRow), s.custody[p]? = some c → ¬ NamedPosition s e.s ev c →
        e.s.custody[p]? = some c) ∧
      (∀ (i : ℕ) (a : AccountRow), s.accounts[i]? = some a → ¬ NamedAccount ev a.document →
        ∃ a' : AccountRow, e.s.accounts[i]? = some a' ∧ a'.unlinked = a.unlinked) ∧
      (∀ (i : ℕ) (r : TradeRow), s.trades[i]? = some r → ¬ NamedTrade s ev r →
        ∃ r' : TradeRow, e.s.trades[i]? = some r' ∧ r'.unlinked = r.unlinked)) ∧
    ∀ (p : ℕ) (c c' : CustodyRow), s.custody[p]? = some c → e.s.custody[p]? = some c' →
      c'.avgPrice ≠ c.avgPrice →
      (st.isOk = true ∨ st.isFatal = true) ∧
        ∃ x, LogRecord.event ev = some x ∧ x.MovesPrice e.s c := by
  have hs := hreach.sound
  obtain ⟨t, hkept⟩ | ⟨x, s', hx, heff, hst, hcust, hacc, hinst, htr⟩ := apply_rows hs h
  -- without an effect rows are only added, by interning
  · obtain ⟨nc, hnc, -⟩ := hkept.custody
    obtain ⟨na, hna, -⟩ := hkept.accounts
    have hrow : ∀ p c, s.custody[p]? = some c → e.s.custody[p]? = some c := fun p c hc => by
      rw [hnc, List.getElem?_append_left (List.getElem?_eq_some_iff.mp hc).1, hc]
    refine ⟨fun _ => ⟨fun p c hc _ => hrow p c hc, fun i a ha _ => ⟨a, ?_, rfl⟩,
      fun i r hr _ => ⟨r, by rw [hkept.trades]; exact hr, rfl⟩⟩, fun p c c' hc hc' hne => ?_⟩
    · rw [hna, List.getElem?_append_left (List.getElem?_eq_some_iff.mp ha).1, ha]
    · obtain rfl := Option.some.inj ((hrow p c hc).symm.trans hc')
      exact absurd rfl hne
  -- with an effect each table has its frame lemma
  · have hbefore : ∀ {p c} c', s.custody[p]? = some c → s.rowBefore p c' = c := fun c' hc => by
      rw [rowBefore, List.getD_eq_getElem?_getD, hc, Option.getD_some]
    have hheld : ∀ c doc id, s'.IsHeld c doc id ↔ e.s.IsHeld c doc id := fun c doc id =>
      isHeld_congr (by rw [accountKeys, hacc]; rfl) (by rw [instrumentKeys, hinst]; rfl)
    have hholder : ∀ c, s'.holderOf c = e.s.holderOf c := fun c => by
      rw [holderOf, holderOf, accountKeys, hacc]
      rfl
    refine ⟨fun hday => ⟨fun p c hc hno => ?_, fun i a ha hno => ?_, fun i r hr hno => ?_⟩,
      fun p c c' hc hc' hne => ⟨hst, x, hx, ?_⟩⟩
    · obtain ⟨c', hc'⟩ : ∃ c', s'.custody[p]? = some c' := by
        have := heff.custody_length
        have := (List.getElem?_eq_some_iff.mp hc).1
        exact ⟨_, List.getElem?_eq_getElem (by omega)⟩
      have hstep := heff.custodyStep hs hc'
      rw [hbefore c' hc] at hstep
      have hno' : ¬ x.NamesPosition s s' c := fun hname => hno ⟨x, hx, by
        cases x <;> simp only [Event.NamesPosition, hheld, hholder] at hname ⊢ <;> exact hname⟩
      rw [← hcust, hc', hstep.eq_of_not_named hno']
    · obtain ⟨a', ha', hun⟩ := heff.account_frame (fun d hd => hday d (hd ▸ hx)) ha
        fun hname => hno ⟨x, hx, hname⟩
      exact ⟨a', hacc ▸ ha', hun⟩
    · obtain ⟨r', hr', hun⟩ := heff.trade_frame hs (fun d hd => hday d (hd ▸ hx)) hr
        (fun hname => hno ⟨x, hx, .inl hname⟩) fun doc hdoc hname =>
          hno ⟨x, hx, .inr ⟨doc, hdoc, hname⟩⟩
      -- a fatal allocation may leave the trade without its new state: that row is named
      obtain heq | ⟨t, q, a, heq, rfl, hrow⟩ := htr
      · exact ⟨r', heq ▸ hr', hun⟩
      · have hti : t ≠ i := by
          rintro rfl
          have hkey := (hs.trades.index.find _ t).mp hrow
          rw [tradeKeys, List.getElem?_map, hr, Option.map_some, Option.some.injEq] at hkey
          exact hno ⟨_, hx, .inl hkey⟩
        rw [heq, List.getElem?_set_ne hti] at hr'
        exact ⟨r', hr', hun⟩
    · rw [← hcust] at hc'
      have hstep := heff.custodyStep hs hc'
      rw [hbefore c' hc] at hstep
      have hmoves := hstep.avgPrice.resolve_left hne
      cases x <;> simp only [Event.MovesPrice, hheld] at hmoves ⊢ <;> exact hmoves

/-- A subscription of one unit, with no ratio to exceed, for a new position. -/
def subscriptionOfOne : EventView where
  lsn := 1
  tsNs := 0
  tmpl := 6
  payload := List.replicate 16 0 ++ 1 :: List.replicate 63 0 ++ 4 :: List.replicate 7 0

/-- A subscription of one unit for some money. -/
def paidSubscription : EventView where
  lsn := 2
  tsNs := 0
  tmpl := 6
  payload := 1 :: List.replicate 15 0 ++ 1 :: List.replicate 15 0 ++ 1 :: List.replicate 47 0 ++
    4 :: List.replicate 7 0

/-- With an outbox that has no room for a position, the subscription moves the price and ends
fatally. -/
theorem not_forall_price_accepted :
    ¬ ∀ s, Reachable s → ∀ o ev st e, apply ⟨s, o⟩ ev = .ok (st, e) →
      ∀ (p : ℕ) (c c' : CustodyRow), s.custody[p]? = some c → e.s.custody[p]? = some c' →
        c'.avgPrice ≠ c.avgPrice → st.isOk = true := by
  intro h
  have hreach : Reachable _ := .of_run
    (show blank.init ⟨2 ^ 16, 0, false, false⟩ 1 ⟨2, 2, 2, 1, 2, 1, 1, 1, 60⟩ = .ok (true, _, _)
      from rfl)
    (show applyAll _ [(subscriptionOfOne, none)] = .ok ([.kOk], _) from rfl)
  have hok := h _ hreach (some (Outbox.fresh 16 1)) paidSubscription (.fail .arenaExhausted 0) _ rfl
    0 _ _ rfl rfl (by decide)
  cases hok

/-- Two accounts buy in the same instrument; the purchase of the first is confirmed and netted. -/
def twoBuyers : List Event :=
  [.closingPriceSet quoted, .dayOpened firstDay, .tradeExecuted boughtOne,
    .tradeExecuted { boughtOther with price := 100000000 },
      .tradeAllocated ⟨1, 1, 1, 10000, 0, 20260903, 1⟩,
    .batchNetted ⟨1, 0, 20260903, 1⟩]

/-- The settlement of `boughtOne`. -/
def settledOne : TradeSettled := ⟨1, 10000, 0, 1, 1, 20260903, 1, 1⟩

/-- The settlement of `boughtOne` goes through, and moves the first position and the first trade.
The second of each belongs to somebody else, who owes money. -/
def settlesFirst (s : PartitionState) : Bool :=
  match apply ⟨s, none⟩ ((Event.tradeSettled settledOne).record 7) with
  | .ok (st, e) =>
    decide (st = .kOk ∧ s.custody.map (·.available) = [0, 0] ∧
      e.s.custody.map (·.available) = [10000, 0] ∧
      e.s.trades.map (·.state) = [TradeState.settled.code, TradeState.executed.code] ∧
      s.custody[1]?.map (fun c => (c.pendingBuy 2, e.s.holderOf c)) = some (10000, some 2) ∧
      s.accounts[1]?.map (fun a => (a.document, a.pending 2)) = some (2, (-1 : Raw)) ∧
      s.trades[1]?.map (fun r => (r.tradeId, s.accountKeys[r.account]?)) = some (2, some 2))
  | .error _ => false

/-- Two accounts have bought, and the purchase of the first is settled: the position and the trade
of the second stay, and so does its cash. -/
theorem isolation_settlement :
    ∃ (s₀ : PartitionState) (arena₀ : Arena) (s : PartitionState) (steps : List Step) (e : Engine)
      (c : CustodyRow) (a a' : AccountRow) (r r' : TradeRow),
      blank.init ⟨2 ^ 16, 0, false, false⟩ 1 ⟨3, 3, 3, 3, 2, 2, 2, 2, 60⟩ = .ok (true, s₀, arena₀) ∧
      Session s₀ steps s ∧
      apply ⟨s, none⟩ ((Event.tradeSettled settledOne).record 7) = .ok (.kOk, e) ∧
      s.custody.map (·.available) = [0, 0] ∧ e.s.custody.map (·.available) = [10000, 0] ∧
      e.s.trades.map (·.state) = [TradeState.settled.code, TradeState.executed.code] ∧
      s.custody[1]? = some c ∧ c.pendingBuy 2 = 10000 ∧ e.s.custody[1]? = some c ∧
      s.accounts[1]? = some a ∧ a.document = 2 ∧ a.pending 2 = -1 ∧ e.s.accounts[1]? = some a' ∧
        a'.unlinked = a.unlinked ∧
      s.trades[1]? = some r ∧ r.tradeId = 2 ∧ e.s.trades[1]? = some r' ∧
        r'.unlinked = r.unlinked := by
  obtain ⟨s₀, arena₀, s, steps, hinit, h, hend⟩ := @exists_of_runPasses
    ⟨3, 3, 3, 3, 2, 2, 2, 2, 60⟩ twoBuyers (fun _ => settlesFirst) (by decide +kernel)
  unfold settlesFirst at hend
  split at hend
  case h_2 => cases hend
  case h_1 st e happ =>
    obtain ⟨rfl, hbefore, hafter, hstates, hc, ha, hr⟩ := of_decide_eq_true hend
    obtain ⟨c, hc, hpos⟩ := Option.map_eq_some_iff.mp hc
    obtain ⟨hqty, hholder⟩ := Prod.mk.inj hpos
    obtain ⟨a, ha, hacc⟩ := Option.map_eq_some_iff.mp ha
    obtain ⟨hdoc, howed⟩ := Prod.mk.inj hacc
    obtain ⟨r, hr, htrade⟩ := Option.map_eq_some_iff.mp hr
    obtain ⟨hid, howner⟩ := Prod.mk.inj htrade
    have hevent : LogRecord.event ((Event.tradeSettled settledOne).record 7) =
        some (.tradeSettled settledOne) :=
      LogRecord.event_record (show Event.Fits (.tradeSettled _) from trivial) 7
    have hreach : Reachable s := ⟨_, _, _, s₀, arena₀, steps, hinit, h⟩
    obtain ⟨⟨hcustody, haccounts, htrades⟩, -⟩ := (isolation hreach happ).imp_left
      fun h => h fun d hd => by rw [hevent] at hd; cases hd
    -- nothing of the second account is named
    have hne : (2 : UInt64) ≠ settledOne.account := by decide
    obtain ⟨a', ha', hsame⟩ := haccounts 1 a ha fun ⟨x, hx, hname⟩ => by
      obtain rfl := Option.some.inj (hevent.symm.trans hx)
      exact hne (hdoc ▸ hname)
    obtain ⟨r', hr', hsame'⟩ := htrades 1 r hr fun ⟨x, hx, hname⟩ => by
      obtain rfl := Option.some.inj (hevent.symm.trans hx)
      obtain hname | ⟨doc, hkey, hname⟩ := hname
      · exact hname
      · obtain rfl := Option.some.inj (howner.symm.trans hkey)
        exact hne hname
    refine ⟨s₀, arena₀, s, steps, e, c, a, a', r, r', hinit, h, happ, hbefore, hafter, hstates, hc,
      hqty, hcustody 1 c hc fun ⟨x, hx, hname⟩ => ?_, ha, hdoc, howed, ha', hsame, hr, hid, hr',
      hsame'⟩
    obtain rfl := Option.some.inj (hevent.symm.trans hx)
    exact hne (Option.some.inj (hholder.symm.trans hname.1))

end MotorRv
